import DhallSyntax.Proofs.Document.Leaves
import DhallSyntax.Proofs.Tree.Mapped
import DhallSyntax.Proofs.Yaml.Nodes

/-!
The trees that YAML texts of trees are read as: the names of kinds, the numbers and the digests come
back, and so do texts, as far as they are kept where they stand. Main statements:
`toDocument_mapTexts`, what the document of a tree is read as is the document of a tree of the same
shape; `readAs_eq_self_iff`, a document comes back if all of the texts in it are kept.
-/

namespace DhallSyntax

namespace Yaml

variable {indent : Nat} {s : List Char} {c : Char}

/-! ## Words -/

instance (c : Char) : Decidable (IsMute c) := inferInstanceAs (Decidable (_ ∧ _))

/-- Texts of mute characters are kept everywhere. -/
theorem kept_mute (h : ∀ c ∈ s, IsMute c) : Kept indent s := by
  rw [Kept, needsDouble_mute h, if_neg Bool.false_ne_true]
  exact fun hmem => absurd (h _ hmem).2.1 (by decide)

theorem readText_mute {s : String} (h : ∀ c ∈ s.toList, IsMute c) : readText indent s = s :=
  readText_eq_iff.mpr (kept_mute h)

theorem readText_word {s : String} (h : s.toList.all isWordChar = true) : readText indent s = s :=
  readText_mute fun c hc => isMute_of_word (List.all_eq_true.mp h c hc)

theorem readText_digest (digest : Digest) :
    readText indent (digestText digest) = digestText digest := by
  refine readText_mute fun c hc => ?_
  rw [digestText, String.toList_join, List.flatMap_map] at hc
  obtain ⟨byte, -, hc⟩ := List.mem_flatMap.mp hc
  exact isMute_of_word (isWordChar_of_hexDigit (isHexDigit_of_mem hc).1)

/-! ## Decimals -/

theorem isMute_digit (h : c.isDigit = true) : IsMute c := isMute_of_word (isWordChar_of_digit h)

theorem isMute_pointed (h : ∀ c ∈ s, c.isDigit = true) : ∀ c ∈ Decimal.pointed s, IsMute c := by
  unfold Decimal.pointed
  split
  · exact List.forall_mem_nil _
  · exact List.forall_mem_cons.mpr ⟨by decide, fun c hc => isMute_digit (h c hc)⟩

theorem isMute_exponentChars (n : Int) : ∀ c ∈ Decimal.exponentChars n, IsMute c := by
  refine List.forall_mem_cons.mpr ⟨by decide, List.forall_mem_cons.mpr ⟨?_, fun c hc => ?_⟩⟩
  · split <;> decide
  · exact isMute_digit (Numeral.digitsOf_isDigit _ c hc)

theorem isMute_spelling {coefficient : Nat} {exponent : Int}
    (sp : Decimal.Spelling coefficient exponent) (htail : ∀ c ∈ sp.tail, IsMute c) :
    ∀ c ∈ sp.chars, IsMute c := by
  refine List.forall_mem_append.mpr ⟨fun c hc => isMute_digit (sp.whole_digits c hc), ?_⟩
  exact List.forall_mem_append.mpr ⟨isMute_pointed sp.fraction_digits, htail⟩

theorem isMute_unsigned (negative : Bool) {t : String} (h : ∀ c ∈ t.toList, IsMute c) :
    ∀ c ∈ (Decimal.signText negative ++ t).toList, IsMute c := by
  rw [String.toList_append]
  exact List.forall_mem_append.mpr ⟨CharClass.forall_mem_of_all (by cases negative <;> decide), h⟩

theorem readText_decimal (value : Decimal) : readText indent value.text = value.text := by
  refine readText_mute ?_
  cases value with
  | finite negative coefficient exponent =>
    refine isMute_unsigned negative ?_
    split
    · rename_i h
      have h : exponent ≤ 0 := by simp_all
      rw [Decimal.Spelling.plainText_eq coefficient exponent h, String.toList_ofList]
      exact isMute_spelling _ (List.forall_mem_nil _)
    · rw [Decimal.Spelling.scientificText_eq coefficient exponent, String.toList_ofList]
      exact isMute_spelling _ (isMute_exponentChars _)
  | infinity negative => exact isMute_unsigned negative (CharClass.forall_mem_of_all (by decide))
  | nan negative signaling payload =>
    rw [Decimal.text, String.append_assoc]
    refine isMute_unsigned negative ?_
    rw [String.toList_append]
    refine List.forall_mem_append.mpr
      ⟨CharClass.forall_mem_of_all (by cases signaling <;> decide), ?_⟩
    split
    · exact List.forall_mem_nil _
    · rw [String.toList_ofList]
      exact fun c hc => isMute_digit (Numeral.digitsOf_isDigit _ c hc)

theorem readText_number (n : Int) :
    readText indent (Numeral.writeSliced n) = Numeral.writeSliced n := by
  rw [Numeral.writeSliced_eq_write]
  exact readText_mute (isMute_write n)

/-! ## Levels -/

/-- A text as it is read from inside some objects. -/
def textAt (level : Nat) : String → String := readText (step * level)

/-- A document as it is read from inside some objects. -/
def documentAt (level : Nat) : Document → Document := readAs (step * level)

variable {level : Nat}

@[simp] theorem documentAt_text (s : String) :
    documentAt level (.text s) = .text (textAt level s) :=
  rfl

@[simp] theorem documentAt_int (n : Int) : documentAt level (.int n) = .int n := rfl

@[simp] theorem documentAt_null : documentAt level .null = .null := rfl

@[simp] theorem documentAt_list (items : List Document) :
    documentAt level (.list items) = .list (items.map (documentAt level)) := by
  rw [documentAt, readAs]
  congr 1
  induction items with
  | nil => rfl
  | cons item items ih => rw [itemsReadAs, ih, List.map_cons]

@[simp] theorem documentAt_object (entries : List (Scalar × Document)) :
    documentAt level (.object entries) =
      .object (entries.map fun e => (e.1, documentAt (level + 1) e.2)) := by
  rw [documentAt, readAs]
  congr 1
  induction entries with
  | nil => rfl
  | cons e entries ih => rw [entriesReadAs, ih, List.map_cons]; rfl

theorem textAt_word {s : String} (h : s.toList.all isWordChar = true) : textAt level s = s :=
  readText_word h

end Yaml

namespace Tree

open Yaml (documentAt textAt textAt_word)

variable {level : Nat}

@[simp] theorem strict_writeText (s : String) : Leaves.strict.writeText s = .text s := rfl

theorem optionalText_map (t : Option String) :
    optionalText .strict (t.map (textAt level)) = documentAt level (optionalText .strict t) := by
  cases t <;> rfl

theorem urlToDocument_mapTexts (address : Url String) (headers : Document) :
    importKindToDocument.urlToDocument .strict (address.mapTexts (textAt (level + 1)))
        (documentAt (level + 1) headers) =
      documentAt level (importKindToDocument.urlToDocument .strict address headers) := by
  have hscheme : textAt (level + 1) address.scheme.name = address.scheme.name :=
    textAt_word (by cases address.scheme <;> decide)
  simp (disch := decide) [importKindToDocument.urlToDocument, Url.mapTexts, textAt_word, hscheme,
    optionalText_map]

mutual

theorem importToDocument_mapTexts (level : Nat) : (i : Import String) →
    importToDocument .strict (i.mapTexts textAt level) =
      documentAt level (importToDocument .strict i)
  | .mk kind hash mode => by
    have hmode : textAt (level + 1) mode.name = mode.name :=
      textAt_word (by cases mode <;> decide)
    have hhash : documentAt (level + 1)
        ((hash.map fun digest => Document.text (digestText digest)).getD .null) =
          (hash.map fun digest => Document.text (digestText digest)).getD .null := by
      cases hash with
      | none => rfl
      | some digest => exact congrArg Document.text (Yaml.readText_digest digest)
    simp (disch := decide) [Import.mapTexts, importToDocument, textAt_word, hmode, hhash,
      importKindToDocument_mapTexts (level + 1) kind]

theorem importKindToDocument_mapTexts (level : Nat) : (kind : ImportKind String) →
    importKindToDocument .strict (kind.mapTexts textAt level) =
      documentAt level (importKindToDocument .strict kind)
  | .missing | .env _ => by
    simp (disch := decide) [ImportKind.mapTexts, importKindToDocument, textAt_word]
  | .path anchor components => by
    have hanchor : textAt (level + 1) anchor.name = anchor.name :=
      textAt_word (by cases anchor <;> decide)
    simp (disch := decide) [ImportKind.mapTexts, importKindToDocument, textAt_word, hanchor]
  | .url address => urlToDocument_mapTexts address .null
  | .urlUsing address headers => by
    rw [ImportKind.mapTexts, importKindToDocument, importKindToDocument,
      importToDocument_mapTexts (level + 1) headers, urlToDocument_mapTexts]

end

mutual

/-- What the document of a tree is read as is the document of a tree of the same shape. -/
theorem toDocument_mapTexts (level : Nat) : (t : Expr) →
    toDocument .strict (t.mapTexts textAt level) = documentAt level (toDocument .strict t)
  | .variable _ _ | .builtin _ => by
    simp (disch := decide) [mapTexts, toDocument, textAt_word]
  | .lambda _ a b | .pi _ a b | .app a b | .annotated a b | .projectionByType a b => by
    simp (disch := decide) [mapTexts, toDocument, textAt_word, toDocument_mapTexts (level + 1) a,
      toDocument_mapTexts (level + 1) b]
  | .operation operator a b => by
    have hoperator : textAt (level + 1) operator.name = operator.name :=
      textAt_word (by cases operator <;> decide)
    simp (disch := decide) [mapTexts, toDocument, textAt_word, hoperator,
      toDocument_mapTexts (level + 1) a, toDocument_mapTexts (level + 1) b]
  | .letIn bindings body => by
    simp (disch := decide) [mapTexts, toDocument, textAt_word,
      bindingsToDocuments_mapBindings (level + 1) bindings, toDocument_mapTexts (level + 1) body]
  | .conditional a b c => by
    simp (disch := decide) [mapTexts, toDocument, textAt_word, toDocument_mapTexts (level + 1) a,
      toDocument_mapTexts (level + 1) b, toDocument_mapTexts (level + 1) c]
  | .merge a b type => by
    simp (disch := decide) [mapTexts, toDocument, textAt_word, toDocument_mapTexts (level + 1) a,
      toDocument_mapTexts (level + 1) b, optionToDocument_mapOption (level + 1) type]
  | .toMap a type => by
    simp (disch := decide) [mapTexts, toDocument, textAt_word, toDocument_mapTexts (level + 1) a,
      optionToDocument_mapOption (level + 1) type]
  | .emptyList a | .present a | .field a _ | .projection a _ => by
    simp (disch := decide) [mapTexts, toDocument, textAt_word, toDocument_mapTexts (level + 1) a]
  | .list elements => by
    simp (disch := decide) [mapTexts, toDocument, textAt_word,
      toDocuments_mapTrees (level + 1) elements]
  | .recordType entries | .record entries | .union entries => by
    simp (disch := decide) [mapTexts, toDocument, textAt_word,
      entriesToDocuments_mapEntries (level + 1) entries]
  | .text chunks _ => by
    simp (disch := decide) [mapTexts, toDocument, textAt_word,
      chunksToDocuments_mapChunks (level + 1) chunks]
  | .double value => by
    have hvalue : textAt (level + 1) value.text = value.text := Yaml.readText_decimal value
    simp (disch := decide) [mapTexts, toDocument, textAt_word, hvalue]
  | .natural value | .integer value => by
    have hvalue : textAt (level + 1) (Leaves.strict.writeNumber value) =
        Leaves.strict.writeNumber value := Yaml.readText_number value
    simp (disch := decide) [mapTexts, toDocument, textAt_word, hvalue]
  | .embedded i => by
    rw [mapTexts, toDocument, toDocument, importToDocument_mapTexts level i]

theorem optionToDocument_mapOption (level : Nat) : (t : Option Expr) →
    optionToDocument .strict (mapOption textAt level t) =
      documentAt level (optionToDocument .strict t)
  | none => by simp [mapOption, optionToDocument]
  | some t => by simp [mapOption, optionToDocument, toDocument_mapTexts level t]

theorem toDocuments_mapTrees (level : Nat) : (ts : List Expr) →
    toDocuments .strict (mapTrees textAt level ts) =
      (toDocuments .strict ts).map (documentAt level)
  | [] => by simp [mapTrees, toDocuments]
  | t :: rest => by
    simp [mapTrees, toDocuments, toDocument_mapTexts level t, toDocuments_mapTrees level rest]

theorem entriesToDocuments_mapEntries (level : Nat) : (entries : List (String × Option Expr)) →
    entriesToDocuments .strict (mapEntries textAt (level + 1) entries) =
      (entriesToDocuments .strict entries).map (documentAt level)
  | [] => by simp [mapEntries, entriesToDocuments]
  | (_, value) :: rest => by
    simp [mapEntries, entriesToDocuments, optionToDocument_mapOption (level + 1) value,
      entriesToDocuments_mapEntries level rest]

theorem chunksToDocuments_mapChunks (level : Nat) : (chunks : List (String × Expr)) →
    chunksToDocuments .strict (mapChunks textAt (level + 1) chunks) =
      (chunksToDocuments .strict chunks).map (documentAt level)
  | [] => by simp [mapChunks, chunksToDocuments]
  | (_, t) :: rest => by
    simp [mapChunks, chunksToDocuments, toDocument_mapTexts (level + 1) t,
      chunksToDocuments_mapChunks level rest]

theorem bindingsToDocuments_mapBindings (level : Nat) :
    (bindings : List (Binding String Expr)) →
      bindingsToDocuments .strict (mapBindings textAt (level + 1) bindings) =
        (bindingsToDocuments .strict bindings).map (documentAt level)
  | [] => by simp [mapBindings, bindingsToDocuments]
  | ⟨_, type, value⟩ :: rest => by
    simp [mapBindings, bindingsToDocuments, optionToDocument_mapOption (level + 1) type,
      toDocument_mapTexts (level + 1) value, bindingsToDocuments_mapBindings level rest]

end

end Tree

end DhallSyntax
