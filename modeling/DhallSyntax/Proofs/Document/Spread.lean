import DhallSyntax.Exchange
import DhallSyntax.Proofs.Document.RoundTrip

/-!
Properties that a document has because of something in it. Main statement: `Spreads.toDocument_iff`,
the document of a tree has such a property where one of the texts of the root has it, or the index
of a variable, or the document of a tree right below the root.
-/

namespace DhallSyntax

namespace Document

/-- A collection has a property if one of its items has it, and plain texts never do. -/
structure Spreads (f : Document → Bool) : Prop where
  list : ∀ items, f (.list items) = items.any f
  object : ∀ entries, f (.object entries) = entries.any fun entry => f entry.2
  text : ∀ s, f (.text s) = false
  null : f .null = false

theorem spreads_hasLongInteger : Spreads hasLongInteger where
  list items := by
    rw [hasLongInteger]
    induction items with
    | nil => rfl
    | cons item items ih => rw [anyLongInteger, ih, List.any_cons]
  object entries := by
    rw [hasLongInteger]
    induction entries with
    | nil => rfl
    | cons entry entries ih => rw [anyLongEntry, ih, List.any_cons]
  text _ := rfl
  null := rfl

theorem spreads_isEndless : Spreads isEndless where
  list items := by
    rw [isEndless]
    induction items with
    | nil => rfl
    | cons item items ih => rw [anyEndless, ih, List.any_cons]
  object entries := by
    rw [isEndless]
    induction entries with
    | nil => rfl
    | cons entry entries ih => rw [anyEndlessEntry, ih, List.any_cons]
  text _ := rfl
  null := rfl

end Document

namespace Document.Spreads

variable {τ ν : Type} {leaves : Leaves τ ν} {f : Document → Bool} (hf : Spreads f)

include hf

theorem list_iff {items : List Document} :
    f (.list items) = true ↔ ∃ item ∈ items, f item = true := by
  rw [hf.list, List.any_eq_true]

theorem texts_iff {ts : List τ} :
    f (.list (ts.map leaves.writeText)) = true ↔ ∃ t ∈ ts, f (leaves.writeText t) = true := by
  simp [hf.list_iff]

theorem optionalText_iff {t : Option τ} :
    f (Tree.optionalText leaves t) = true ↔ ∃ x ∈ t, f (leaves.writeText x) = true := by
  cases t <;> simp [Tree.optionalText, hf.null]

theorem url_iff {address : Url τ} {headers : Document} :
    f (Tree.importKindToDocument.urlToDocument leaves address headers) = true ↔
      (∃ t ∈ address.texts, f (leaves.writeText t) = true) ∨ f headers = true := by
  simp [Tree.importKindToDocument.urlToDocument, Url.texts, hf.object, hf.text, hf.texts_iff,
    hf.optionalText_iff, or_and_right, exists_or, or_assoc]

theorem hash_eq (hash : Option Digest) :
    f ((hash.map fun digest => Document.text (digestText digest)).getD .null) = false := by
  cases hash with
  | none => exact hf.null
  | some digest => exact hf.text _

/-- An import has the property where one of its texts has it. -/
theorem import_iff {i : Import τ} :
    f (Tree.importToDocument leaves i) = true ↔ ∃ t ∈ i.texts, f (leaves.writeText t) = true := by
  cases i with
  | mk kind hash mode =>
    simp only [Tree.importToDocument, hf.object, List.any_cons, List.any_nil, hf.text,
      hf.hash_eq hash, Bool.false_or, Bool.or_false, Import.texts]
    cases kind with
    | missing => simp [Tree.importKindToDocument, hf.object, hf.text, ImportKind.texts]
    | path anchor components =>
      simp [Tree.importKindToDocument, hf.object, hf.text, hf.texts_iff, ImportKind.texts]
    | env name => simp [Tree.importKindToDocument, hf.object, hf.text, ImportKind.texts]
    | url address => simp [Tree.importKindToDocument, hf.url_iff, hf.null, ImportKind.texts]
    | urlUsing address headers =>
      simp [Tree.importKindToDocument, hf.url_iff, import_iff, ImportKind.texts, or_and_right,
        exists_or]

theorem option_iff {t : Option (Tree τ ν)} :
    f (Tree.optionToDocument leaves t) = true ↔ ∃ s ∈ t, f (Tree.toDocument leaves s) = true := by
  cases t <;> simp [Tree.optionToDocument, hf.null]

/-- A tree has the property where its root has it, by a text or by an index, or where one of the
trees right below it has. -/
theorem toDocument_iff {t : Tree τ ν} :
    f (Tree.toDocument leaves t) = true ↔
      (∃ x ∈ t.texts, f (leaves.writeText x) = true) ∨ (∃ i ∈ t.index?, f (.int i) = true) ∨
        ∃ s ∈ t.children, f (Tree.toDocument leaves s) = true := by
  cases t with
  | embedded i => simp [Tree.toDocument, hf.import_iff, Tree.texts, Tree.index?, Tree.children]
  | list elements =>
    simp [Tree.toDocument, hf.object, hf.text, hf.list_iff, Tree.toDocuments_eq_map, Tree.texts,
      Tree.index?, Tree.children]
  | recordType entries | record entries | union entries =>
    simp [Tree.toDocument, hf.object, hf.text, hf.list_iff, Tree.entriesToDocuments_eq_map,
      Tree.entryDocument, hf.option_iff, Tree.texts, Tree.index?, Tree.children]
    grind
  | text chunks suffix =>
    simp [Tree.toDocument, hf.object, hf.text, hf.list_iff, Tree.chunksToDocuments_eq_map,
      Tree.chunkDocument, Tree.texts, Tree.index?, Tree.children]
    grind
  | letIn bindings body =>
    simp [Tree.toDocument, hf.object, hf.text, hf.list_iff, Tree.bindingsToDocuments_eq_map,
      Tree.bindingDocument, hf.option_iff, Tree.texts, Tree.index?, Tree.children]
    grind
  | projection record labels =>
    simp [Tree.toDocument, hf.object, hf.text, hf.texts_iff, Tree.texts, Tree.index?, Tree.children,
      or_comm]
  | merge a b type | toMap a type =>
    simp [Tree.toDocument, hf.object, hf.text, hf.option_iff, Tree.texts, Tree.index?,
      Tree.children]
  | field a label =>
    simp [Tree.toDocument, hf.object, hf.text, Tree.texts, Tree.index?, Tree.children, or_comm]
  | _ => simp [Tree.toDocument, hf.object, hf.text, Tree.texts, Tree.index?, Tree.children]

end Document.Spreads

end DhallSyntax
