import DhallSyntax.Proofs.Reading.Addresses
import DhallSyntax.Proofs.Reading.Texts

/-!
Written imports are read back: where they come from, the hash behind it and the mode behind that.
Each of these is optional, so that what follows an import must not look like one of them.
-/

namespace DhallSyntax

open Grammar CharClass
open Reading (Iterates)
open Rendering (word)

variable {rules : RuleReader}

/-! ## Local paths -/

theorem readBy_anchor (a : Anchor) (t : List Char) :
    Grammar.anchor.readBy rules (Rendering.anchor a ++ '/' :: t) = .value a ('/' :: t) := by
  cases a <;> rfl

/-- A local path is read component by component, however each of them is written. -/
theorem read_localImport_parts {a : Anchor} {parts : List PathPart} {components : List String}
    (hne : components ≠ []) (h : PathPart.Spell parts components)
    (hcomponents : ∀ s ∈ components, s ≠ "") {t : List Char} (ht : HeadIn [' '] t) :
    Rule.localImport.read (Rendering.anchor a ++ (parts.flatMap PathPart.chars ++ t)) =
      .value (.path a components) t := by
  obtain ⟨htexts, hvalid⟩ := h
  obtain ⟨part, rest, rfl⟩ : ∃ part rest, parts = part :: rest := by
    refine List.exists_cons_of_ne_nil ?_
    rintro rfl
    exact hne htexts.symm
  subst htexts
  have hread : ∀ part' ∈ part :: rest, ∀ u, u = t ∨ u.head? = some '/' →
      pathComponent.read (part'.chars ++ u) = .value part'.text u := by
    intro part' hpart u hu
    refine readBy_pathComponent (hvalid _ hpart) (hcomponents _ (List.mem_map_of_mem hpart)) ?_
    obtain rfl | hu := hu
    · exact ht.any (by decide)
    · rw [hu]
      rfl
  obtain ⟨hpart, hrest⟩ := List.forall_mem_cons.mp hread
  have hstop : pathComponent.read t = .mismatch := by
    have hslash : "/".toList.isPrefixOf t = false := isPrefixOf_of_head_ne (ht.ne (by decide))
    simp only [Grammar.pathComponent, readBy_bind, readBy_expect, hslash, Bool.false_eq_true,
      if_false, Reading.bind_mismatch]
  have hfirst := hpart _ (PathPart.nil_or_head?_flatMap rest t)
  have hfurther := readBy_many (folds_parts hrest hstop [])
  obtain ⟨behind, hslash⟩ := List.head?_eq_some_iff.mp
    (part.head?_chars (rest.flatMap PathPart.chars ++ t))
  rw [List.flatMap_cons, List.append_assoc, Rule.read_eq]
  simp only [Rule.body, localImport, readBy_bind]
  rw [hslash, readBy_anchor, Reading.bind_value, ← hslash]
  simp only [hfirst, hfurther, Reading.bind_value, readBy_pure, List.append_nil,
    List.reverse_reverse, List.map_cons]

theorem read_localImport {a : Anchor} {components : List String} (hne : components ≠ [])
    (h : ∀ s ∈ components, ImportModel.readable.component s) {t : List Char}
    (ht : HeadIn [' '] t) :
    Rule.localImport.read (Rendering.anchor a ++ (components.flatMap Rendering.component ++ t)) =
      .value (.path a components) t := by
  have hspell := PathPart.spell_rendered fun s hs => (h s hs).2
  rw [← PathPart.flatMap_rendered]
  exact read_localImport_parts hne hspell (fun s hs => (h s hs).1) ht

/-! ## Environment variables -/

/-- The steps through a quoted name. -/
abbrev NameSteps (name s : List Char) (r : Reading String) : Prop :=
  Iterates (fun name s => (quotedNameStep name).read s) name s r

/-- One way to spell a character in a quoted name. -/
inductive NameItem where
  /-- A character that stands for itself. -/
  | plain (c : Char) (valid : printableAscii c = true ∧ c ∉ ['"', '\\', '='])
  /-- A backslash and a letter. -/
  | escape (letter c : Char) (known : (letter, c) ∈ EscapeTable.environment)

namespace NameItem

def chars : NameItem → List Char
  | plain c _ => [c]
  | escape letter _ _ => ['\\', letter]

/-- The character that is spelled. -/
def char : NameItem → Char
  | plain c _ | escape _ c _ => c

theorem plain_valid {c : Char} (hc : environmentChar c = true) (hb : c ≠ '\\') :
    printableAscii c = true ∧ c ∉ ['"', '\\', '='] := by
  simp only [environmentChar, Bool.and_eq_true, bne_iff_ne, ne_eq] at hc
  simp [hc, hb]

/-- A character that neither ends the name nor begins an escape stands for itself, if it may. -/
theorem step_of_plain {done : List Char} {c : Char} {t : List Char}
    (hquote : c = '"' → done = []) (hb : c ≠ '\\') :
    (quotedNameStep done).read (c :: t) =
      if environmentChar c then .value (.inl (c :: done)) t else .mismatch := by
  have hend : ((c :: t).head? == some '"' && !done.isEmpty) = false := by
    by_cases hc : c = '"'
    · simp [hquote hc]
    · simp [hc]
  have hbackslash : "\\".toList.isPrefixOf (c :: t) = false :=
    isPrefixOf_of_head_ne (by rintro d ⟨⟩; exact hb)
  simp only [quotedNameStep, Grammar.read, readBy_bind, readBy_look, Reading.bind_value, hend,
    Bool.false_eq_true, if_false, readBy_accept, hbackslash, readBy_takeIf_cons]
  split <;> rfl

theorem step_of_letter (done : List Char) (letter : Char) (t : List Char) :
    (quotedNameStep done).read ('\\' :: letter :: t) =
      match EscapeTable.environment.lookup letter with
      | some c => .value (.inl (c :: done)) t
      | none => .mismatch := by
  have hquote : (('\\' :: letter :: t).head? == some '"') = false := rfl
  have hbackslash : "\\".toList.isPrefixOf ('\\' :: letter :: t) = true := rfl
  simp only [quotedNameStep, Grammar.read, readBy_bind, readBy_look, Reading.bind_value, hquote,
    Bool.false_and, Bool.false_eq_true, if_false, readBy_accept, hbackslash, if_true]
  cases h : EscapeTable.environment.lookup letter <;> simp [peek, h]

theorem step_of_quote {done : List Char} (hne : done ≠ []) (t : List Char) :
    (quotedNameStep done).read ('"' :: t) = .value (.inr (String.ofList done.reverse)) t := by
  have hquote : (('"' :: t).head? == some '"') = true := rfl
  simp only [quotedNameStep, Grammar.read, readBy_bind, readBy_look, Reading.bind_value, hquote,
    List.isEmpty_eq_false_iff.mpr hne, Bool.not_false, Bool.and_self, if_true, readBy_advance,
    List.drop_succ_cons, List.drop_zero, readBy_pure]

theorem step (i : NameItem) (done t : List Char) :
    (quotedNameStep done).read (i.chars ++ t) = .value (.inl (i.char :: done)) t := by
  cases i with
  | plain c valid =>
    obtain ⟨hprintable, hc⟩ := valid
    simp only [List.mem_cons, List.not_mem_nil, or_false, not_or] at hc
    have henvironment : environmentChar c = true := by
      simp [environmentChar, hprintable, hc]
    rw [chars, char, List.singleton_append,
      step_of_plain (fun h => absurd h hc.1) hc.2.1, if_pos henvironment]
  | escape letter c known =>
    have hall : ∀ entry ∈ EscapeTable.environment,
        EscapeTable.environment.lookup entry.1 = some entry.2 := by decide
    have hlookup := hall _ known
    rw [chars, char, List.cons_append, List.singleton_append, step_of_letter, hlookup]

/-- A name of items is read, unless it is empty. -/
theorem steps {items : List NameItem} {done : List Char} (hne : done ≠ [] ∨ items ≠ [])
    (t : List Char) :
    NameSteps done (items.flatMap chars ++ '"' :: t)
      (.value (String.ofList (done.reverse ++ items.map char)) t) := by
  induction items generalizing done with
  | nil =>
    rw [List.flatMap_nil, List.nil_append, List.map_nil, List.append_nil]
    exact .last (step_of_quote (hne.resolve_right fun h => h rfl) t)
  | cons i items ih =>
    have hlater := ih (.inl (List.cons_ne_nil i.char done))
    rw [List.reverse_cons, List.append_assoc, List.singleton_append] at hlater
    rw [List.flatMap_cons, List.append_assoc]
    refine .next (i.step done (items.flatMap chars ++ '"' :: t)) ?_ hlater
    have hpos : 0 < i.chars.length := by cases i <;> exact Nat.succ_pos _
    simp only [List.length_append]
    omega

/-- Every character of a name can be spelled. -/
theorem exists_rendered {name : List Char} (h : ∀ c ∈ name,
      environmentChar c = true ∨ ∃ letter, (letter, c) ∈ EscapeTable.environment) :
    ∃ items : List NameItem, items.map char = name ∧
      items.flatMap chars = name.flatMap Rendering.nameChar := by
  induction name with
  | nil => exact ⟨[], rfl, rfl⟩
  | cons c name ih =>
    obtain ⟨hc, hname⟩ := List.forall_mem_cons.mp h
    obtain ⟨items, rfl, hitems⟩ := ih hname
    have hspelled : ∃ i : NameItem, i.char = c ∧ i.chars = Rendering.nameChar c := by
      rw [Rendering.nameChar]
      cases hl : Rendering.letter? EscapeTable.environment c with
      | some letter => exact ⟨.escape letter c (mem_of_letter? hl), rfl, rfl⟩
      | none =>
        have hnone := not_mem_of_letter? hl
        have hbackslash : c ≠ '\\' := by
          rintro rfl
          exact hnone '\\' (by decide)
        have hplain := hc.resolve_right (not_exists.mpr hnone)
        exact ⟨.plain c (plain_valid hplain hbackslash), rfl, rfl⟩
    obtain ⟨i, rfl, hi⟩ := hspelled
    exact ⟨i :: items, rfl, by rw [List.flatMap_cons, List.flatMap_cons, hi, hitems]⟩

end NameItem

theorem readBy_envImport (rules : RuleReader) (s : List Char) :
    envImport.readBy rules (word "env:\"" ++ s) =
      ((iterate [] quotedNameStep).readBy rules s).bind fun name t => .value (.env name) t := rfl

theorem read_envImport {name : String} (h : ImportModel.readable.variableName name)
    (t : List Char) :
    Rule.envImport.read (word "env:\"" ++ (name.toList.flatMap Rendering.nameChar ++ '"' :: t)) =
      .value (.env name) t := by
  obtain ⟨items, hname, hchars⟩ := NameItem.exists_rendered h.2
  have hne : items ≠ [] := by
    rintro rfl
    exact h.1 (String.toList_eq_nil_iff.mp hname.symm)
  have hsteps := NameItem.steps (.inr hne : [] ≠ [] ∨ items ≠ []) t
  rw [List.reverse_nil, List.nil_append, hname, String.ofList_toList, hchars] at hsteps
  have hread : (iterate [] quotedNameStep).read
      (name.toList.flatMap Rendering.nameChar ++ '"' :: t) = .value name t := readBy_iterate hsteps
  refine (Rule.read_eq .envImport _).trans ((readBy_envImport _ _).trans ?_)
  exact congrArg (Reading.bind · _) hread

/-! ## Hashes -/

/-- Two hexadecimal digits give back every byte. -/
theorem hexDigits_byte (b : UInt8) :
    ∃ x y, (hexDigits 2 b.toNat).toList = [x, y] ∧ hexDigit x = true ∧ hexDigit y = true ∧
      UInt8.ofNat (Numeral.positional 16 [x, y]) = b := by
  have hall : ∀ n : Fin 256, (hexDigits 2 n).toList.length = 2 ∧
      (hexDigits 2 n).toList.all hexDigit = true ∧
      Numeral.positional 16 (hexDigits 2 n).toList = n := by decide +kernel
  obtain ⟨hlength, hhex, hvalue⟩ := hall ⟨b.toNat, b.toNat_lt⟩
  match hdigits : (hexDigits 2 b.toNat).toList, hlength with
  | [x, y], _ =>
    rw [hdigits] at hhex hvalue
    simp only [List.all_cons, List.all_nil, Bool.and_true, Bool.and_eq_true] at hhex
    exact ⟨x, y, rfl, hhex.1, hhex.2, by rw [hvalue]; exact UInt8.ofNat_toNat⟩

theorem digest_chars (d : Digest) :
    (∀ c ∈ Rendering.digest d, hexDigit c = true) ∧
      (Rendering.digest d).length = 2 * d.length ∧ bytesOf (Rendering.digest d) = d := by
  induction d with
  | nil => exact ⟨(fun _ h => nomatch h), rfl, rfl⟩
  | cons b d ih =>
    obtain ⟨hhex, hlength, hbytes⟩ := ih
    obtain ⟨x, y, hdigits, hx, hy, hvalue⟩ := hexDigits_byte b
    have hshape : Rendering.digest (b :: d) = x :: y :: Rendering.digest d := by
      rw [Rendering.digest, List.flatMap_cons, hdigits]
      rfl
    rw [hshape]
    refine ⟨?_, ?_, ?_⟩
    · simp only [List.forall_mem_cons]
      exact ⟨hx, hy, hhex⟩
    · simp only [List.length_cons, hlength]
      omega
    · rw [bytesOf, hvalue, hbytes]

/-- Where no whitespace follows the colon, the digits that do have to be as many as a hash has. -/
theorem readBy_integrityHash {r : List Char} (hr : Whitespace.starts r = false) :
    integrityHash.readBy rules (word "sha256:" ++ r) =
      if (r.takeWhile hexDigit).length == Defect.hashDigits then
        .value (bytesOf (r.takeWhile hexDigit)) (r.dropWhile hexDigit)
      else .abort (.defect (.hashLength (r.takeWhile hexDigit).length)) := by
  -- No annotation of a variable named after the hash algorithm begins here.
  have hannotation : ("sha256:".toList.isPrefixOf (word "sha256:" ++ r) &&
      Whitespace.starts ((word "sha256:" ++ r).drop 7)) = false :=
    Bool.and_eq_false_iff.mpr (.inr hr)
  have hprefix : (expect "sha256:").readBy rules (word "sha256:" ++ r) = .value () r := rfl
  simp only [integrityHash, readBy_bind, readBy_look, Reading.bind_value, hannotation,
    Bool.false_eq_true, if_false, hprefix, readBy_takeWhile]
  split <;> rfl

theorem read_integrityHash {d : Digest} (hd : d.length = digestLength) {t : List Char}
    (ht : HeadIn [' '] t) :
    integrityHash.read (word "sha256:" ++ (Rendering.digest d ++ t)) = .value d t := by
  obtain ⟨hhex, hlength, hbytes⟩ := digest_chars d
  obtain ⟨htake, hdrop⟩ := takeWhile_append_stop hhex
    (ht.any (by decide : [' '].all (fun c => !hexDigit c) = true))
  have htight : Whitespace.Tight (Rendering.digest d ++ t) := by
    refine Whitespace.tight_of_head ?_
    cases hdigest : Rendering.digest d with
    | nil =>
      rw [hdigest, hd] at hlength
      cases hlength
    | cons c rest =>
      refine not_contains (by decide) c (hhex c ?_)
      rw [hdigest]
      exact List.mem_cons_self
  have hstarts : Whitespace.starts (Rendering.digest d ++ t) = false := by
    rw [Whitespace.starts, htight]
    rfl
  have hcount : ((Rendering.digest d).length == Defect.hashDigits) = true := by
    rw [hlength, hd]
    rfl
  rw [Grammar.read, readBy_integrityHash hstarts, htake, hdrop, hbytes, if_pos hcount]

/-! ## Imports -/

/-- What may follow the kind of an import. -/
structure EndsKind (t : List Char) : Prop where
  head : HeadIn [' '] t
  noUsing : usingClause.read t = .mismatch

/-- What may follow an import and its hash. -/
structure EndsHashed (t : List Char) : Prop where
  kind : EndsKind t
  noHash : (do whitespace1; integrityHash : Grammar Digest).read t = .mismatch

theorem Closes.headIn {t : List Char} (h : Closes t) : HeadIn [' '] t := by
  obtain rfl | ⟨r, rfl⟩ := h
  · exact fun _ h => by cases h
  · rintro c ⟨⟩
    exact List.mem_singleton.mpr rfl

/-- No word stands where the source ends or a parenthesis closes. -/
theorem read_keyword_of_closes {t : List Char} (h : Closes t) {w : String}
    (hw : w.toList.head?.any labelStart = true) :
    ∃ u, whitespace.read t = .value () u ∧ (keyword w).read u = .mismatch := by
  have hmisses : ∀ s : List Char, s.head?.any labelStart = false →
      (keyword w).read s = .mismatch := beginsWith_keyword w hw
  obtain rfl | ⟨r, rfl⟩ := h
  · exact ⟨[], rfl, hmisses [] rfl⟩
  · exact ⟨')' :: r, rfl, hmisses (')' :: r) rfl⟩

theorem Closes.endsHashed {t : List Char} (h : Closes t) : EndsHashed t := by
  obtain ⟨u, hspace, hword⟩ :=
    read_keyword_of_closes h (by decide : "using".toList.head?.any labelStart = true)
  refine ⟨⟨h.headIn, ?_⟩, ?_⟩
  · simp only [usingClause, readBy_bind, hspace, Reading.bind_value, hword, Reading.bind_mismatch]
  · obtain rfl | ⟨r, rfl⟩ := h <;> rfl

theorem endsHashed_mode (m : ImportMode) {t : List Char} (ht : Closes t) :
    EndsHashed (Rendering.mode m ++ t) := by
  cases m with
  | code => exact ht.endsHashed
  | rawText => exact ⟨⟨by rintro c ⟨⟩; decide, rfl⟩, rfl⟩
  | location => exact ⟨⟨by rintro c ⟨⟩; decide, rfl⟩, rfl⟩

theorem endsKind_hash (h : Option Digest) {t : List Char} (ht : EndsHashed t) :
    EndsKind (Rendering.hash h ++ t) := by
  cases h with
  | none => exact ht.kind
  | some d => exact ⟨by rintro c ⟨⟩; decide, rfl⟩

/-- A kind of import is that of the first rule that matches. -/
theorem read_importType {s : List Char} (h : s.head?.any "m".toList.contains = false) :
    Rule.importType.read s = (Rule.localImport.read s).orElse
      ((Rule.httpImport.read s).orElse ((Rule.envImport.read s).orElse .mismatch)) := by
  have hmissing : (keyword "missing").read s = .mismatch :=
    beginsWith_keyword "missing" (by decide) s h
  rw [Rule.read_eq]
  simp only [Rule.body, Grammar.importType, readBy_choice_cons, readBy_bind, hmissing,
    Reading.bind_mismatch, Reading.orElse_mismatch, readBy_choice_nil]
  rfl

theorem read_missing {t : List Char} (ht : HeadIn [' '] t) :
    Rule.importType.read (word "missing" ++ t) = .value .missing t := by
  have hcontinue : "missing".toList.all labelContinue = true := by decide
  obtain ⟨hword, hbehind⟩ := wordOf_append hcontinue (ht.any (by decide))
  have hkeyword : (keyword "missing").read (word "missing" ++ t) = .value () t := by
    refine (readBy_keyword_word "missing" hcontinue _).trans ?_
    rw [Rendering.word, hword, hbehind, if_pos rfl]
  rw [Rule.read_eq]
  simp only [Rule.body, Grammar.importType, readBy_choice_cons, readBy_bind, hkeyword,
    Reading.bind_value, readBy_pure, Reading.orElse_value]

theorem read_importHashed {kind : ImportKind String} {s t : List Char} {h : Option Digest}
    (hd : ∀ d, h = some d → d.length = digestLength) (ht : EndsHashed t)
    (hkind : Rule.importType.read (s ++ (Rendering.hash h ++ t)) =
      .value kind (Rendering.hash h ++ t)) :
    Rule.importHashed.read (s ++ (Rendering.hash h ++ t)) = .value (.mk kind h .code) t := by
  have hkind : (call .importType).read (s ++ (Rendering.hash h ++ t)) =
      .value kind (Rendering.hash h ++ t) := hkind
  rw [Rule.read_eq]
  simp only [Rule.body, Grammar.importHashed, readBy_bind, hkind, Reading.bind_value,
    readBy_optional?]
  cases h with
  | none =>
    have hnone := ht.noHash
    simp only [readBy_bind] at hnone
    simp only [Rendering.hash, List.nil_append, hnone, Reading.bind_mismatch,
      Reading.orElse_mismatch, Reading.bind_value, readBy_pure]
  | some d =>
    have hspace : whitespace1.read (Rendering.hash (some d) ++ t) =
        .value () (word "sha256:" ++ (Rendering.digest d ++ t)) := rfl
    simp only [hspace, Reading.bind_value, read_integrityHash (hd d rfl) ht.kind.head,
      Reading.orElse_value, readBy_pure]

/-- A clause with the headers in parentheses. -/
theorem read_usingClause {headers : Import String} {s t : List Char}
    (hs : ∀ r, Whitespace.Tight (s ++ r))
    (h : Rule.importHashed.read (s ++ ' ' :: ')' :: t) = .value headers (' ' :: ')' :: t)) :
    usingClause.read (word " using ( " ++ (s ++ ' ' :: ')' :: t)) = .value headers t := by
  have h : (call .importHashed).read (s ++ ' ' :: ')' :: t) =
      .value headers (' ' :: ')' :: t) := h
  have hspace : ∀ r, whitespace.read (word " using ( " ++ r) =
      .value () (word "using ( " ++ r) := fun _ => rfl
  have hword : ∀ r, (keyword "using").read (word "using ( " ++ r) =
      .value () (' ' :: '(' :: ' ' :: r) := fun _ => rfl
  have hopen : ∀ r, (accept "(").read ('(' :: r) = .value true r := fun _ => rfl
  have hclose : ∀ r, (expect ")").read (')' :: r) = .value () r := fun _ => rfl
  have htight : ∀ c ∈ ['(', ')'], ∀ r, Whitespace.Tight (c :: r) := by
    intro c hc r
    simp only [List.mem_cons, List.not_mem_nil, or_false] at hc
    obtain rfl | rfl := hc <;> rfl
  simp only [usingClause, readBy_bind, hspace, hword, Reading.bind_value,
    readBy_whitespace1_space (htight '(' (by decide) _), hopen, if_true,
    readBy_whitespace_space (hs _), h, readBy_whitespace_space (htight ')' (by decide) _), hclose,
    readBy_pure]

theorem spelled_head (u : Url String) (parts : List PathPart) (r : List Char) :
    (u.spelled parts ++ r).head? = some 'h' := by
  rw [Url.spelled_append]
  cases u.scheme <;> rfl

theorem address_head (u : Url String) (r : List Char) :
    (Rendering.address u ++ r).head? = some 'h' := by
  rw [← Url.spelled_rendered]
  exact spelled_head u _ r

/-- An import begins with the word for a missing one or with one of a few characters. -/
theorem importKind_head {kind : ImportKind String} (h : kind.WellFormed .readable) :
    kind = .missing ∨
      ∀ t, (Rendering.importKind kind ++ t).head?.any "./~eh".toList.contains = true := by
  cases h with
  | missing => exact .inl rfl
  | @path a components hne _ =>
    obtain ⟨s, rest, rfl⟩ := List.exists_cons_of_ne_nil hne
    refine .inr fun t => ?_
    rw [Rendering.importKind, List.flatMap_cons]
    unfold Rendering.component
    cases a <;> split <;> rfl
  | url =>
    refine .inr fun t => ?_
    rw [Rendering.importKind, address_head]
    rfl
  | urlUsing =>
    refine .inr fun t => ?_
    rw [Rendering.importKind, List.append_assoc, List.append_assoc, List.append_assoc,
      address_head]
    rfl
  | env => exact .inr fun t => rfl

/-- No import is taken for another form that begins with a word or a mark. -/
theorem importKind_start {kind : ImportKind String} (h : kind.WellFormed .readable)
    (t : List Char) :
    Whitespace.Tight (Rendering.importKind kind ++ t) ∧
      NoApplicationWord (Rendering.importKind kind ++ t) ∧
      NoLongerForm (Rendering.importKind kind ++ t) := by
  obtain rfl | hhead := importKind_head h
  · have hmerge : (keyword "merge").read (Rendering.importKind .missing ++ t) = .mismatch := rfl
    have hform : Rule.mergeExpression.read (Rendering.importKind .missing ++ t) = .mismatch := by
      rw [Rule.read_eq]
      simp only [Rule.body, mergeExpression, readBy_bind, hmerge, Reading.bind_mismatch]
    have hmisses := Rule.read_of_head
      (by rfl : (Rendering.importKind .missing ++ t).head? = some 'm')
    exact ⟨rfl, ⟨hmerge, rfl, rfl⟩,
      { lambda := hmisses .lambdaExpression rfl
        conditional := hmisses .ifExpression rfl
        letIn := hmisses .letExpression rfl
        pi := hmisses .forallExpression rfl
        merge := hform
        emptyList := hmisses .emptyListExpression rfl
        toMap := hmisses .toMapExpression rfl }⟩
  · have hmisses : ∀ text : List Char, "./~eh".toList.all (fun c => !text.contains c) = true →
        (Rendering.importKind kind ++ t).head?.any text.contains = false := by
      intro text htext
      refine head?_any_disjoint (fun c hc => ?_) (hhead t)
      simpa using List.all_eq_true.mp htext c (List.contains_iff_mem.mp hc)
    exact ⟨Whitespace.tight_of_head (hmisses _ (by decide)),
      noApplicationWord_of_first (hmisses _ (by decide)),
      noLongerForm_of_first (hmisses _ (by decide))⟩

theorem hashed_start {i : Import String} (h : i.WellFormed .readable) (t : List Char) :
    Whitespace.Tight (Rendering.hashed i ++ t) ∧ NoApplicationWord (Rendering.hashed i ++ t) ∧
      NoLongerForm (Rendering.hashed i ++ t) := by
  cases h with
  | mk hkind _ =>
    rw [Rendering.hashed, List.append_assoc]
    exact importKind_start hkind _

theorem eq_of_mode {i : Import String} (h : i.mode = .code) :
    Import.mk i.kind i.hash .code = i := by
  cases i with
  | mk kind hash mode =>
    cases h
    rfl

mutual

/-- Where an import comes from is read back. -/
theorem read_importKind : ∀ {kind : ImportKind String}, kind.WellFormed .readable →
    ∀ {t : List Char}, EndsKind t →
      Rule.importType.read (Rendering.importKind kind ++ t) = .value kind t
  | .missing, _, t, ht => read_missing ht.head
  | .path a components, .path hne hcomponents, t, ht => by
    have hlocal := read_localImport (a := a) hne hcomponents ht.head
    have hhead : (Rendering.anchor a ++ (components.flatMap Rendering.component ++ t)).head?.any
        "m".toList.contains = false := by
      obtain ⟨s, rest, rfl⟩ := List.exists_cons_of_ne_nil hne
      rw [List.flatMap_cons]
      unfold Rendering.component
      cases a <;> split <;> rfl
    rw [Rendering.importKind, List.append_assoc, read_importType hhead, hlocal,
      Reading.orElse_value]
  | .url u, .url hu, t, ht => by
    have hmisses := Rule.read_of_head (address_head u t)
    have hhead : (Rendering.address u ++ t).head?.any "m".toList.contains = false := by
      rw [address_head]
      rfl
    have hnone : (optional? usingClause).read t = .value none t := by
      simp only [readBy_optional?, ht.noUsing, Reading.bind_mismatch, Reading.orElse_mismatch]
    rw [Rendering.importKind, read_importType hhead, hmisses .localImport rfl,
      read_httpImport hu ht.head, hnone]
    rfl
  | .urlUsing u headers, .urlUsing hu hheaders hmode, t, ht => by
    have hshape : Rendering.importKind (.urlUsing u headers) ++ t = Rendering.address u ++
        (word " using ( " ++ (Rendering.hashed headers ++ ' ' :: ')' :: t)) := by
      simp only [Rendering.importKind, List.append_assoc]
      rfl
    have hhead : ∀ r, (Rendering.address u ++ r).head?.any "m".toList.contains = false := by
      intro r
      rw [address_head]
      rfl
    have hheaders' : Rule.importHashed.read (Rendering.hashed headers ++ ' ' :: ')' :: t) =
        .value headers (' ' :: ')' :: t) := by
      rw [read_hashed hheaders (closes_parenthesis t).endsHashed, eq_of_mode hmode]
    have husing : (optional? usingClause).read
        (word " using ( " ++ (Rendering.hashed headers ++ ' ' :: ')' :: t)) =
          .value (some headers) t := by
      simp only [readBy_optional?,
        read_usingClause (fun r => (hashed_start hheaders r).1) hheaders', Reading.bind_value,
        Reading.orElse_value]
    have hclause : HeadIn [' ']
        (word " using ( " ++ (Rendering.hashed headers ++ ' ' :: ')' :: t)) := by
      rintro c ⟨⟩
      decide
    rw [hshape, read_importType (hhead _),
      Rule.read_of_head (address_head u _) .localImport rfl, read_httpImport hu hclause, husing]
    rfl
  | .env name, .env hname, t, ht => by
    have hshape : Rendering.importKind (.env name) ++ t =
        word "env:\"" ++ (name.toList.flatMap Rendering.nameChar ++ '"' :: t) := by
      simp only [Rendering.importKind, List.append_assoc, List.singleton_append]
    rw [hshape, read_importType rfl, Rule.read_of_head rfl .localImport rfl,
      Rule.read_of_head rfl .httpImport rfl, read_envImport hname]
    rfl

/-- An import is read back up to its mode. -/
theorem read_hashed : ∀ {i : Import String}, i.WellFormed .readable →
    ∀ {t : List Char}, EndsHashed t →
      Rule.importHashed.read (Rendering.hashed i ++ t) = .value (.mk i.kind i.hash .code) t
  | .mk kind h mode, .mk hkind hhash, t, ht => by
    rw [Rendering.hashed, List.append_assoc]
    exact read_importHashed hhash ht (read_importKind hkind (endsKind_hash h ht))

end

/-- The mode of an import, if one is written. -/
theorem read_mode (m : ImportMode) {t : List Char} (ht : Closes t) :
    (optional? (do whitespace; keyword "as"; whitespace1; importMode)).read
      (Rendering.mode m ++ t) = .value (if m = .code then none else some m) t := by
  have hword : ∀ w ∈ ["Text", "Location"], (keyword w).read (word w ++ t) = .value () t := by
    intro w hw
    have hcontinue : ∀ w ∈ ["Text", "Location"], w.toList.all labelContinue = true := by
      decide
    obtain ⟨hfirst, hbehind⟩ := wordOf_append (hcontinue w hw) (ht.headIn.any (by decide))
    refine (readBy_keyword_word w (hcontinue w hw) _).trans ?_
    rw [Rendering.word, hfirst, hbehind, if_pos rfl]
  have hspace : ∀ r, whitespace.read (' ' :: 'a' :: r) = .value () ('a' :: r) := fun _ => rfl
  have has : ∀ r, (keyword "as").read ('a' :: 's' :: ' ' :: r) = .value () (' ' :: r) :=
    fun _ => rfl
  cases m with
  | code =>
    obtain ⟨u, hspace, hnone⟩ :=
      read_keyword_of_closes ht (by decide : "as".toList.head?.any labelStart = true)
    simp only [Rendering.mode, List.nil_append, readBy_optional?, readBy_bind, hspace,
      Reading.bind_value, hnone, Reading.bind_mismatch, Reading.orElse_mismatch, if_true]
  | rawText =>
    have hshape : Rendering.mode .rawText ++ t = ' ' :: 'a' :: 's' :: ' ' :: (word "Text" ++ t) :=
      rfl
    have hspace1 : whitespace1.read (' ' :: (word "Text" ++ t)) = .value () (word "Text" ++ t) :=
      rfl
    have hmode : importMode.read (word "Text" ++ t) = .value .rawText t := by
      have htext := hword "Text" (by decide)
      simp only [importMode, ImportMode.word, readBy_choice_cons, readBy_bind, htext,
        Reading.bind_value, readBy_pure, Reading.orElse_value]
    rw [hshape]
    simp only [readBy_optional?, readBy_bind, hspace, has, hspace1, hmode, Reading.bind_value,
      Reading.orElse_value]
    rfl
  | location =>
    have hshape : Rendering.mode .location ++ t =
        ' ' :: 'a' :: 's' :: ' ' :: (word "Location" ++ t) := rfl
    have hspace1 : whitespace1.read (' ' :: (word "Location" ++ t)) =
        .value () (word "Location" ++ t) := rfl
    have hmode : importMode.read (word "Location" ++ t) = .value .location t := by
      have htext : (keyword "Text").read (word "Location" ++ t) = .mismatch := rfl
      have hlocation := hword "Location" (by decide)
      simp only [importMode, ImportMode.word, readBy_choice_cons, readBy_bind, htext, hlocation,
        Reading.bind_value, Reading.bind_mismatch, readBy_pure, Reading.orElse_mismatch,
        Reading.orElse_value]
    rw [hshape]
    simp only [readBy_optional?, readBy_bind, hspace, has, hspace1, hmode, Reading.bind_value,
      Reading.orElse_value]
    rfl

theorem writes_embedded {i : Import String} (h : i.WellFormed .readable) :
    Writes (Rendering.hashed i ++ Rendering.mode i.mode) (.embedded i) where
  tight t := by
    rw [List.append_assoc]
    exact (hashed_start h _).1
  read t ht := by
    rw [List.append_assoc]
    have hhashed : (call .importHashed).read
        (Rendering.hashed i ++ (Rendering.mode i.mode ++ t)) =
          .value (.mk i.kind i.hash .code) (Rendering.mode i.mode ++ t) :=
      read_hashed h (endsHashed_mode i.mode ht)
    have hclause : Rule.importClause.read (Rendering.hashed i ++ (Rendering.mode i.mode ++ t)) =
        .value i t := by
      have hmode := read_mode i.mode ht
      rw [Rule.read_eq]
      simp only [Rule.body, importClause, readBy_bind, hhashed, Reading.bind_value]
      refine (congrArg (Reading.bind · _) hmode).trans ?_
      obtain ⟨kind, hash, mode⟩ := i
      cases mode <;> rfl
    obtain ⟨-, hword, hform⟩ := hashed_start h (Rendering.mode i.mode ++ t)
    have hends := ht.ends.operation
    exact read_expression_operator hform (read_operatorExpression (read_applicationExpression
      (read_firstApplicationExpression hword (read_importExpression_import hclause))
      hends.application) hends) ht.ends

end DhallSyntax
