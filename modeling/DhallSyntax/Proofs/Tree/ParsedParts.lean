import DhallSyntax.Proofs.Reading.First
import DhallSyntax.Proofs.Reading.Spelling

/-!
What the leaves of expressions yield: numbers, labels and identifiers, texts and imports are as the
data model says, if that holds of the rules inside them.
-/

namespace DhallSyntax

open CharClass

/-- The names and texts of imports that come out of a source. -/
def ImportModel.parsed : ImportModel where
  component s := s ≠ "" ∧ '/' ∉ s.toList ∧ '"' ∉ s.toList
  address url := ∀ c ∈ url.path, '/' ∉ c.toList ∧ '"' ∉ c.toList
  variableName s := s ≠ "" ∧ '=' ∉ s.toList

/-- The names and texts of imports that are read are as the model says. -/
structure ImportModel.Yielded (M : ImportModel) : Prop where
  component : ∀ rules, Grammar.pathComponent.Yields rules M.component
  address : ∀ rules, urlAddress.Yields rules M.address
  bareName : ∀ rules, Grammar.bashName.Yields rules M.variableName
  quotedName : ∀ rules, (Grammar.iterate [] Grammar.quotedNameStep).Yields rules M.variableName

/-- A definition of a `let` as the data model says. -/
structure Binding.WellFormed (M : ImportModel) (b : Binding String Expr) : Prop where
  name : IsLabel b.name
  annotation : ∀ type, b.annotation = some type → type.WellFormed M
  value : b.value.WellFormed M

/-- What the values of a rule have in common. -/
def Rule.Good (M : ImportModel) : (rule : Rule) → rule.Result → Prop
  | .doubleLiteral, d => Decimal.IsLiteral d
  | .naturalLiteral, _ => True
  | .integerLiteral, _ => True
  | .label, s => IsLabel s
  | .nonreservedLabel, s => IsLabel s
  | .importClause, i => Import.WellFormed M i
  | .importHashed, i => Import.WellFormed M i ∧ Import.mode i = .code
  | .importType, k => ImportKind.WellFormed M k
  | .localImport, k => ImportKind.WellFormed M k
  | .httpImport, k => ImportKind.WellFormed M k
  | .envImport, k => ImportKind.WellFormed M k
  | .letBinding, b => Binding.WellFormed M b
  | .identifier, e => Tree.WellFormed M e
  | .textLiteral, e => Tree.WellFormed M e
  | .doubleQuoteLiteral, e => Tree.WellFormed M e
  | .singleQuoteLiteral, e => Tree.WellFormed M e
  | .expression, e => Tree.WellFormed M e
  | .lambdaExpression, e => Tree.WellFormed M e
  | .ifExpression, e => Tree.WellFormed M e
  | .letExpression, e => Tree.WellFormed M e
  | .forallExpression, e => Tree.WellFormed M e
  | .arrowExpression, e => Tree.WellFormed M e
  | .mergeExpression, e => Tree.WellFormed M e
  | .emptyListExpression, e => Tree.WellFormed M e
  | .toMapExpression, e => Tree.WellFormed M e
  | .annotatedExpression, e => Tree.WellFormed M e
  | .operatorExpression, e => Tree.WellFormed M e
  | .applicationExpression, e => Tree.WellFormed M e
  | .firstApplicationExpression, e => Tree.WellFormed M e
  | .importExpression, e => Tree.WellFormed M e
  | .selectorExpression, e => Tree.WellFormed M e
  | .primitiveExpression, e => Tree.WellFormed M e
  | .recordExpression, e => Tree.WellFormed M e
  | .unionType, e => Tree.WellFormed M e
  | .listLiteral, e => Tree.WellFormed M e

/-- Rules whose values are what the data model says. -/
def RuleReader.Good (rules : RuleReader) (M : ImportModel) : Prop :=
  ∀ rule s a t, rules rule s = .value a t → rule.Good M a

namespace Grammar

variable {rules : RuleReader} {M : ImportModel}

/-! ## Leaves -/

theorem isLiteral_specialDoubles {entry : String × Decimal} (h : entry ∈ specialDoubles) :
    entry.2.IsLiteral := by
  simp only [specialDoubles, List.mem_cons, List.not_mem_nil, or_false] at h
  obtain rfl | rfl | rfl := h
  · trivial
  · trivial
  · exact ⟨rfl, rfl, rfl⟩

theorem yields_decimal (negative : Bool) (whole fraction : List Char) (exponent : Int) :
    (decimal negative whole fraction exponent).Yields rules Decimal.IsLiteral := by
  unfold decimal Decimal.ofParts?
  dsimp only
  split
  · rename_i value h
    split at h
    · cases h
      exact yields_pure trivial
    · cases h
  · exact yields_abort _ _

theorem yields_doubleLiteral : doubleLiteral.Yields rules Decimal.IsLiteral := by
  refine .bind (Q := fun entry? => ∀ entry, entry? = some entry → entry ∈ specialDoubles)
    (yields_look fun s entry => List.mem_of_find?_eq_some) fun entry? hentry => ?_
  cases entry? with
  | some entry => exact .behind fun _ => yields_pure (isLiteral_specialDoubles (hentry entry rfl))
  | none =>
    refine .behind fun negative => .behind fun whole => .behind fun point => ?_
    split
    · exact .behind fun fraction => .behind fun exponent => yields_decimal _ _ _ _
    · exact .behind fun exponent => yields_decimal _ _ _ _

theorem isLabel_ofList {s : List Char} (h : ∀ c ∈ s, CharClass.quotedLabel c = true) :
    IsLabel (String.ofList s) := by
  rwa [IsLabel, String.toList_ofList]

theorem yields_bareLabel : bareLabel.Yields rules IsLabel := by
  intro s a t h
  rw [readBy_bareLabel] at h
  split at h
  · cases h
    exact isLabel_ofList fun c hc => quotedLabel_of_labelContinue (mem_takeWhile hc)
  · cases h

theorem yields_labelExcept (excluded : String → Bool) (expected : String) :
    (labelExcept excluded expected).Yields rules IsLabel := by
  refine .behind fun c? => ?_
  split
  · exact .behind fun _ => .bind (yields_takeWhile _) fun _ hrun => .behind fun _ =>
      yields_pure (isLabel_ofList hrun)
  · refine .behind fun word => .behind fun startsLabel => ?_
    split
    · exact yields_fail _
    · exact yields_bareLabel

theorem yields_builtin : builtin.Yields rules (Tree.WellFormed M) := by
  intro s e t h
  simp only [builtin, readBy_bind, readBy_look, Reading.bind_value] at h
  split at h
  · cases h
  · rename_i hword
    simp only [readBy_bind, readBy_bareLabel] at h
    split at h
    · rename_i hstart
      cases h
      simp only [hstart, Bool.true_and, Bool.not_eq_true', Bool.not_eq_false] at hword
      exact .builtin (List.contains_iff_mem.mp hword)
    · cases h

theorem yields_identifier (hg : rules.Good M) : identifier.Yields rules (Tree.WellFormed M) := by
  refine .bind (yields_call (hg .nonreservedLabel)).optional? fun name? hname => ?_
  cases name? with
  | none => exact yields_builtin
  | some name =>
    exact .behind fun index =>
      yields_pure (.variable (hname name rfl) (Int.natCast_nonneg _))

/-! ## Text -/

/-- A text under construction whose interpolated expressions are well formed. -/
def TextDraft.Good (M : ImportModel) (draft : TextDraft) : Prop :=
  ∀ chunk ∈ draft.chunks, chunk.2.WellFormed M

namespace TextDraft

theorem Good.build {draft : TextDraft} (h : draft.Good M) : draft.build.WellFormed M :=
  .text (fun _ _ => isScalarText _) (fun chunk hc => h chunk (List.mem_reverse.mp hc))
    (isScalarText _)

theorem Good.interpolate {draft : TextDraft} (h : draft.Good M) {e : Expr}
    (he : e.WellFormed M) : (draft.interpolate e).Good M :=
  List.forall_mem_cons.mpr ⟨he, h⟩

theorem good_empty : empty.Good M := fun _ h => nomatch h

end TextDraft

theorem yields_completeExpression (hg : rules.Good M) :
    completeExpression.Yields rules (Tree.WellFormed M) :=
  .behind fun _ => .bind (yields_call (hg .expression)) fun _ he => .behind fun _ => yields_pure he

theorem yields_interpolation (hg : rules.Good M) {draft : TextDraft} (h : draft.Good M) :
    (interpolation draft).Yields rules (TextDraft.Good M) :=
  .bind (yields_completeExpression hg) fun _ he => .behind fun _ => yields_pure (h.interpolate he)

/-- The character of an escape has the code point that was asked for: no other takes its place. -/
theorem yields_scalar (code length : Nat) :
    (scalar code length).Yields rules fun c => c.toNat = code := by
  unfold scalar
  split
  · exact yields_abort _ _
  · rename_i h
    simp only [Bool.or_eq_true, Bool.and_eq_true, decide_eq_true_eq, not_or] at h
    have hvalid : code < 0xd800 ∨ 0xdfff < code ∧ code < 0x110000 := by omega
    refine yields_pure ?_
    rw [Char.ofNat, dif_pos hvalid]
    rfl

theorem yields_doubleQuoteStep (hg : rules.Good M) (draft : TextDraft) (h : draft.Good M) :
    (doubleQuoteStep draft).Yields rules (Sum.elim (TextDraft.Good M) (Tree.WellFormed M)) := by
  refine .behind fun quote => ?_
  split
  · exact yields_pure h.build
  refine .behind fun mark => ?_
  split
  · exact .bind (yields_interpolation hg h) fun draft hd => yields_pure hd
  refine .behind fun backslash => ?_
  split
  · exact .behind fun c => yields_pure h
  refine .behind fun c? => ?_
  cases c? with
  | some c => exact yields_pure h
  | none => exact yields_fail _

theorem yields_singleQuoteStep (hg : rules.Good M) (draft : TextDraft) (h : draft.Good M) :
    (singleQuoteStep draft).Yields rules (Sum.elim (TextDraft.Good M) (Tree.WellFormed M)) := by
  refine .behind fun mark => ?_
  split
  · exact .bind (yields_interpolation hg h) fun draft hd => yields_pure hd
  refine .behind fun threeQuotes => ?_
  split
  · exact yields_pure h
  refine .behind fun plainMark => ?_
  split
  · exact yields_pure h
  refine .behind fun twoQuotes => ?_
  split
  · exact yields_pure h.build
  refine .behind fun lineEnding => ?_
  split
  · exact yields_pure h
  refine .behind fun c? => ?_
  cases c? with
  | some c => exact yields_pure h
  | none => exact yields_fail _

/-! ## Imports -/

theorem yields_localImport (hM : M.Yielded) : localImport.Yields rules (ImportKind.WellFormed M) :=
  .behind fun _ => .bind (hM.component rules) fun _ hfirst =>
    .bind (hM.component rules).many fun _ hrest =>
      yields_pure (.path (List.cons_ne_nil _ _) (List.forall_mem_cons.mpr ⟨hfirst, hrest⟩))

theorem yields_usingClause (hg : rules.Good M) :
    usingClause.Yields rules fun headers => headers.WellFormed M ∧ headers.mode = .code := by
  refine .behind fun _ => .behind fun _ => .behind fun _ => .behind fun parenthesis => ?_
  split
  · exact .behind fun _ => .bind (yields_call (hg .importHashed)) fun _ h =>
      .behind fun _ => .behind fun _ => yields_pure h
  · exact yields_call (hg .importHashed)

theorem yields_httpImport (hM : M.Yielded) (hg : rules.Good M) :
    httpImport.Yields rules (ImportKind.WellFormed M) := by
  intro s kind t h
  rw [readBy_httpImport] at h
  obtain ⟨u, v, hurl, hbehind⟩ := Reading.bind_eq_value.mp h
  obtain ⟨headers?, w, hheaders, hvalue⟩ := Reading.bind_eq_value.mp hbehind
  obtain ⟨rfl, rfl⟩ := Reading.value.inj hvalue
  have haddress := hM.address rules s u v hurl
  cases headers? with
  | none => exact .url haddress
  | some headers =>
    obtain ⟨hh, hmode⟩ := (yields_usingClause hg).optional? v _ w hheaders headers rfl
    exact .urlUsing haddress hh hmode

theorem yields_envImport (hM : M.Yielded) : envImport.Yields rules (ImportKind.WellFormed M) := by
  refine .behind fun _ => .behind fun quote => ?_
  split
  · exact .bind (hM.quotedName rules) fun _ h => yields_pure (.env h)
  · exact .bind (hM.bareName rules) fun _ h => yields_pure (.env h)

theorem yields_pathComponent : pathComponent.Yields rules ImportModel.readable.component := by
  intro s a t h
  obtain ⟨part, hvalid, rfl, hne, -⟩ := exists_part_of_component h
  exact ⟨hne, (PathPart.Spell.mk rfl (List.forall_mem_singleton.mpr hvalid)).quotedPathChar _
    List.mem_cons_self⟩

/-- A name of characters each of which may be written, as it is or with an escape. -/
theorem variableName_ofList {s : List Char} (hs : s ≠ [])
    (h : ∀ c ∈ s, environmentChar c = true ∨ ∃ letter, (letter, c) ∈ EscapeTable.environment) :
    ImportModel.readable.variableName (String.ofList s) :=
  ⟨mt String.ofList_eq_empty_iff.mp hs, by rwa [String.toList_ofList]⟩

theorem environmentChar_of_bare {c : Char} (h : (alphanumeric c || c == '_') = true) :
    environmentChar c = true := by
  simp only [alphanumeric, Bool.or_eq_true, alpha_iff, digit_iff, beq_iff_eq, ← Char.toNat_inj,
    Char.reduceToNat] at h
  simp only [environmentChar, Bool.and_eq_true, printableAscii_iff, bne_iff_ne, ne_eq,
    ← Char.toNat_inj, Char.reduceToNat]
  omega

theorem yields_bashName : bashName.Yields rules ImportModel.readable.variableName := by
  intro s a t h
  cases s with
  | nil => cases h
  | cons c s =>
    simp only [bashName, readBy_bind, readBy_peek, Reading.bind_value, List.head?_cons,
      readBy_ite, readBy_takeWhile, readBy_pure, readBy_fail] at h
    split at h
    · rename_i hc
      cases h
      refine variableName_ofList ?_ fun d hd => .inl (environmentChar_of_bare (mem_takeWhile hd))
      rw [List.takeWhile_cons_of_pos]
      · exact List.cons_ne_nil _ _
      · simp only [Bool.or_eq_true] at hc ⊢
        exact hc.imp_left fun hc => by simp [alphanumeric, hc]
    · cases h

theorem yields_quotedNameStep (name : List Char)
    (h : ∀ c ∈ name, environmentChar c = true ∨ ∃ letter, (letter, c) ∈ EscapeTable.environment) :
    (quotedNameStep name).Yields rules
      (Sum.elim (fun name => ∀ c ∈ name,
        environmentChar c = true ∨ ∃ letter, (letter, c) ∈ EscapeTable.environment)
        ImportModel.readable.variableName) := by
  refine .behind fun quote => ?_
  split
  · rename_i hend
    simp only [Bool.and_eq_true, Bool.not_eq_true', List.isEmpty_eq_false_iff] at hend
    refine .behind fun _ => yields_pure (variableName_ofList ?_ fun c hc => ?_)
    · simpa using hend.2
    · exact h c (List.mem_reverse.mp hc)
  refine .behind fun backslash => ?_
  split
  · refine .behind fun c? => ?_
    cases hc : c?.bind fun c => EscapeTable.environment.lookup c with
    | some meaning =>
      obtain ⟨c, -, hc⟩ := Option.bind_eq_some_iff.mp hc
      obtain ⟨before, after, he, -⟩ := List.lookup_eq_some_iff.mp hc
      have hentry : (c, meaning) ∈ EscapeTable.environment :=
        he ▸ List.mem_append_right before List.mem_cons_self
      exact .behind fun _ => yields_pure (List.forall_mem_cons.mpr ⟨.inr ⟨c, hentry⟩, h⟩)
    | none => exact yields_fail _
  · refine .bind (yields_takeIf environmentChar) fun c? hc => ?_
    cases c? with
    | some c => exact yields_pure (List.forall_mem_cons.mpr ⟨.inl (hc c rfl), h⟩)
    | none => exact yields_fail _

end Grammar

/-- What comes out of a source can be written. -/
theorem ImportModel.Yielded.readable : ImportModel.readable.Yielded where
  component _ := Grammar.yields_pathComponent
  address _ _ _ _ h := (spelled_of_read h).1
  bareName _ := Grammar.yields_bashName
  quotedName _ := .iterate (fun name => ∀ c ∈ name, Grammar.environmentChar c = true ∨
    ∃ letter, (letter, c) ∈ EscapeTable.environment) (List.forall_mem_nil _)
    Grammar.yields_quotedNameStep

theorem ImportModel.Yielded.parsed : ImportModel.parsed.Yielded := by
  have hpath : ∀ {s : String}, (∀ c ∈ s.toList, Grammar.quotedPathChar c = true) →
      '/' ∉ s.toList ∧ '"' ∉ s.toList := by
    intro s h
    exact ⟨fun hc => absurd (h _ hc) (by decide), fun hc => absurd (h _ hc) (by decide)⟩
  have hname : ∀ {s : String}, ImportModel.readable.variableName s →
      ImportModel.parsed.variableName s := by
    intro s ⟨hne, h⟩
    have hescape : ∀ entry ∈ EscapeTable.environment, entry.2 ≠ '=' := by decide
    refine ⟨hne, fun hc => ?_⟩
    obtain hplain | ⟨letter, hentry⟩ := h _ hc
    · exact absurd hplain (by decide)
    · exact hescape _ hentry rfl
  have hreadable := ImportModel.Yielded.readable
  exact ⟨fun rules => (hreadable.component rules).imp fun _ h => ⟨h.1, hpath h.2⟩,
    fun rules => (hreadable.address rules).imp fun _ h c hc => hpath (h.2.2.2.1 c hc),
    fun rules => (hreadable.bareName rules).imp fun _ => hname,
    fun rules => (hreadable.quotedName rules).imp fun _ => hname⟩

namespace Grammar

theorem length_bytesOf (s : List Char) : (bytesOf s).length = s.length / 2 := by
  fun_induction bytesOf s with
  | case1 a b rest ih =>
    simp only [List.length_cons, ih]
    omega
  | case2 s h =>
    match s with
    | [] => rfl
    | [c] => simp
    | a :: b :: rest => exact absurd rfl (h a b rest)

theorem yields_integrityHash :
    integrityHash.Yields rules fun digest => digest.length = digestLength := by
  refine .behind fun annotation => ?_
  split
  · exact yields_fail _
  · refine .behind fun _ => .behind fun run => ?_
    split
    · rename_i h
      refine yields_pure ?_
      rw [length_bytesOf, beq_iff_eq.mp h]
      rfl
    · exact yields_abort _ _

theorem yields_importType (hg : rules.Good M) :
    importType.Yields rules (ImportKind.WellFormed M) := by
  refine .choice (List.forall_mem_cons.mpr ⟨.behind fun _ => yields_pure .missing, ?_⟩)
  simp only [List.forall_mem_cons]
  exact ⟨yields_call (hg .localImport), yields_call (hg .httpImport),
    yields_call (hg .envImport), fun _ h => nomatch h⟩

theorem yields_importHashed (hg : rules.Good M) :
    importHashed.Yields rules fun i => i.WellFormed M ∧ i.mode = .code :=
  .bind (yields_call (hg .importType)) fun _ hkind =>
    .bind (Yields.optional? (.behind fun _ => yields_integrityHash)) fun _ hhash =>
      yields_pure ⟨.mk hkind hhash, rfl⟩

theorem yields_importClause (hg : rules.Good M) :
    importClause.Yields rules (Import.WellFormed M) := by
  refine .bind (yields_call (hg .importHashed)) fun i hi => .behind fun mode => yields_pure ?_
  obtain ⟨⟨hkind, hhash⟩, -⟩ := hi
  exact .mk hkind hhash

end Grammar

end DhallSyntax
