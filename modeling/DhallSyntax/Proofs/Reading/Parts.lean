import DhallSyntax.Proofs.Reading.Basic

/-!
How the parts that grammars are made of read a text: one equation for each of them. Whitespace,
literals and runs of characters are read by looking at the text alone; a repetition reads what its
steps read one after the other (`Reading.Iterates.eq`).
-/

namespace DhallSyntax

variable {α β σ : Type}

namespace Reading

@[simp] theorem bind_value (b : β) (t : List Char) (next : β → List Char → Reading α) :
    (value b t).bind next = next b t := rfl

@[simp] theorem bind_mismatch (next : β → List Char → Reading α) :
    (mismatch : Reading β).bind next = mismatch := rfl

@[simp] theorem bind_abort (fault : Fault) (next : β → List Char → Reading α) :
    (abort fault : Reading β).bind next = abort fault := rfl

@[simp] theorem orElse_value (a : α) (t : List Char) (r : Reading α) :
    (value a t).orElse r = value a t := rfl

@[simp] theorem orElse_mismatch (r : Reading α) : mismatch.orElse r = r := rfl

@[simp] theorem orElse_abort (fault : Fault) (r : Reading α) :
    (abort fault).orElse r = abort fault := rfl

theorem bind_eq_value {r : Reading β} {next : β → List Char → Reading α} {a : α} {t : List Char} :
    r.bind next = value a t ↔ ∃ b u, r = value b u ∧ next b u = value a t := by
  cases r <;> simp [and_assoc]

theorem bind_eq_mismatch {r : Reading β} {next : β → List Char → Reading α} :
    r.bind next = mismatch ↔ r = mismatch ∨ ∃ b u, r = value b u ∧ next b u = mismatch := by
  cases r <;> simp [and_assoc]

theorem bind_eq_abort {r : Reading β} {next : β → List Char → Reading α} {fault : Fault} :
    r.bind next = abort fault ↔
      r = abort fault ∨ ∃ b u, r = value b u ∧ next b u = abort fault := by
  cases r <;> simp [and_assoc]

theorem bind_assoc {γ : Type} (r : Reading γ) (f : γ → List Char → Reading β)
    (g : β → List Char → Reading α) :
    (r.bind f).bind g = r.bind fun c t => (f c t).bind g := by
  cases r <;> rfl

theorem orElse_eq_value {r q : Reading α} {a : α} {t : List Char} :
    r.orElse q = value a t ↔ r = value a t ∨ r = mismatch ∧ q = value a t := by
  cases r <;> simp

theorem orElse_eq_mismatch {r q : Reading α} :
    r.orElse q = mismatch ↔ r = mismatch ∧ q = mismatch := by
  cases r <;> simp

theorem orElse_eq_abort {r q : Reading α} {fault : Fault} :
    r.orElse q = abort fault ↔ r = abort fault ∨ r = mismatch ∧ q = abort fault := by
  cases r <;> simp

/-- What holds where the last step is taken, and in front of a step if it holds behind it, holds
where a repetition begins that ends with a value. -/
theorem iterateWithin_induction {step : σ → List Char → Reading (σ ⊕ α)} {a : α} {t : List Char}
    {P : σ → List Char → Prop}
    (last : ∀ state s, step state s = value (.inr a) t → P state s)
    (next : ∀ state s state' s', step state s = value (.inl state') s' → P state' s' → P state s)
    {bound : List Char} {state : σ} {s : List Char}
    (h : iterateWithin step bound state s = value a t) : P state s := by
  induction bound generalizing state s with
  | nil =>
    unfold iterateWithin at h
    obtain ⟨x, u, hstep, h⟩ := bind_eq_value.mp h
    cases x with
    | inl state' => cases h
    | inr b => cases h; exact last state s hstep
  | cons _ bound ih =>
    unfold iterateWithin at h
    obtain ⟨x, u, hstep, h⟩ := bind_eq_value.mp h
    cases x with
    | inl state' => exact next state s state' u hstep (ih h)
    | inr b => cases h; exact last state s hstep

/-- Steps that take some of the text each, up to one that ends the repetition. -/
inductive Iterates (step : σ → List Char → Reading (σ ⊕ α)) :
    σ → List Char → Reading α → Prop where
  | last {state s a t} : step state s = .value (.inr a) t → Iterates step state s (.value a t)
  | none {state s} : step state s = .mismatch → Iterates step state s .mismatch
  | next {state s state' s' r} : step state s = .value (.inl state') s' →
      s'.length < s.length → Iterates step state' s' r → Iterates step state s r

theorem Iterates.iterateWithin_eq {step : σ → List Char → Reading (σ ⊕ α)} {state : σ}
    {s : List Char} {r : Reading α} (h : Iterates step state s r) {bound : List Char}
    (hb : s.length ≤ bound.length) : iterateWithin step bound state s = r := by
  induction h generalizing bound with
  | last h => unfold iterateWithin; rw [h]; rfl
  | none h => unfold iterateWithin; rw [h]; rfl
  | next h hlt _ ih =>
    unfold iterateWithin
    rw [h]
    cases bound with
    | nil => simp only [List.length_nil] at hb; omega
    | cons c bound => exact ih (by simp only [List.length_cons] at hb; omega)

end Reading

open Reading (Iterates)

namespace Grammar

/-! ## Terms -/

variable {rules : RuleReader}

@[simp] theorem readBy_bind (first : Grammar β) (next : β → Grammar α) (s : List Char) :
    (first >>= next).readBy rules s =
      (first.readBy rules s).bind fun b t => (next b).readBy rules t := rfl

@[simp] theorem readBy_pure (a : α) (s : List Char) :
    (Pure.pure a : Grammar α).readBy rules s = .value a s := rfl

@[simp] theorem readBy_look (view : List Char → α) (s : List Char) :
    (look view).readBy rules s = .value (view s) s := rfl

@[simp] theorem readBy_advance (count : Nat) (s : List Char) :
    (advance count).readBy rules s = .value () (s.drop count) := rfl

@[simp] theorem readBy_fail (expectation : String) (s : List Char) :
    (fail expectation : Grammar α).readBy rules s = .mismatch := rfl

@[simp] theorem readBy_mismatch (s : List Char) :
    (mismatch : Grammar α).readBy rules s = .mismatch := rfl

@[simp] theorem readBy_abort (fault : Fault) (back : Nat) (s : List Char) :
    (abort fault back : Grammar α).readBy rules s = .abort fault := rfl

@[simp] theorem readBy_orElse (first second : Grammar α) (s : List Char) :
    (orElse first second).readBy rules s =
      (first.readBy rules s).orElse (second.readBy rules s) := rfl

@[simp] theorem readBy_nested (body : Grammar α) (s : List Char) :
    (nested body).readBy rules s = body.readBy rules s := rfl

theorem readBy_ite (p : Prop) [Decidable p] (g h : Grammar α) (s : List Char) :
    (if p then g else h).readBy rules s = if p then g.readBy rules s else h.readBy rules s :=
  apply_ite (fun g : Grammar α => g.readBy rules s) p g h

theorem readBy_call (rule : Rule) (s : List Char) :
    @Grammar.readBy rules rule.Result (call rule) s = rules rule s := rfl

theorem readBy_iterate {state : σ} {step : σ → Grammar (σ ⊕ α)} {r : Reading α}
    (h : Iterates (fun state s => (step state).readBy rules s) state s r) :
    (iterate state step).readBy rules s = r :=
  h.iterateWithin_eq (Nat.le_refl _)

/-! ## Literals -/

theorem readBy_accept (literal : String) (s : List Char) :
    (accept literal).readBy rules s =
      if literal.toList.isPrefixOf s then .value true (s.drop literal.toList.length)
      else .value false s := by
  rw [String.length_toList]
  rfl

theorem readBy_accept_of_not {literal : String} {s : List Char} (h : ¬ literal.toList <+: s) :
    (accept literal).readBy rules s = .value false s := by
  rw [readBy_accept, if_neg fun hp => h (List.isPrefixOf_iff_prefix.mp hp)]

/-- Behind a literal that is taken where it is next, the text goes on after it or as it is. -/
theorem readBy_accept_eq_value {literal : String} {next : Bool → Grammar α} {s t : List Char}
    {a : α} (h : (accept literal >>= next).readBy rules s = .value a t) :
    (∃ u, s = literal.toList ++ u ∧ (next true).readBy rules u = .value a t) ∨
      ¬ literal.toList <+: s ∧ (next false).readBy rules s = .value a t := by
  rw [readBy_bind, readBy_accept] at h
  split at h
  · rename_i hp
    obtain ⟨u, rfl⟩ := List.isPrefixOf_iff_prefix.mp hp
    rw [List.drop_left] at h
    exact .inl ⟨u, rfl, h⟩
  · rename_i hp
    exact .inr ⟨fun hprefix => hp (List.isPrefixOf_iff_prefix.mpr hprefix), h⟩

theorem readBy_acceptAny_cons (literal : String) (literals : List String) (s : List Char) :
    (acceptAny (literal :: literals)).readBy rules s =
      if literal.toList.isPrefixOf s then .value (some literal) (s.drop literal.toList.length)
      else (acceptAny literals).readBy rules s := by
  simp only [acceptAny, readBy_bind, readBy_accept]
  split <;> rfl

theorem readBy_expectAny_cons (literal : String) (literals : List String) (s : List Char) :
    (expectAny (literal :: literals)).readBy rules s =
      if literal.toList.isPrefixOf s then .value literal (s.drop literal.toList.length)
      else (expectAny literals).readBy rules s := by
  simp only [expectAny, readBy_bind, readBy_acceptAny_cons]
  split
  · rfl
  · cases (acceptAny literals).readBy rules s with
    | value literal? t => cases literal? <;> rfl
    | _ => rfl

@[simp] theorem readBy_expectAny_nil (s : List Char) :
    (expectAny []).readBy rules s = .mismatch := rfl

theorem readBy_expect (literal : String) (s : List Char) :
    (expect literal).readBy rules s =
      if literal.toList.isPrefixOf s then .value () (s.drop literal.toList.length)
      else .mismatch := by
  rw [expect, readBy_bind, readBy_expectAny_cons]
  split <;> rfl

/-- A keyword is a word with nothing behind it that would make it a longer label. -/
theorem readBy_keyword (word : String) (s : List Char) :
    (keyword word).readBy rules s =
      if word.toList.isPrefixOf s &&
          !(s.drop word.toList.length).head?.any CharClass.labelContinue then
        .value () (s.drop word.toList.length)
      else .mismatch := by
  simp only [keyword, readBy_bind, readBy_look, Reading.bind_value, ← String.length_toList]
  cases (s.drop word.toList.length).head?.any CharClass.labelContinue with
  | true => simp
  | false =>
    simp only [Bool.false_eq_true, if_false, readBy_bind, readBy_accept]
    cases word.toList.isPrefixOf s <;> simp

/-! ## Runs of characters -/

theorem drop_length_takeWhile (p : Char → Bool) (s : List Char) :
    s.drop (s.takeWhile p).length = s.dropWhile p := by
  induction s with
  | nil => rfl
  | cons c s ih => cases h : p c <;> simp [h, ih]

/-- A run of characters ends where one follows that is of another class. -/
theorem takeWhile_append_stop {p : Char → Bool} {s t : List Char} (h : ∀ c ∈ s, p c = true)
    (ht : t.head?.any p = false) :
    (s ++ t).takeWhile p = s ∧ (s ++ t).dropWhile p = t := by
  have hstop : t.takeWhile p = [] ∧ t.dropWhile p = t := by
    cases t with
    | nil => exact ⟨rfl, rfl⟩
    | cons c t =>
      have hc : ¬ p c = true := by
        intro hp
        exact absurd (ht.symm.trans hp) (by decide)
      exact ⟨List.takeWhile_cons_of_neg hc, List.dropWhile_cons_of_neg hc⟩
  rw [List.takeWhile_append_of_pos h, List.dropWhile_append_of_pos h, hstop.1, hstop.2,
    List.append_nil]
  exact ⟨rfl, rfl⟩

@[simp] theorem readBy_takeWhile (chars : CharClass) (s : List Char) :
    (takeWhile chars).readBy rules s = .value (s.takeWhile chars) (s.dropWhile chars) := by
  simp only [takeWhile, readBy_bind, readBy_look, Reading.bind_value, readBy_advance, readBy_pure,
    drop_length_takeWhile]

@[simp] theorem readBy_takeWhile1 (chars : CharClass) (expected : String) (s : List Char) :
    (takeWhile1 chars expected).readBy rules s =
      if (s.takeWhile chars).isEmpty then .mismatch
      else .value (s.takeWhile chars) (s.dropWhile chars) := by
  simp only [takeWhile1, readBy_bind, readBy_takeWhile, Reading.bind_value]
  split <;> rfl

@[simp] theorem readBy_peek (s : List Char) : peek.readBy rules s = .value s.head? s := rfl

theorem readBy_takeIf_cons (chars : CharClass) (c : Char) (s : List Char) :
    (takeIf chars).readBy rules (c :: s) =
      if chars c then .value (some c) s else .value none (c :: s) := by
  simp only [takeIf, readBy_bind, readBy_peek, Reading.bind_value, List.head?_cons]
  split <;> rfl

@[simp] theorem readBy_takeIf_nil (chars : CharClass) :
    (takeIf chars).readBy rules [] = .value none [] := rfl

theorem readBy_takeLength {length : List Char → Nat} {s t : List Char}
    (h : length (s ++ t) = s.length) :
    (takeLength length).readBy rules (s ++ t) = .value (String.ofList s) t := by
  simp only [takeLength, readBy_bind, readBy_look, Reading.bind_value, h, List.take_left,
    readBy_advance, List.drop_left, readBy_pure]

/-! ## Alternatives -/

theorem readBy_choice_cons (g : Grammar α) (rest : List (Grammar α)) (s : List Char) :
    (choice (g :: rest)).readBy rules s =
      (g.readBy rules s).orElse ((choice rest).readBy rules s) := rfl

@[simp] theorem readBy_choice_nil (s : List Char) :
    (choice [] : Grammar α).readBy rules s = .mismatch := rfl

theorem readBy_optional? (part : Grammar α) (s : List Char) :
    (optional? part).readBy rules s =
      ((part.readBy rules s).bind fun a t => .value (some a) t).orElse (.value none s) := rfl

/-! ## Repetitions -/

/-- One round of a repeated part whose values are folded. -/
def foldStep (part : Grammar α) (f : σ → α → σ) (state : σ) : Grammar (σ ⊕ σ) := do
  match ← optional? part with
  | some value => return .inl (f state value)
  | none => return .inr state

/-- The rounds of a repeated part from a state at a text on. -/
abbrev Folds (rules : RuleReader) (part : Grammar α) (f : σ → α → σ) (state : σ) (s : List Char)
    (r : Reading σ) : Prop :=
  Iterates (fun state s => (foldStep part f state).readBy rules s) state s r

theorem Folds.none {part : Grammar α} (f : σ → α → σ) (state : σ) {s : List Char}
    (h : part.readBy rules s = .mismatch) : Folds rules part f state s (.value state s) := by
  refine .last ?_
  simp only [foldStep, readBy_bind, readBy_optional?, h, Reading.bind_mismatch,
    Reading.orElse_mismatch, Reading.bind_value, readBy_pure]

theorem Folds.some {part : Grammar α} {f : σ → α → σ} {state : σ} {s t : List Char} {a : α}
    {r : Reading σ} (h : part.readBy rules s = .value a t) (ht : t.length < s.length)
    (hr : Folds rules part f (f state a) t r) : Folds rules part f state s r := by
  refine .next ?_ ht hr
  simp only [foldStep, readBy_bind, readBy_optional?, h, Reading.bind_value,
    Reading.orElse_value, readBy_pure]

/-- A round goes on behind the part, or ends where that does not match. -/
theorem foldStep_eq_value {part : Grammar α} {f : σ → α → σ} {state : σ} {s t : List Char}
    {next : σ ⊕ σ} (h : (foldStep part f state).readBy rules s = .value next t) :
    (∃ a, part.readBy rules s = .value a t ∧ next = .inl (f state a)) ∨
      part.readBy rules s = .mismatch ∧ next = .inr state ∧ t = s := by
  simp only [foldStep, readBy_bind, readBy_optional?] at h
  cases hpart : part.readBy rules s with
  | value a u =>
    simp only [hpart, Reading.bind_value, Reading.orElse_value, readBy_pure] at h
    obtain ⟨rfl, rfl⟩ := Reading.value.inj h
    exact .inl ⟨a, rfl, rfl⟩
  | mismatch =>
    simp only [hpart, Reading.bind_mismatch, Reading.orElse_mismatch, Reading.bind_value,
      readBy_pure] at h
    obtain ⟨rfl, rfl⟩ := Reading.value.inj h
    exact .inr ⟨rfl, rfl, rfl⟩
  | abort fault =>
    simp only [hpart, Reading.bind_abort, Reading.orElse_abort] at h
    cases h

theorem readBy_foldMany {part : Grammar α} {f : σ → α → σ} {start : σ} {s : List Char}
    {r : Reading σ} (h : Folds rules part f start s r) :
    (foldMany part f start).readBy rules s = r :=
  readBy_iterate h

theorem readBy_many {part : Grammar α} {s t : List Char} {values : List α}
    (h : Folds rules part (fun values value => value :: values) [] s (.value values t)) :
    (many part).readBy rules s = .value values.reverse t := by
  simp only [many, readBy_bind, readBy_foldMany h, Reading.bind_value, readBy_pure]

end Grammar

end DhallSyntax
