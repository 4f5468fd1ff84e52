import DhallSyntax.Proofs.Grammar.Faults
import DhallSyntax.Proofs.Reading.Overflow

/-!
Grammars in which some faults backtrack: they do not match instead of ending the parse. Main
statements:

* `Grammar.soft_of_read`: what is read without a fault is read the same way;
* `Grammar.read_of_soft`: what is read with backtracking is read without, unless that ends with a
  fault.
-/

namespace DhallSyntax

variable {α β σ : Type} {soft : Fault → Bool}

/-- A part of a grammar in which some faults backtrack. -/
def Grammar.soften (soft : Fault → Bool) {α : Type} : Grammar α → Grammar α
  | .pure a => .pure a
  | .bind first next => .bind (first.soften soft) fun b => (next b).soften soft
  | .look view => .look view
  | .accept literal => .accept literal
  | .advance count => .advance count
  | .fail expectation => .fail expectation
  | .mismatch => .mismatch
  | .abort fault back => if soft fault then .mismatch else .abort fault back
  | .orElse first second => .orElse (first.soften soft) (second.soften soft)
  | .call rule => .call rule
  | .nested body => .nested (body.soften soft)
  | .iterate state step => .iterate state fun state => (step state).soften soft

/-- What rules make of a text that are inside at most `stack` others, if some faults backtrack. -/
def Rule.softUpTo (soft : Fault → Bool) : (stack : Nat) → RuleReader
  | 0, _, _ => .abort .stackExhausted
  | stack + 1, rule, s => (rule.body.soften soft).readBy (softUpTo soft stack) s

/-- What a part of a grammar makes of a text, if some faults backtrack. -/
abbrev Grammar.softly (soft : Fault → Bool) (n : Nat) (g : Grammar α) (s : List Char) :
    Reading α :=
  (g.soften soft).readBy (Rule.softUpTo soft n) s

namespace Grammar

/-- A part that reports none of the faults itself stays as it is. -/
theorem soften_eq_self {g : Grammar α} (h : g.AbortsOnly fun fault => soft fault = false) :
    g.soften soft = g := by
  induction g with
  | bind first next ihf ihn => rw [soften, ihf h.1, funext fun b => ihn b (h.2 b)]
  | orElse first second ihf ihs => rw [soften, ihf h.1, ihs h.2]
  | nested body ih => rw [soften, ih h.2]
  | iterate state step ih => rw [soften, funext fun state => ih state (h state)]
  | abort fault back => rw [soften, h fault rfl, if_neg Bool.false_ne_true]
  | _ => rfl

theorem soften_none (g : Grammar α) : (g.soften fun _ => false) = g := by
  refine soften_eq_self ?_
  induction g with
  | bind first next ihf ihn => exact ⟨ihf, ihn⟩
  | orElse first second ihf ihs => exact ⟨ihf, ihs⟩
  | call rule => exact fun _ _ => rfl
  | nested body ih => exact ⟨fun _ _ => rfl, ih⟩
  | iterate state step ih => exact ih
  | abort fault back => exact fun _ _ => rfl
  | _ => trivial

end Grammar

theorem Rule.softUpTo_none (n : Nat) : softUpTo (fun _ => false) n = readUpTo n := by
  induction n with
  | zero => rfl
  | succ n ih =>
    funext rule s
    rw [softUpTo, readUpTo, ih, Grammar.soften_none]

/-! ## Readings that end with a fault, or the same -/

/-- A reading ends with one of some faults, or is the same as another. -/
inductive Reading.Below (bad : Fault → Prop) : Reading α → Reading α → Prop where
  | abort {fault : Fault} (r : Reading α) : bad fault → Below bad (.abort fault) r
  | refl (r : Reading α) : Below bad r r

namespace Reading.Below

variable {bad : Fault → Prop}

theorem bind {r q : Reading β} {f g : β → List Char → Reading α} (h : r.Below bad q)
    (hf : ∀ b t, (f b t).Below bad (g b t)) : (r.bind f).Below bad (q.bind g) := by
  cases h with
  | abort q hb => exact .abort _ hb
  | refl r =>
    cases r with
    | value b t => exact hf b t
    | mismatch => exact .refl _
    | abort fault => exact .refl _

theorem orElse {r q r' q' : Reading α} (h : r.Below bad q) (h' : r'.Below bad q') :
    (r.orElse r').Below bad (q.orElse q') := by
  cases h with
  | abort q hb => exact .abort _ hb
  | refl r =>
    cases r with
    | value b t => exact .refl _
    | mismatch => exact h'
    | abort fault => exact .refl _

theorem bind_value {r : Reading β} {f : β → List Char → Reading α} {q : Reading α} {b : β}
    {t : List Char} (h : r.Below bad (.value b t)) (hf : (f b t).Below bad q) :
    (r.bind f).Below bad q := by
  cases h with
  | abort _ hb => exact .abort _ hb
  | refl => exact hf

theorem bind_mismatch {r : Reading β} {f : β → List Char → Reading α}
    (h : r.Below bad .mismatch) : (r.bind f).Below bad .mismatch := by
  cases h with
  | abort _ hb => exact .abort _ hb
  | refl => exact .refl _

theorem orElse_value {r r' : Reading α} {a : α} {t : List Char} (h : r.Below bad (.value a t)) :
    (r.orElse r').Below bad (.value a t) := by
  cases h with
  | abort _ hb => exact .abort _ hb
  | refl => exact .refl _

theorem orElse_mismatch {r r' q : Reading α} (h : r.Below bad .mismatch) (h' : r'.Below bad q) :
    (r.orElse r').Below bad q := by
  cases h with
  | abort _ hb => exact .abort _ hb
  | refl => exact h'

theorem iterateWithin {f g : σ → List Char → Reading (σ ⊕ α)}
    (h : ∀ state s, (f state s).Below bad (g state s)) (bound : List Char) (state : σ)
    (s : List Char) :
    (Reading.iterateWithin f bound state s).Below bad
      (Reading.iterateWithin g bound state s) := by
  induction bound generalizing state s with
  | nil =>
    unfold Reading.iterateWithin
    refine (h state s).bind fun x t => ?_
    cases x <;> exact .refl _
  | cons _ bound ih =>
    unfold Reading.iterateWithin
    refine (h state s).bind fun x t => ?_
    cases x with
    | inl next => exact ih next t
    | inr a => exact .refl _

theorem abort_or_eq {r q : Reading α} (h : r.Below bad q) :
    (∃ fault, bad fault ∧ r = .abort fault) ∨ q = r := by
  cases h with
  | abort q hb => exact .inl ⟨_, hb, rfl⟩
  | refl => exact .inr rfl

/-- What does not end with one of the faults is the same. -/
theorem eq_of_ne {r q : Reading α} (h : r.Below bad q) (hr : ∀ fault, bad fault → r ≠ .abort fault) :
    q = r := by
  obtain ⟨fault, hb, he⟩ | he := h.abort_or_eq
  · exact absurd he (hr fault hb)
  · exact he

end Reading.Below

theorem Grammar.readBy_below {bad : Fault → Prop} (soft : Fault → Bool)
    {rules rules' : RuleReader} (hsoft : ∀ fault, soft fault = true → bad fault)
    (h : ∀ rule s, (rules rule s).Below bad (rules' rule s)) (g : Grammar α) (s : List Char) :
    (g.readBy rules s).Below bad ((g.soften soft).readBy rules' s) := by
  induction g generalizing s with
  | bind first next ihf ihn => exact (ihf s).bind ihn
  | orElse first second ihf ihs => exact (ihf s).orElse (ihs s)
  | call rule => exact h rule s
  | nested body ih => exact ih s
  | iterate state step ih => exact .iterateWithin ih s state s
  | abort fault back =>
    rw [soften]
    split
    · rename_i hf
      exact .abort _ (hsoft fault hf)
    · exact .refl _
  | _ => exact .refl _

namespace Rule

/-- More stack keeps what is read. -/
theorem softUpTo_grows {m n : Nat} (h : m ≤ n) (rule : Rule) (s : List Char) :
    (softUpTo soft m rule s).Below (· = .stackExhausted) (softUpTo soft n rule s) := by
  induction m generalizing n rule s with
  | zero => exact .abort _ rfl
  | succ m ih =>
    obtain ⟨n, rfl⟩ := Nat.exists_eq_add_of_le' (Nat.lt_of_lt_of_le (Nat.succ_pos m) h)
    have hbelow := Grammar.readBy_below (fun _ => false) (fun _ hf => nomatch hf)
      (fun rule s => ih (Nat.le_of_succ_le_succ h) rule s) (rule.body.soften soft) s
    rwa [Grammar.soften_none] at hbelow

/-- Where none of the faults is met, it does not matter whether they backtrack. -/
theorem readUpTo_below (n : Nat) (rule : Rule) (s : List Char) :
    (readUpTo n rule s).Below (fun fault => soft fault = true) (softUpTo soft n rule s) := by
  induction n generalizing rule s with
  | zero => exact .refl _
  | succ n ih => exact Grammar.readBy_below soft (fun _ hf => hf) ih rule.body s

end Rule

namespace Grammar

theorem softly_grows {m n : Nat} (h : m ≤ n) (g : Grammar α) (s : List Char) :
    (g.softly soft m s).Below (· = .stackExhausted) (g.softly soft n s) := by
  have hrules : ∀ rule s, (Rule.softUpTo soft m rule s).Below (· = .stackExhausted)
      (Rule.softUpTo soft n rule s) := Rule.softUpTo_grows h
  have hbelow := readBy_below (fun _ => false) (fun _ hf => nomatch hf) hrules (g.soften soft) s
  rwa [soften_none] at hbelow

theorem readBy_softly (soft : Fault → Bool) (n : Nat) (g : Grammar α) (s : List Char) :
    (g.readBy (Rule.readUpTo n) s).Below (fun fault => soft fault = true) (g.softly soft n s) :=
  readBy_below soft (fun _ hf => hf) (Rule.readUpTo_below n) g s

theorem soft_of_read {g : Grammar α} {s : List Char}
    (h : ∀ fault, soft fault = true → g.read s ≠ .abort fault) :
    ∃ n, ∀ k ≥ n, g.softly soft k s = g.read s := by
  obtain ⟨n, hn⟩ := g.readBy_settles s
  refine ⟨n, fun k hk => ?_⟩
  have hread : g.readBy (Rule.readUpTo k) s = g.read s := hn k hk
  have hbelow := readBy_softly soft k g s
  rw [hread] at hbelow
  exact hbelow.eq_of_ne h

theorem read_of_soft {g : Grammar α} {n : Nat} {s : List Char} {r : Reading α}
    (h : g.softly soft n s = r) (hr : r ≠ .abort .stackExhausted) :
    (g.read s).Below (fun fault => soft fault = true) r := by
  obtain ⟨m, hm⟩ := g.readBy_settles s
  have hgrown : g.softly soft (max m n) s = r := by
    refine ((softly_grows (Nat.le_max_right m n) g s).eq_of_ne ?_).trans h
    rintro fault rfl hf
    exact hr (h.symm.trans hf)
  have hread : g.readBy (Rule.readUpTo (max m n)) s = g.read s := hm _ (Nat.le_max_left m n)
  have hbelow := readBy_softly soft (max m n) g s
  rwa [hread, hgrown] at hbelow

/-- What is no value without backtracking, and no fault, is no value with it. -/
theorem soft_ne_value {g : Grammar α} {s : List Char} (h : g.read s = .mismatch) (n : Nat) (a : α)
    (t : List Char) : g.softly soft n s ≠ .value a t := by
  intro hv
  have hbelow := read_of_soft hv (fun hn => nomatch hn)
  rw [h] at hbelow
  cases hbelow

end Grammar

theorem Rule.softUpTo_leaves (n : Nat) (rule : Rule) (s : List Char) :
    (softUpTo soft n rule s).Leaves s := by
  induction n generalizing rule s with
  | zero => exact fun _ _ h => nomatch h
  | succ n ih => exact Grammar.readBy_leaves ih _ s

end DhallSyntax
