import DhallSyntax.Proofs.Seam.Basic

/-!
From the first text to both. A part of a grammar lands somewhere with the first end of the text, if
defects backtrack; it carries over if it is then read with either end. Both what a part needs behind
itself and what it says about the text in front are passed on from right to left, one lemma for each
way to put parts together. Main statements:

* `Seam.Carries.bind`, `Seam.Carries.optional?`, `Seam.Carries.iterate`: a part carries over if the
  parts in it do;
* `Seam.Carries.call`: a rule carries over if its body does.
-/

namespace DhallSyntax

variable {α β σ : Type}

/-- What calls no rule does not depend on how rules are read. -/
theorem Grammar.readBy_callFree {g : Grammar α} (h : g.CallFree) (rules rules' : RuleReader)
    (s : List Char) : g.readBy rules s = g.readBy rules' s := by
  induction g generalizing s with
  | bind first next ihf ihn =>
    simp only [readBy, ihf h.1, fun b s => ihn b (h.2 b) s]
  | orElse first second ihf ihs => simp only [readBy, ihf h.1, ihs h.2]
  | call rule =>
    obtain ⟨fault, hf⟩ := h
    cases hf
  | nested body ih =>
    obtain ⟨⟨fault, hf⟩, -⟩ := h
    cases hf
  | iterate state step ih => simp only [readBy, fun state s => ih state (h state) s]
  | _ => rfl

namespace Seam

variable {T : Seam} {n : Nat} {x y z : List Char}

theorem was_append (x y : List Char) : T.was (x ++ y) = x ++ T.was y :=
  List.append_assoc x y _

theorem now_append (x y : List Char) : T.now (x ++ y) = x ++ T.now y :=
  List.append_assoc x y _

theorem was_injective (h : T.was x = T.was y) : x = y := List.append_cancel_right h

theorem suffix_of_was (h : T.was y <:+ T.was x) : y <:+ x := by
  obtain ⟨w, hw⟩ := h
  rw [← was_append] at hw
  exact ⟨w, was_injective hw⟩

/-- With the first end of the text a part lands in front of the seam, if defects backtrack. -/
def Lands (T : Seam) (n : Nat) (g : Grammar α) (x : List Char) (a : α) (y : List Char) : Prop :=
  g.softly Fault.isDefect n (T.was x) = .value a (T.was y)

/-- With the first end of the text a part does not match, if defects backtrack. -/
def Fails (T : Seam) (n : Nat) (g : Grammar α) (x : List Char) : Prop :=
  g.softly Fault.isDefect n (T.was x) = .mismatch

/-- What is read in front of the seam lands there. -/
theorem lands_of_read {g : Grammar α} {a : α} (h : g.read (T.was x) = .value a (T.was y)) :
    ∃ n, T.Lands n g x a y := by
  obtain ⟨n, hsoft⟩ := Grammar.soft_of_read fun fault (_ : Fault.isDefect fault = true) he => by
    cases h.symm.trans he
  exact ⟨n, (hsoft n (Nat.le_refl n)).trans h⟩

/-- If a part does not match with the first end of the text, it does so with neither. -/
def Ready (T : Seam) (g : Grammar α) (x : List Char) : Prop :=
  ∀ n, T.Fails n g x → T.Misses g x

/-- Wherever a part lands with the first end, it is read with either, if something holds of what it
yields and leaves. -/
def Carries (T : Seam) (n : Nat) (E : α → List Char → Prop) (g : Grammar α) : Prop :=
  ∀ x a y, T.Lands n g x a y → E a y → T.Reads g x a y

/-- Where a part lands, something holds of the text that it begins at. -/
def Leads (T : Seam) (n : Nat) (E : α → List Char → Prop) (P : List Char → Prop)
    (g : Grammar α) : Prop :=
  ∀ x a y, T.Lands n g x a y → E a y → P x

theorem Lands.suffix {g : Grammar α} {a : α} (h : T.Lands n g x a y) : y <:+ x :=
  suffix_of_was (Grammar.readBy_leaves (Rule.softUpTo_leaves n) _ _ a _ h)

theorem Lands.length_le {g : Grammar α} {a : α} (h : T.Lands n g x a y) :
    y.length ≤ x.length :=
  h.suffix.length_le

theorem Lands.bind {first : Grammar β} {next : β → Grammar α} {a : α}
    (h : T.Lands n (first >>= next) x a y) :
    ∃ b z, T.Lands n first x b z ∧ T.Lands n (next b) z a y := by
  obtain ⟨b, u, hb, hnext⟩ := Reading.bind_eq_value.mp h
  obtain ⟨w, rfl⟩ := Grammar.readBy_leaves (Rule.softUpTo_leaves n) _ u a _ hnext
  rw [← was_append] at hb hnext
  exact ⟨b, w ++ y, hb, hnext⟩

theorem Lands.orElse {first second : Grammar α} {a : α}
    (h : T.Lands n (.orElse first second) x a y) :
    T.Lands n first x a y ∨ T.Fails n first x ∧ T.Lands n second x a y :=
  Reading.orElse_eq_value.mp h

theorem Lands.choice {g : Grammar α} {rest : List (Grammar α)} {a : α}
    (h : T.Lands n (Grammar.choice (g :: rest)) x a y) :
    T.Lands n g x a y ∨ T.Fails n g x ∧ T.Lands n (Grammar.choice rest) x a y :=
  Lands.orElse h

theorem lands_bind {first : Grammar β} {next : β → Grammar α} {a : α} {b : β}
    (h : T.Lands n first x b z) (hn : T.Lands n (next b) z a y) :
    T.Lands n (first >>= next) x a y :=
  Reading.bind_eq_value.mpr ⟨b, _, h, hn⟩

theorem lands_pure (a : α) (x : List Char) : T.Lands n (Pure.pure a) x a x := rfl

theorem Lands.pure {a b : α} (h : T.Lands n (Pure.pure a) x b y) : b = a ∧ y = x := by
  have hv : Reading.value a (T.was x) = .value b (T.was y) := h
  obtain ⟨ha, hx⟩ := Reading.value.inj hv
  exact ⟨ha.symm, (was_injective hx).symm⟩

/-- With more stack a part still lands there, or still does not match. -/
theorem softly_of_le {m : Nat} (hmn : m ≤ n) {g : Grammar α} {s : List Char} {r : Reading α}
    (h : g.softly Fault.isDefect m s = r) (hr : r ≠ .abort .stackExhausted) :
    g.softly Fault.isDefect n s = r := by
  refine ((Grammar.softly_grows hmn g s).eq_of_ne ?_).trans h
  rintro fault rfl ha
  exact hr (h.symm.trans ha)

theorem Lands.not_fails {g : Grammar α} {a : α} {m : Nat} (h : T.Lands n g x a y) :
    ¬ T.Fails m g x := by
  intro hf
  have hl := softly_of_le (Nat.le_max_left n m) h (fun hr => nomatch hr)
  have hm := softly_of_le (Nat.le_max_right n m) hf (fun hr => nomatch hr)
  cases hl.symm.trans hm

/-- Behind a part that lands, what goes on from there does not match. -/
theorem Fails.bind {first : Grammar β} {next : β → Grammar α} {b : β} {m : Nat}
    (hf : T.Fails m (first >>= next) x) (h : T.Lands n first x b z) : T.Fails m (next b) z := by
  obtain hf | ⟨b', u, hb, hnext⟩ := Reading.bind_eq_mismatch.mp hf
  · exact absurd hf h.not_fails
  · have hl := softly_of_le (Nat.le_max_left n m) h (fun hr => nomatch hr)
    have hm := softly_of_le (Nat.le_max_right n m) hb (fun hr => nomatch hr)
    obtain ⟨rfl, rfl⟩ := Reading.value.inj (hl.symm.trans hm)
    exact hnext

theorem Lands.ready {g : Grammar α} {a : α} (h : T.Lands n g x a y) : T.Ready g x :=
  fun _ hf => absurd hf h.not_fails

/-- What does not match without backtracking does not land. -/
theorem Lands.ne_mismatch {g : Grammar α} {a : α} (h : T.Lands n g x a y) :
    g.read (T.was x) ≠ .mismatch :=
  fun hm => Grammar.soft_ne_value hm n a _ h

theorem Lands.call_ne_nil {rule : Rule} {a : rule.Result} (h : T.Lands n (.call rule) x a y) :
    y.length < x.length := by
  have hlt := Rule.softUpTo_shrinks n h
  rw [was_length, was_length (x := x)] at hlt
  omega

/-- A rule that lands begins with one of its first characters. -/
theorem Lands.first {rule : Rule} {a : rule.Result} (h : T.Lands n (.call rule) x a y) :
    ∃ c t, x = c :: t ∧ rule.first c = true := by
  have hlt := h.call_ne_nil
  obtain ⟨c, t, rfl⟩ := List.exists_cons_of_length_pos (Nat.zero_lt_of_lt hlt)
  refine ⟨c, t, rfl, ?_⟩
  cases hc : rule.first c with
  | true => rfl
  | false => exact absurd (rule.read_of_first (s := T.was (c :: t)) hc) h.ne_mismatch

theorem Fails.choice {g : Grammar α} {rest : List (Grammar α)}
    (h : T.Fails n (Grammar.choice (g :: rest)) x) :
    T.Fails n g x ∧ T.Fails n (Grammar.choice rest) x :=
  Reading.orElse_eq_mismatch.mp h

/-- Where a rule does not match, its body does not. -/
theorem Fails.call {rule : Rule} (h : T.Fails n (.call rule) x) : ∃ m, T.Fails m rule.body x := by
  cases n with
  | zero => cases h
  | succ n => exact ⟨n, h⟩

/-- Where a rule lands, its body does. -/
theorem Lands.body {rule : Rule} {a : rule.Result} (h : T.Lands n (.call rule) x a y) :
    T.Lands n rule.body x a y := by
  cases n with
  | zero => cases h
  | succ n => exact softly_of_le (Nat.le_succ n) h fun hr => nomatch hr

theorem Ready.call {rule : Rule} (hx : x ≠ []) (h : T.Ready rule.body x) :
    T.Ready (.call rule) x := by
  intro n hf
  obtain ⟨m, hf⟩ := hf.call
  exact .call hx (h m hf)

/-- The first part does not match if what follows it always does. -/
theorem Fails.first {first : Grammar β} {next : β → Grammar α}
    (h : T.Fails n (first >>= next) x)
    (hn : ∀ b s, (next b).softly Fault.isDefect n s ≠ .mismatch) : T.Fails n first x := by
  obtain h | ⟨b, u, -, hnext⟩ := Reading.bind_eq_mismatch.mp h
  · exact h
  · exact absurd hnext (hn b u)

theorem softly_optional_ne_mismatch (part : Grammar β) (f : Option β → α) (s : List Char) :
    (Grammar.optional? part >>= fun r => pure (f r)).softly Fault.isDefect n s ≠ .mismatch := by
  intro h
  obtain h | ⟨r, u, -, hr⟩ := Reading.bind_eq_mismatch.mp h
  · cases (Reading.orElse_eq_mismatch.mp h).2
  · cases hr

/-- A repetition ends where its part does not match. -/
theorem softly_foldMany_ne_mismatch (part : Grammar α) (f : σ → α → σ) (start : σ)
    (s : List Char) : (Grammar.foldMany part f start).softly Fault.isDefect n s ≠ .mismatch := by
  have hstep : ∀ state s, (Grammar.foldStep part f state).softly Fault.isDefect n s ≠ .mismatch := by
    intro state s h
    obtain h | ⟨r, u, -, hr⟩ := Reading.bind_eq_mismatch.mp h
    · cases (Reading.orElse_eq_mismatch.mp h).2
    · cases r <;> cases hr
  have hw : ∀ bound state s, Reading.iterateWithin
      (fun state s => (Grammar.foldStep part f state).softly Fault.isDefect n s) bound state s ≠
        .mismatch := by
    intro bound
    induction bound with
    | nil =>
      intro state s h
      unfold Reading.iterateWithin at h
      obtain h | ⟨r, u, -, hr⟩ := Reading.bind_eq_mismatch.mp h
      · exact hstep state s h
      · cases r <;> cases hr
    | cons _ bound ih =>
      intro state s h
      unfold Reading.iterateWithin at h
      obtain h | ⟨r, u, -, hr⟩ := Reading.bind_eq_mismatch.mp h
      · exact hstep state s h
      · cases r with
        | inl next => exact ih next u hr
        | inr b => cases hr
  exact hw s start s

/-! ## Parts that call no rule -/

/-- What calls no rule and reports no defect lands where it reads to. -/
theorem lands_iff {g : Grammar α} (hg : g.CallFree)
    (hd : g.AbortsOnly fun fault => fault.isDefect = false) {a : α} :
    T.Lands n g x a y ↔ g.readBy Rule.read (T.was x) = .value a (T.was y) := by
  rw [Lands, Grammar.softly, Grammar.soften_eq_self hd,
    Grammar.readBy_callFree hg _ Rule.read]

theorem fails_iff {g : Grammar α} (hg : g.CallFree)
    (hd : g.AbortsOnly fun fault => fault.isDefect = false) :
    T.Fails n g x ↔ g.readBy Rule.read (T.was x) = .mismatch := by
  rw [Fails, Grammar.softly, Grammar.soften_eq_self hd,
    Grammar.readBy_callFree hg _ Rule.read]

theorem reads_plain {g : Grammar α} (hg : g.CallFree) {a : α} (h : T.Lands n g x a y)
    (hn : g.readBy Rule.read (T.now x) = .value a (T.now y)) : T.Reads g x a y :=
  .plain hg (Grammar.read_of_soft h fun hr => nomatch hr) hn

theorem misses_plain {g : Grammar α} (hg : g.CallFree) (h : g.readBy Rule.read (T.was x) = .mismatch)
    (hn : g.readBy Rule.read (T.now x) = .mismatch) : T.Misses g x := by
  have hw : g.read (T.was x) = .mismatch := h
  exact .plain hg (hw ▸ .refl _) hn

theorem misses_fails {g : Grammar α} (hg : g.CallFree) (h : T.Fails n g x)
    (hn : g.readBy Rule.read (T.now x) = .mismatch) : T.Misses g x :=
  .plain hg (Grammar.read_of_soft h fun hr => nomatch hr) hn

/-! ## Putting parts together -/

section Carries

variable {E : α → List Char → Prop} {F : β → List Char → Prop} {P Q : List Char → Prop}

theorem Carries.mono {E' : α → List Char → Prop} {g : Grammar α} (h : T.Carries n E g)
    (he : ∀ a y, E' a y → E a y) : T.Carries n E' g :=
  fun x a y hl hy => h x a y hl (he a y hy)

theorem Carries.pure (a : α) : T.Carries n E (Pure.pure a) := by
  intro x b y h _
  obtain ⟨rfl, rfl⟩ := h.pure
  exact .plain trivial (.refl _) rfl

theorem Carries.fail (expectation : String) : T.Carries n E (.fail expectation) :=
  fun _ _ _ h => nomatch h

theorem Carries.abort (fault : Fault) (back : Nat) : T.Carries n E (.abort fault back) := by
  intro x a y h
  unfold Lands Grammar.softly Grammar.soften at h
  split at h <;> cases h

theorem Carries.bind {first : Grammar β} {next : β → Grammar α} (h : T.Carries n F first)
    (hl : ∀ b, T.Leads n E (F b) (next b)) (hn : ∀ b, T.Carries n E (next b)) :
    T.Carries n E (first >>= next) := by
  intro x a y ha he
  obtain ⟨b, z, hb, hnext⟩ := ha.bind
  exact .bind (h x b z hb (hl b z a y hnext he)) (hn b z a y hnext he)

/-- A part that carries over whatever follows it. -/
theorem Carries.andThen {first : Grammar β} {next : β → Grammar α}
    (h : T.Carries n (fun _ _ => True) first) (hn : ∀ b, T.Carries n E (next b)) :
    T.Carries n E (first >>= next) :=
  Carries.bind h (fun _ _ _ _ _ _ => trivial) hn

theorem Carries.ite {p : Prop} [Decidable p] {g g' : Grammar α} (h : p → T.Carries n E g)
    (h' : ¬ p → T.Carries n E g') : T.Carries n E (if p then g else g') := by
  split
  · exact h ‹_›
  · exact h' ‹_›

theorem Carries.orElse {first second : Grammar α} (h : T.Carries n E first)
    (hs : T.Carries n E second)
    (hm : ∀ x a y, T.Fails n first x → T.Lands n second x a y → E a y → T.Misses first x) :
    T.Carries n E (.orElse first second) := by
  intro x a y ha he
  obtain ha | ⟨hf, ha⟩ := ha.orElse
  · exact .left (h x a y ha he)
  · exact .right (hm x a y hf ha he) (hs x a y ha he)

theorem Carries.nested {g : Grammar α} (h : T.Carries n E g) : T.Carries n E (.nested g) :=
  fun x a y ha he => .nested (h x a y ha he)

theorem Carries.call {rule : Rule} {E : rule.Result → List Char → Prop}
    (h : T.Carries n E rule.body) : T.Carries (n + 1) E (.call rule) := by
  intro x a y ha he
  have hlt := ha.call_ne_nil
  refine .call (fun hx => ?_) (h x a y ha he)
  rw [hx, List.length_nil] at hlt
  omega

theorem Lands.optional? {part : Grammar α} {r : Option α}
    (h : T.Lands n (Grammar.optional? part) x r y) :
    (∃ a, r = some a ∧ T.Lands n part x a y) ∨ r = none ∧ y = x ∧ T.Fails n part x := by
  obtain h | ⟨hf, h⟩ := Lands.orElse h
  · obtain ⟨a, z, ha, hz⟩ := Lands.bind h
    obtain ⟨rfl, rfl⟩ := hz.pure
    exact .inl ⟨a, rfl, ha⟩
  · obtain ⟨rfl, rfl⟩ := Lands.pure h
    obtain hf | ⟨_, _, -, hf⟩ := Reading.bind_eq_mismatch.mp hf
    · exact .inr ⟨rfl, rfl, hf⟩
    · cases hf

theorem Carries.optional? {part : Grammar α} {E : Option α → List Char → Prop}
    (h : T.Carries n (fun a => E (some a)) part) (hr : ∀ x, E none x → T.Ready part x) :
    T.Carries n E (Grammar.optional? part) := by
  intro x r y hl he
  obtain ⟨a, rfl, ha⟩ | ⟨rfl, rfl, hf⟩ := hl.optional?
  · exact .left (.bind (h x a y ha he) (.plain trivial (.refl _) rfl))
  · exact .right (.miss (hr y he n hf)) (.plain trivial (.refl _) rfl)

/-! ### What is in front of a part -/

theorem Leads.mono {E' : α → List Char → Prop} {g : Grammar α} (h : T.Leads n E P g)
    (he : ∀ a y, E' a y → E a y) (hp : ∀ x, P x → Q x) : T.Leads n E' Q g :=
  fun x a y hl hy => hp x (h x a y hl (he a y hy))

theorem Leads.pure {a : α} (h : ∀ x, E a x → P x) : T.Leads n E P (Pure.pure a) := by
  intro x b y hb he
  obtain ⟨rfl, rfl⟩ := hb.pure
  exact h _ he

theorem Leads.fail (expectation : String) : T.Leads n E P (.fail expectation) :=
  fun _ _ _ h => nomatch h

theorem Leads.abort (fault : Fault) (back : Nat) : T.Leads n E P (.abort fault back) := by
  intro x a y h
  unfold Lands Grammar.softly Grammar.soften at h
  split at h <;> cases h

theorem Leads.bind {first : Grammar β} {next : β → Grammar α} (h : T.Leads n F P first)
    (hn : ∀ b, T.Leads n E (F b) (next b)) : T.Leads n E P (first >>= next) := by
  intro x a y ha he
  obtain ⟨b, z, hb, hnext⟩ := ha.bind
  exact h x b z hb (hn b z a y hnext he)

/-- What the first part begins with, whatever follows. -/
theorem Leads.front {first : Grammar β} {next : β → Grammar α}
    (h : T.Leads n (fun _ _ => True) P first) : T.Leads n E P (first >>= next) :=
  Leads.bind h fun _ _ _ _ _ _ => trivial

/-- What a rule begins with is what its body begins with. -/
theorem Leads.call (rule : Rule) {E : rule.Result → List Char → Prop}
    (h : T.Leads n E P rule.body) : T.Leads n E P (.call rule) :=
  fun x a y ha he => h x a y ha.body he

theorem Leads.any (g : Grammar α) : T.Leads n E (fun _ => True) g := fun _ _ _ _ _ => trivial

theorem Leads.ite {p : Prop} [Decidable p] {g g' : Grammar α} (h : p → T.Leads n E P g)
    (h' : ¬ p → T.Leads n E P g') : T.Leads n E P (if p then g else g') := by
  split
  · exact h ‹_›
  · exact h' ‹_›

theorem Leads.orElse {first second : Grammar α} (h : T.Leads n E P first)
    (hs : T.Leads n E P second) : T.Leads n E P (.orElse first second) := by
  intro x a y ha he
  obtain ha | ⟨-, ha⟩ := ha.orElse
  · exact h x a y ha he
  · exact hs x a y ha he

theorem Leads.choice {alternatives : List (Grammar α)}
    (h : ∀ g ∈ alternatives, T.Leads n E P g) : T.Leads n E P (Grammar.choice alternatives) := by
  induction alternatives with
  | nil => exact fun _ _ _ h => nomatch h
  | cons g rest ih =>
    obtain ⟨hg, hrest⟩ := List.forall_mem_cons.mp h
    exact hg.orElse (ih hrest)

/-- The last of some alternatives. -/
theorem Leads.last {g : Grammar α} (h : T.Leads n E P g) : T.Leads n E P (Grammar.choice [g]) :=
  .orElse h fun _ _ _ h => nomatch h

theorem Leads.optional? {part : Grammar α} {E : Option α → List Char → Prop}
    (h : T.Leads n (fun a => E (some a)) P part) (hn : ∀ x, E none x → P x) :
    T.Leads n E P (Grammar.optional? part) := by
  intro x r y hl he
  obtain ⟨a, rfl, ha⟩ | ⟨rfl, rfl, -⟩ := hl.optional?
  · exact h x a y ha he
  · exact hn y he

/-! ### What takes some of the text -/

/-- A part takes some of the text where it lands with a value of some kind. -/
def Shrinks (T : Seam) (n : Nat) (K : α → Prop) (g : Grammar α) : Prop :=
  ∀ x a y, T.Lands n g x a y → K a → y.length < x.length

section Shrinks

variable {K : α → Prop} {L : β → Prop}

theorem Shrinks.call (rule : Rule) {K : rule.Result → Prop} : T.Shrinks n K (.call rule) :=
  fun _ _ _ h _ => h.call_ne_nil

theorem Shrinks.pure {a : α} (h : ¬ K a) : T.Shrinks n K (Pure.pure a) := by
  intro x b y hb hk
  obtain ⟨rfl, -⟩ := hb.pure
  exact absurd hk h

theorem Shrinks.fail (expectation : String) : T.Shrinks n K (.fail expectation) :=
  fun _ _ _ h => nomatch h

theorem Shrinks.mono {K' : α → Prop} {g : Grammar α} (h : T.Shrinks n K g)
    (hk : ∀ a, K' a → K a) : T.Shrinks n K' g :=
  fun x a y hl ha => h x a y hl (hk a ha)

theorem Shrinks.first {first : Grammar β} {next : β → Grammar α}
    (h : T.Shrinks n (fun _ => True) first) : T.Shrinks n K (first >>= next) := by
  intro x a y ha _
  obtain ⟨b, z, hb, hnext⟩ := ha.bind
  exact Nat.lt_of_le_of_lt hnext.length_le (h x b z hb trivial)

theorem Shrinks.behind {first : Grammar β} {next : β → Grammar α}
    (h : ∀ b, T.Shrinks n K (next b)) : T.Shrinks n K (first >>= next) := by
  intro x a y ha hk
  obtain ⟨b, z, hb, hnext⟩ := ha.bind
  exact Nat.lt_of_lt_of_le (h b z a y hnext hk) hb.length_le

theorem Shrinks.ite {p : Prop} [Decidable p] {g g' : Grammar α} (h : T.Shrinks n K g)
    (h' : T.Shrinks n K g') : T.Shrinks n K (if p then g else g') := by
  split
  · exact h
  · exact h'

theorem Shrinks.of_ends {g : Grammar α}
    (h : g.Ends Fault.isDefect (Rule.softUpTo Fault.isDefect n)) : T.Shrinks n K g := by
  intro x a y ha _
  have hlt := (h (T.was x) a (T.was y) ha).length_lt
  rw [was_length, was_length (x := x)] at hlt
  omega

theorem Shrinks.leads {g : Grammar α} {E : α → List Char → Prop} (h : T.Shrinks n (fun _ => True) g) :
    T.Leads n E (fun x => x ≠ []) g := by
  rintro x a y ha - rfl
  exact Nat.not_lt_zero _ (h [] a y ha trivial)

end Shrinks

/-! ### Repetitions -/

/-- What holds where the last step lands, and in front of a step if it holds behind it, holds where
a repetition begins that lands. -/
theorem Lands.iterate_induction {step : σ → Grammar (σ ⊕ α)} {P : σ → List Char → Prop} {a : α}
    (last : ∀ state x, T.Lands n (step state) x (.inr a) y → P state x)
    (next : ∀ state x state' z, T.Lands n (step state) x (.inl state') z → P state' z → P state x)
    {state : σ} (h : T.Lands n (.iterate state step) x a y) : P state x := by
  -- All that is left on the way is in front of the seam, since the repetition lands there.
  suffices hall : T.was y <:+ T.was x ∧ ∀ z, T.was z = T.was x → P state z from hall.2 x rfl
  refine Reading.iterateWithin_induction (P := fun state s =>
    T.was y <:+ s ∧ ∀ z, T.was z = s → P state z) ?_ ?_ h
  · rintro state s hr
    refine ⟨Grammar.readBy_leaves (Rule.softUpTo_leaves n) _ _ _ _ hr, ?_⟩
    rintro z rfl
    exact last state z hr
  · rintro state s state' s' hr ⟨⟨w, rfl⟩, hlater⟩
    rw [← was_append] at hr hlater
    refine ⟨(was_append w y ▸ List.suffix_append w _).trans
      (Grammar.readBy_leaves (Rule.softUpTo_leaves n) _ _ _ _ hr), ?_⟩
    rintro z rfl
    exact next state z state' (w ++ y) hr (hlater _ rfl)

/-- A repetition carries over if its steps do; in front of every step holds what the steps before it
need. -/
theorem iterate_lands {step : σ → Grammar (σ ⊕ α)} {I : σ → List Char → Prop}
    (hstep : ∀ state, T.Carries n (Sum.elim I E) (step state))
    (hlead : ∀ state, T.Leads n (Sum.elim I E) (I state) (step state))
    (hshort : ∀ state x state' z, T.Lands n (step state) x (.inl state') z →
      z.length < x.length) {state : σ} {a : α} (h : T.Lands n (.iterate state step) x a y)
    (he : E a y) : T.Same (.loop step state) x (some (a, y)) ∧ I state x := by
  refine Lands.iterate_induction (P := fun state x => T.Same (.loop step state) x (some (a, y)) ∧
    I state x) (fun state x hl => ?_) (fun state x state' z hl hz => ?_) h
  · exact ⟨.last (hstep state x _ y hl he), hlead state x _ y hl he⟩
  · obtain ⟨hsame, hi⟩ := hz
    exact ⟨.next (hstep state x _ z hl hi) (hshort state x state' z hl) hsame,
      hlead state x _ z hl hi⟩

theorem Carries.iterate {step : σ → Grammar (σ ⊕ α)} (I : σ → List Char → Prop)
    (hstep : ∀ state, T.Carries n (Sum.elim I E) (step state))
    (hlead : ∀ state, T.Leads n (Sum.elim I E) (I state) (step state))
    (hshort : ∀ state x state' z, T.Lands n (step state) x (.inl state') z →
      z.length < x.length) {state : σ} : T.Carries n E (.iterate state step) :=
  fun _ _ _ h he => .iterate (iterate_lands hstep hlead hshort h he).1

theorem Leads.iterate {step : σ → Grammar (σ ⊕ α)} (I : σ → List Char → Prop)
    (hstep : ∀ state, T.Carries n (Sum.elim I E) (step state))
    (hlead : ∀ state, T.Leads n (Sum.elim I E) (I state) (step state))
    (hshort : ∀ state x state' z, T.Lands n (step state) x (.inl state') z →
      z.length < x.length) {state : σ} : T.Leads n E (I state) (.iterate state step) :=
  fun _ _ _ h he => (iterate_lands hstep hlead hshort h he).2

section Fold

variable {part : Grammar α} {f : σ → α → σ} {E : σ → List Char → Prop} {P : List Char → Prop}
  (hpart : T.Carries n (fun _ => P) part) (hlead : T.Leads n (fun _ => P) P part)
  (hshort : ∀ x a z, T.Lands n part x a z → z.length < x.length)
  (hlast : ∀ state x, E state x → P x ∧ T.Ready part x)

include hpart hlast in
theorem carries_foldStep (state : σ) :
    T.Carries n (Sum.elim (fun _ => P) E) (Grammar.foldStep part f state) := by
  refine Carries.bind
    (F := fun value y => value.elim (E state y) fun _ => P y)
    (Carries.optional? hpart fun x hx => (hlast state x hx).2) (fun value => ?_) fun value => ?_
  · cases value <;> exact .pure fun _ h => h
  · cases value <;> exact .pure _

include hlead in
theorem leads_foldStep (hlast : ∀ state x, E state x → P x) (state : σ) :
    T.Leads n (Sum.elim (fun _ => P) E) P (Grammar.foldStep part f state) := by
  refine Leads.bind
    (F := fun value y => value.elim (E state y) fun _ => P y)
    (Leads.optional? hlead fun x hx => hlast state x hx) fun value => ?_
  cases value <;> exact .pure fun _ h => h

include hshort in
theorem foldStep_short (state : σ) (x : List Char) (state' : σ) (z : List Char)
    (h : T.Lands n (Grammar.foldStep part f state) x (.inl state') z) : z.length < x.length := by
  obtain ⟨value, u, hu, hz⟩ := Lands.bind h
  cases value with
  | none => exact nomatch (Lands.pure hz).1
  | some a =>
    obtain ⟨-, rfl⟩ := Lands.pure hz
    obtain ⟨a', -, ha⟩ | ⟨hn, -⟩ := hu.optional?
    · exact hshort x a' _ ha
    · cases hn

include hpart hlead hshort hlast in
theorem Carries.foldMany {start : σ} : T.Carries n E (Grammar.foldMany part f start) :=
  Carries.iterate (fun _ => P) (carries_foldStep hpart hlast)
    (leads_foldStep hlead fun state x he => (hlast state x he).1) (foldStep_short hshort)

include hpart hlead hshort hlast in
theorem Leads.foldMany {start : σ} : T.Leads n E P (Grammar.foldMany part f start) :=
  Leads.iterate (fun _ => P) (carries_foldStep hpart hlast)
    (leads_foldStep hlead fun state x he => (hlast state x he).1) (foldStep_short hshort)

end Fold

section Many

variable {part : Grammar α} {E : List α → List Char → Prop} {P : List Char → Prop}
  (hpart : T.Carries n (fun _ => P) part) (hlead : T.Leads n (fun _ => P) P part)
  (hshort : ∀ x a z, T.Lands n part x a z → z.length < x.length)
  (hlast : ∀ values x, E values x → P x ∧ T.Ready part x)

include hpart hlead hshort hlast in
theorem Carries.many : T.Carries n E (Grammar.many part) :=
  Carries.bind (F := fun values => E values.reverse)
    (Carries.foldMany hpart hlead hshort fun _ _ h => hlast _ _ h) (fun _ => .pure fun _ h => h)
    fun _ => .pure _

include hpart hlead hshort hlast in
theorem Leads.many : T.Leads n E P (Grammar.many part) :=
  Leads.bind (F := fun values => E values.reverse)
    (Leads.foldMany hpart hlead hshort fun _ _ h => hlast _ _ h) fun _ => .pure fun _ h => h

end Many

end Carries

end Seam

end DhallSyntax
