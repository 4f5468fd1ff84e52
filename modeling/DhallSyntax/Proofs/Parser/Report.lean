import DhallSyntax.Proofs.Parser.Unbounded

/-!
What the furthest failure says once the rules are left out of it. Main statement:
`addAll_of_covers`, alternatives that give up a second time where they gave up before leave the
report as it is. A rule whose outcome is recalled is not run again, and so its failures are not
noted again: nothing is lost by that.
-/

namespace DhallSyntax

/-- The offset of the furthest failure and what was expected there. -/
abbrev Report := Option (Nat × List String)

namespace Report

/-- Counts in one more failure. -/
def add (r : Report) (m : Miss) : Report :=
  match r with
  | none => some (m.offset, [m.expectation])
  | some (offset, expected) =>
    if offset < m.offset then some (m.offset, [m.expectation])
    else if m.offset = offset then
      some (offset,
        if expected.contains m.expectation then expected else expected ++ [m.expectation])
    else some (offset, expected)

def addAll (r : Report) (ms : List Miss) : Report := ms.foldl add r

/-- A failure that would change nothing: it is nearer, or its expectation is listed. -/
def Covers (r : Report) (m : Miss) : Prop :=
  ∃ offset expected, r = some (offset, expected) ∧
    (m.offset < offset ∨ m.offset = offset ∧ m.expectation ∈ expected)

theorem add_of_covers {r : Report} {m : Miss} (h : r.Covers m) : r.add m = r := by
  obtain ⟨offset, expected, rfl, h | ⟨h, he⟩⟩ := h
  · simp only [add, if_neg (show ¬ offset < m.offset by omega),
      if_neg (show ¬ m.offset = offset by omega)]
  · simp [add, h, he]

theorem covers_add (r : Report) (m : Miss) : (r.add m).Covers m := by
  unfold add
  split
  · exact ⟨_, _, rfl, .inr ⟨rfl, by simp⟩⟩
  · rename_i offset expected
    split
    · exact ⟨_, _, rfl, .inr ⟨rfl, by simp⟩⟩
    · split
      · refine ⟨_, _, rfl, .inr ⟨by assumption, ?_⟩⟩
        split
        · simp_all
        · simp
      · exact ⟨_, _, rfl, .inl (by omega)⟩

theorem Covers.add {r : Report} {m : Miss} (h : r.Covers m) (m' : Miss) : (r.add m').Covers m := by
  obtain ⟨offset, expected, rfl, h⟩ := h
  simp only [Report.add]
  split
  · exact ⟨_, _, rfl, .inl (by omega)⟩
  · split
    · refine ⟨_, _, rfl, ?_⟩
      rcases h with h | ⟨h, he⟩
      · exact .inl h
      · refine .inr ⟨h, ?_⟩
        split
        · exact he
        · exact List.mem_append_left _ he
    · exact ⟨_, _, rfl, h⟩

theorem Covers.addAll {r : Report} {m : Miss} (h : r.Covers m) (ms : List Miss) :
    (r.addAll ms).Covers m := by
  induction ms generalizing r with
  | nil => exact h
  | cons m' ms ih => exact ih (h.add m')

theorem covers_addAll (r : Report) {ms : List Miss} {m : Miss} (h : m ∈ ms) :
    (r.addAll ms).Covers m := by
  induction ms generalizing r with
  | nil => cases h
  | cons m' ms ih =>
    cases h with
    | head => exact (covers_add r m).addAll ms
    | tail _ h => exact ih _ h

theorem addAll_of_covers {r : Report} {ms : List Miss} (h : ∀ m ∈ ms, r.Covers m) :
    r.addAll ms = r := by
  induction ms with
  | nil => rfl
  | cons m ms ih =>
    have hm : r.add m = r := add_of_covers (h m List.mem_cons_self)
    rw [addAll, List.foldl_cons, hm]
    exact ih fun m' h' => h m' (List.mem_cons_of_mem m h')

end Report

namespace State

/-- What the furthest failure of a state says. -/
def report (s : State) : Report := s.furthest.map fun f => (f.offset, f.expected)

/-- States that differ in their memo and in the rules of the furthest failure at most. -/
structure Alike (s t : State) : Prop where
  cursor : s.cursor = t.cursor
  depth : s.depth = t.depth
  active : s.active = t.active
  report : s.report = t.report

namespace Alike

theorem refl (s : State) : s.Alike s := ⟨rfl, rfl, rfl, rfl⟩

theorem trans {s t u : State} (h : s.Alike t) (h' : t.Alike u) : s.Alike u :=
  ⟨h.cursor.trans h'.cursor, h.depth.trans h'.depth, h.active.trans h'.active,
    h.report.trans h'.report⟩

theorem rules {s t : State} (h : s.Alike t) : s.rules = t.rules := by
  simp only [State.rules, h.active]

end Alike

end State

theorem note_report (f : Option Furthest) (m : Miss) (rules : List Rule) :
    (Furthest.note f m.offset m.expectation rules).map (fun f => (f.offset, f.expected)) =
      Report.add (f.map fun f => (f.offset, f.expected)) m := by
  cases f with
  | none => rfl
  | some f =>
    simp only [Furthest.note, Report.add, Option.map_some]
    split
    · rfl
    · split <;> rfl

namespace Account

variable {α : Type}

@[simp] theorem stateAfter_report (A : Account α) (s : State) :
    (A.stateAfter s).report = s.report.addAll A.misses := by
  have h : ∀ (ms : List Miss) (f : Option Furthest),
      (ms.foldl (fun f m => Furthest.note f m.offset m.expectation (s.rules ++ m.rules)) f).map
          (fun f => (f.offset, f.expected)) =
        Report.addAll (f.map fun f => (f.offset, f.expected)) ms := by
    intro ms
    induction ms with
    | nil => exact fun _ => rfl
    | cons m ms ih =>
      intro f
      rw [List.foldl_cons, ih, note_report]
      rfl
  exact h A.misses s.furthest

theorem stateAfter_alike (A : Account α) {s t : State} (h : s.Alike t) :
    (A.stateAfter s).Alike (A.stateAfter t) :=
  ⟨rfl, h.depth, h.active, by simp only [stateAfter_report, h.report]⟩

end Account

namespace Outcome

variable {α : Type}

/-- Outcomes that differ in what their states may differ in. -/
def Alike : Outcome α → Outcome α → Prop
  | value a s, value b t => a = b ∧ s.Alike t
  | mismatch s, mismatch t => s.Alike t
  | abort a s, abort b t => a = b ∧ s.Alike t
  | _, _ => False

theorem Alike.refl (r : Outcome α) : r.Alike r := by
  cases r <;> simp [Alike, State.Alike.refl]

theorem Alike.trans {r q p : Outcome α} (h : r.Alike q) (h' : q.Alike p) : r.Alike p := by
  cases r <;> cases q <;> cases p <;> simp only [Alike] at *
  · exact ⟨h.1.trans h'.1, h.2.trans h'.2⟩
  · exact h.trans h'
  · exact ⟨h.1.trans h'.1, h.2.trans h'.2⟩

theorem Alike.mapState {r q : Outcome α} (h : r.Alike q) {f : State → State}
    (hf : ∀ {s t : State}, s.Alike t → (f s).Alike (f t)) :
    (r.mapState f).Alike (q.mapState f) := by
  cases r <;> cases q <;> simp only [Alike, Outcome.mapState] at *
  · exact ⟨h.1, hf h.2⟩
  · exact hf h
  · exact ⟨h.1, hf h.2⟩

end Outcome

theorem Account.lift_alike {α : Type} (A : Account α) {s t : State} (h : s.Alike t) :
    (A.lift s).Alike (A.lift t) := by
  have hs := A.stateAfter_alike h
  unfold lift
  split
  · exact ⟨rfl, hs⟩
  · exact hs
  · exact ⟨by rw [h.rules], hs⟩

end DhallSyntax
