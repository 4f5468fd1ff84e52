import DhallSyntax.Proofs.Parser.Report
import Mathlib.Data.List.Induction

/-!
What the furthest failure stands for. It is kept up to date from one failed attempt to the next;
what it says of all of them together needs no order of events. Main statements:

* `Report.Summarizes.addAll`: the offset is the greatest of all attempts, and the expectations are
  those of the attempts there, each where it came first;
* `Furthest.Sums.note`: the rules are the longest beginning that the open rules at these attempts
  have in common;
* `furthest_of_steps`: so it is after any steps of a scanner.
-/

namespace DhallSyntax

section Lists

variable {α : Type} [DecidableEq α]

/-! ## Lists -/

/-- The beginnings of the common beginning of two lists are their common beginnings. -/
theorem prefix_commonPrefix_iff {p as bs : List α} :
    p <+: commonPrefix as bs ↔ p <+: as ∧ p <+: bs := by
  induction as, bs using commonPrefix.induct generalizing p with
  | case1 as b bs ih =>
    rw [commonPrefix, if_pos rfl]
    cases p with
    | nil => exact iff_of_true List.nil_prefix ⟨List.nil_prefix, List.nil_prefix⟩
    | cons c p =>
      rw [List.cons_prefix_cons, List.cons_prefix_cons, List.cons_prefix_cons, ih]
      exact and_and_left
  | case2 a as b bs hab =>
    rw [commonPrefix, if_neg hab, List.prefix_nil]
    cases p with
    | nil => exact iff_of_true rfl ⟨List.nil_prefix, List.nil_prefix⟩
    | cons c p =>
      rw [List.cons_prefix_cons, List.cons_prefix_cons]
      refine iff_of_false (List.cons_ne_nil _ _) ?_
      rintro ⟨⟨rfl, -⟩, rfl, -⟩
      exact hab rfl
  | case3 as bs hends =>
    have hnil : as = [] ∨ bs = [] := by
      cases as with
      | nil => exact .inl rfl
      | cons a as =>
        cases bs with
        | nil => exact .inr rfl
        | cons b bs => exact (hends a as b bs rfl rfl).elim
    rw [commonPrefix.eq_2 _ _ hends, List.prefix_nil]
    constructor
    · rintro rfl
      exact ⟨List.nil_prefix, List.nil_prefix⟩
    · rintro ⟨has, hbs⟩
      obtain rfl | rfl := hnil
      · exact List.prefix_nil.mp has
      · exact List.prefix_nil.mp hbs

/-- An element at the end of a list comes there first unless the list holds it. -/
theorem eraseDups_concat (as : List α) (a : α) :
    (as ++ [a]).eraseDups = if a ∈ as then as.eraseDups else as.eraseDups ++ [a] := by
  have hsingle : [a].eraseDups = [a] := by simp [List.eraseDups_cons]
  rw [List.eraseDups_append]
  split
  · rename_i ha
    simp [List.removeAll, ha]
  · rename_i ha
    simp [List.removeAll, ha, hsingle]

theorem nodup_eraseDups (as : List α) : as.eraseDups.Nodup := by
  induction as using List.reverseRecOn with
  | nil => exact List.nodup_nil
  | append_singleton as a ih =>
    rw [eraseDups_concat]
    split
    · exact ih
    · rename_i ha
      refine List.nodup_append.mpr ⟨ih, List.pairwise_singleton _ _, ?_⟩
      rintro b hb c hc rfl
      exact ha (List.mem_singleton.mp hc ▸ List.mem_eraseDups.mp hb)

end Lists

/-! ## Reports -/

namespace Report

/-- What was expected at an offset, in the order of the attempts. -/
def expectedAt (offset : Nat) (misses : List Miss) : List String :=
  (misses.filter (·.offset = offset)).map Miss.expectation

theorem expectedAt_append (offset : Nat) (misses more : List Miss) :
    expectedAt offset (misses ++ more) = expectedAt offset misses ++ expectedAt offset more := by
  rw [expectedAt, List.filter_append, List.map_append]
  rfl

theorem mem_expectedAt {offset : Nat} {misses : List Miss} {x : String} :
    x ∈ expectedAt offset misses ↔ ∃ m ∈ misses, m.offset = offset ∧ m.expectation = x := by
  simp [expectedAt, and_assoc]

/-- What a report says of the failures that it counts: the greatest of their offsets, and what was
expected there, each expectation where it came first. -/
def Summarizes (misses : List Miss) : Report → Prop
  | none => misses = []
  | some (offset, expected) =>
    (∀ m ∈ misses, m.offset ≤ offset) ∧ (∃ m ∈ misses, m.offset = offset) ∧
      expected = (expectedAt offset misses).eraseDups

theorem Summarizes.add {misses : List Miss} {r : Report} (h : r.Summarizes misses) (m : Miss) :
    (r.add m).Summarizes (misses ++ [m]) := by
  have hsingle : expectedAt m.offset [m] = [m.expectation] := by simp [expectedAt]
  cases r with
  | none =>
    obtain rfl : misses = [] := h
    refine ⟨by simp, ⟨m, by simp, rfl⟩, ?_⟩
    rw [List.nil_append, hsingle]
    rfl
  | some f =>
    obtain ⟨offset, expected⟩ := f
    obtain ⟨hle, hattained, rfl⟩ := h
    have hmem : ∀ m' ∈ misses, m' ∈ misses ++ [m] := fun _ => List.mem_append_left _
    simp only [Report.add]
    split
    · rename_i hfurther
      refine ⟨List.forall_mem_append.mpr ⟨fun m' hm' => ?_, by simp⟩, ⟨m, by simp, rfl⟩, ?_⟩
      · exact Nat.le_trans (hle m' hm') (Nat.le_of_lt hfurther)
      · have hnone : expectedAt m.offset misses = [] := by
          rw [List.eq_nil_iff_forall_not_mem]
          rintro x hx
          obtain ⟨m', hm', heq, -⟩ := mem_expectedAt.mp hx
          have := hle m' hm'
          omega
        rw [expectedAt_append, hnone, hsingle]
        rfl
    · split
      · rename_i hsame
        subst hsame
        refine ⟨List.forall_mem_append.mpr ⟨hle, by simp⟩, ⟨m, by simp, rfl⟩, ?_⟩
        rw [expectedAt_append, hsingle, eraseDups_concat]
        simp only [List.contains_iff_mem, List.mem_eraseDups]
      · rename_i hfurther hsame
        obtain ⟨m', hm', heq⟩ := hattained
        refine ⟨List.forall_mem_append.mpr ⟨hle, by simpa using hfurther⟩,
          ⟨m', hmem m' hm', heq⟩, ?_⟩
        have hnone : expectedAt offset [m] = [] := by simp [expectedAt, hsame]
        rw [expectedAt_append, hnone, List.append_nil]

theorem Summarizes.addAll {misses : List Miss} {r : Report} (h : r.Summarizes misses)
    (more : List Miss) : (r.addAll more).Summarizes (misses ++ more) := by
  induction more generalizing r misses with
  | nil => rwa [List.append_nil]
  | cons m more ih =>
    have hrest := ih (h.add m)
    rwa [List.append_assoc, List.singleton_append] at hrest

theorem addAll_summarizes (misses : List Miss) :
    (Report.addAll none misses).Summarizes misses := by
  have hnone : Summarizes [] none := rfl
  exact hnone.addAll misses

section Expected

variable {misses : List Miss} {offset : Nat} {expected : List String}

theorem Summarizes.mem_iff (h : Summarizes misses (some (offset, expected))) {x : String} :
    x ∈ expected ↔ ∃ m ∈ misses, m.offset = offset ∧ m.expectation = x := by
  obtain ⟨-, -, rfl⟩ := h
  rw [List.mem_eraseDups, mem_expectedAt]

theorem Summarizes.ne_nil (h : Summarizes misses (some (offset, expected))) : expected ≠ [] := by
  obtain ⟨m, hm, hoffset⟩ := h.2.1
  exact List.ne_nil_of_mem (h.mem_iff.mpr ⟨m, hm, hoffset, rfl⟩)

theorem Summarizes.nodup (h : Summarizes misses (some (offset, expected))) : expected.Nodup := by
  obtain ⟨-, -, rfl⟩ := h
  exact nodup_eraseDups _

end Expected

end Report

/-! ## The furthest failure -/

/-- The failure of an alternative that gives up in a state. -/
def State.miss (s : State) (expectation : String) : Miss := ⟨s.cursor.offset, expectation, s.rules⟩

namespace Furthest

/-- What failed attempts amount to. The offset is the greatest of theirs; the expectations are those
of the attempts there, each where it came first; and the rules are the longest beginning that the
rules open at these attempts have in common. Without an attempt there is nothing to say. -/
def Sums (misses : List Miss) : Option Furthest → Prop
  | none => misses = []
  | some f =>
    (∀ m ∈ misses, m.offset ≤ f.offset) ∧ (∃ m ∈ misses, m.offset = f.offset) ∧
      f.expected = (Report.expectedAt f.offset misses).eraseDups ∧
      ∀ rules, rules <+: f.rules ↔ ∀ m ∈ misses, m.offset = f.offset → rules <+: m.rules

variable {misses : List Miss} {f : Option Furthest}

theorem sums_iff :
    Sums misses f ↔
      Report.Summarizes misses (f.map fun f => (f.offset, f.expected)) ∧
        ∀ g ∈ f, ∀ rules, rules <+: g.rules ↔
          ∀ m ∈ misses, m.offset = g.offset → rules <+: m.rules := by
  cases f with
  | none => simp [Sums, Report.Summarizes]
  | some f => simp [Sums, Report.Summarizes, and_assoc]

/-- One more failed attempt is counted in. -/
theorem Sums.note (h : Sums misses f) (m : Miss) :
    Sums (misses ++ [m]) (note f m.offset m.expectation m.rules) := by
  obtain ⟨hreport, hrules⟩ := sums_iff.mp h
  refine sums_iff.mpr ⟨note_report f m m.rules ▸ hreport.add m, fun g hg rules => ?_⟩
  rw [List.forall_mem_append, List.forall_mem_singleton]
  cases f with
  | none =>
    obtain rfl : misses = [] := h
    cases hg
    simp
  | some f =>
    have hle : ∀ m ∈ misses, m.offset ≤ f.offset := h.1
    rw [Furthest.note] at hg
    split at hg
    · rename_i hfurther
      cases hg
      have hnearer : ∀ m' ∈ misses, m'.offset = m.offset → rules <+: m'.rules := by
        intro m' hm' heq
        have := hle m' hm'
        omega
      exact ⟨fun hm => ⟨hnearer, fun _ => hm⟩, fun hm => hm.2 rfl⟩
    · split at hg
      · rename_i hsame
        cases hg
        rw [prefix_commonPrefix_iff, hrules f rfl]
        exact and_congr_right fun _ => ⟨fun hm _ => hm, fun hm => hm hsame⟩
      · rename_i hsame
        cases hg
        rw [hrules g rfl]
        exact (and_iff_left fun heq => absurd heq hsame).symm

end Furthest

/-! ## Steps of a scanner -/

/-- A step of a scanner that bears on its errors: an alternative fails, the place is changed, or a
rule is opened or closed. -/
inductive ScannerStep where
  | fail (expectation : String)
  | moveTo (cursor : Cursor)
  | enter (rule : Rule)
  | leave

namespace ScannerStep

def apply (s : State) : ScannerStep → State
  | fail expectation => s.note expectation
  | moveTo cursor => s.moveTo cursor
  | enter rule => s.enter rule
  | leave => s.leave

/-- The attempt that fails in a step, if it is one. -/
def miss? (s : State) : ScannerStep → Option Miss
  | fail expectation => some (s.miss expectation)
  | moveTo _ | enter _ | leave => none

/-- The state after steps. -/
def run (s : State) (steps : List ScannerStep) : State :=
  steps.foldl apply s

/-- The attempts that fail in steps, in order. -/
def misses : State → List ScannerStep → List Miss
  | _, [] => []
  | s, step :: steps => (step.miss? s).toList ++ misses (step.apply s) steps

/-- A step keeps the furthest failure what the attempts so far amount to. -/
theorem sums_apply {earlier : List Miss} {s : State} (h : Furthest.Sums earlier s.furthest)
    (step : ScannerStep) :
    Furthest.Sums (earlier ++ (step.miss? s).toList) (step.apply s).furthest := by
  cases step with
  | fail expectation => exact h.note (s.miss expectation)
  | moveTo | enter | leave =>
    rw [miss?, Option.toList_none, List.append_nil]
    exact h

theorem sums_run {earlier : List Miss} {s : State} (h : Furthest.Sums earlier s.furthest)
    (steps : List ScannerStep) :
    Furthest.Sums (earlier ++ misses s steps) (run s steps).furthest := by
  induction steps generalizing earlier s with
  | nil =>
    rw [misses, List.append_nil]
    exact h
  | cons step steps ih =>
    have hrest := ih (sums_apply h step)
    rwa [List.append_assoc] at hrest

end ScannerStep

/-- After any steps of a scanner, among them failed attempts at any places and inside of any rules,
the furthest failure is what these attempts amount to. -/
theorem furthest_of_steps (source : List Char) (steps : List ScannerStep) :
    Furthest.Sums (ScannerStep.misses (.initial source) steps)
      (ScannerStep.run (.initial source) steps).furthest := by
  have hstart : Furthest.Sums [] (State.initial source).furthest := rfl
  exact ScannerStep.sums_run hstart steps

end DhallSyntax
