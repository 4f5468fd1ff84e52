import DhallSyntax.Proofs.Outcome
import DhallSyntax.Proofs.Text.CharClass
import DhallSyntax.Yaml.Cursor

/-!
Places in YAML texts: what is left behind a number of characters, and in which line and column that
begins. Main statements: `Cursor.forward_run`, a run without line breaks goes on in its line;
`Cursor.column_newLine`, the indentation of a line is the column behind it.
-/

namespace DhallSyntax.Yaml

/-! ## Classes of characters -/

theorem isBreak_iff {c : Char} :
    isBreak c = true ↔ c = '\n' ∨ c = '\x85' ∨ c = '\u2028' ∨ c = '\u2029' := by
  simp only [isBreak, Bool.or_eq_true, beq_iff_eq, or_assoc]

theorem isBlankOrBreak_of_break {c : Char} (h : isBreak c = true) : isBlankOrBreak c = true := by
  simp [isBlankOrBreak, isAnyBreak, h]

theorem isBlankOrBreak_eq_false {c : Char} :
    isBlankOrBreak c = false ↔ c ≠ ' ' ∧ c ≠ '\t' ∧ c ≠ '\r' ∧ isBreak c = false := by
  simp only [isBlankOrBreak, isAnyBreak, Bool.or_eq_false_iff, beq_eq_false_iff_ne, and_assoc]

/-- A text does not go on with a blank or a line break. -/
def BeginsSolid (s : List Char) : Prop := s.head?.all (fun c => !isBlankOrBreak c) = true

theorem BeginsSolid.head?_ne_space {s : List Char} (h : BeginsSolid s) : s.head? ≠ some ' ' := by
  intro hs
  rw [BeginsSolid, hs] at h
  cases h

theorem BeginsSolid.head?_not_break {s : List Char} (h : BeginsSolid s) :
    s.head?.all (fun c => !isAnyBreak c) = true := by
  cases s with
  | nil => rfl
  | cons c s =>
    have hsolid : isBlankOrBreak c = false := by simpa [BeginsSolid] using h
    simp [isAnyBreak, isBlankOrBreak_eq_false.mp hsolid]

/-! ## Places -/

namespace Cursor

variable {place : Cursor} {s rest : List Char} {c : Char}

@[simp] theorem next_rest (place : Cursor) : place.next.rest = place.rest.tail := by
  unfold next
  split
  · simp_all
  · split <;> simp_all

@[simp] theorem forward_zero (place : Cursor) : place.forward 0 = place := rfl

theorem forward_add (m n : Nat) (place : Cursor) :
    (place.forward m).forward n = place.forward (m + n) := by
  induction m generalizing place with
  | zero => rw [Nat.zero_add, forward_zero]
  | succ m ih => rw [Nat.succ_add]; exact ih place.next

@[simp] theorem forward_rest (n : Nat) (place : Cursor) :
    (place.forward n).rest = place.rest.drop n := by
  induction n generalizing place with
  | zero => rfl
  | succ n ih => rw [forward, ih, next_rest, List.drop_tail]

theorem forward_rest_append (h : place.rest = s ++ rest) :
    (place.forward s.length).rest = rest := by
  rw [forward_rest, h, List.drop_left]

theorem forward_rest_cons (h : place.rest = c :: rest) : (place.forward 1).rest = rest := by
  rw [forward_rest, h, List.drop_one, List.tail_cons]

theorem forward_rest_length_le (h : place.rest = c :: rest) (n : Nat) :
    (place.forward (n + 1)).rest.length ≤ rest.length := by
  rw [forward_rest, h, List.drop_succ_cons, List.length_drop]
  exact Nat.sub_le _ _

/-- A bound of the length of a rest with a character allows one more step. -/
theorem exists_bound {bound : List Char} (h : place.rest = c :: rest)
    (hbound : place.rest.length ≤ bound.length) :
    ∃ b bs, bound = b :: bs ∧ rest.length ≤ bs.length := by
  rw [h] at hbound
  cases bound with
  | nil => exact absurd hbound (Nat.not_succ_le_zero _)
  | cons b bs => exact ⟨b, bs, rfl, Nat.le_of_succ_le_succ hbound⟩

theorem forward_rest_replicate {n : Nat} (h : place.rest = List.replicate n c ++ rest) :
    (place.forward n).rest = rest := by
  rw [forward_rest, h, List.drop_left' List.length_replicate]

theorem forward_rest_newLine {n : Nat} (h : place.rest = '\n' :: List.replicate n c ++ rest) :
    (place.forward (n + 1)).rest = rest :=
  @forward_rest_replicate place.next _ _ _ (forward_rest_cons h)

theorem line_le_next (place : Cursor) : place.line ≤ place.next.line := by
  unfold next
  split
  · exact Nat.le_refl _
  · split
    · exact Nat.le_succ _
    · exact Nat.le_refl _

theorem line_le_forward (n : Nat) (place : Cursor) : place.line ≤ (place.forward n).line := by
  induction n generalizing place with
  | zero => exact Nat.le_refl _
  | succ n ih => exact Nat.le_trans (line_le_next place) (ih place.next)

/-- A character that neither ends a line nor is a byte order mark takes one column. -/
def IsWide (c : Char) : Prop := isAnyBreak c = false ∧ c ≠ '\ufeff'

instance (c : Char) : Decidable (IsWide c) := inferInstanceAs (Decidable (_ ∧ _))

theorem next_wide (h : place.rest = c :: rest) (hc : IsWide c) :
    place.next = ⟨rest, place.offset + 1, place.line, place.column + 1⟩ := by
  obtain ⟨hbreak, hmark⟩ := hc
  simp only [isAnyBreak, Bool.or_eq_false_iff] at hbreak
  have hends : endsLine c rest = false := by simp [endsLine, hbreak]
  simp [next, h, hends, hmark]

/-- A run in which no line ends. -/
theorem forward_run (h : place.rest = s ++ rest) (hs : ∀ c ∈ s, IsWide c) :
    place.forward s.length =
      ⟨rest, place.offset + s.length, place.line, place.column + s.length⟩ := by
  induction s generalizing place with
  | nil =>
    rw [List.nil_append] at h
    subst h
    rfl
  | cons c s ih =>
    have hnext := next_wide h (hs c List.mem_cons_self)
    have hrest : place.next.rest = s ++ rest := congrArg Cursor.rest hnext
    rw [List.length_cons, forward, ih hrest fun c hc => hs c (List.mem_cons_of_mem _ hc), hnext]
    simp only [Nat.add_assoc, Nat.add_comm 1]

theorem next_newLine (h : place.rest = '\n' :: rest) :
    place.next = ⟨rest, place.offset + 1, place.line + 1, 0⟩ := by
  have hends : endsLine '\n' rest = true := rfl
  simp [next, h, hends]

/-- Behind a line break and an indentation. -/
theorem forward_newLine {indent : Nat}
    (h : place.rest = '\n' :: (List.replicate indent ' ' ++ rest)) :
    place.forward (indent + 1) = ⟨rest, place.offset + 1 + indent, place.line + 1, indent⟩ := by
  have hnext := next_newLine h
  have hspaces : place.next.rest = List.replicate indent ' ' ++ rest := by rw [hnext]
  have hrun := forward_run hspaces fun c hc => by rw [List.eq_of_mem_replicate hc]; decide
  rw [List.length_replicate] at hrun
  rw [forward, hrun, hnext, Nat.zero_add]

end Cursor

/-! ## Steps of reading -/

namespace Scan

variable {place : Cursor} {s rest : List Char} {c : Char}

theorem run_skip (n : Nat) (place : Cursor) : (skip n).run place = .ok ((), place.forward n) := rfl

theorem run_peek (n : Nat) (place : Cursor) : (peek n).run place = .ok (place.rest[n]?, place) :=
  rfl

theorem run_takeWhile {chars : CharClass} (h : place.rest = s ++ rest)
    (hs : ∀ c ∈ s, chars c = true) (hrest : rest.head?.all (fun c => !chars c) = true) :
    (takeWhile chars).run place = .ok (s, place.forward s.length) := by
  have htake : place.rest.takeWhile chars = s := by
    rw [h, List.takeWhile_append_of_pos hs]
    cases rest with
    | nil => simp
    | cons c rest => simp_all
  simp only [takeWhile, StateT.run_bind, StateT.run_get, pure_bind, htake, run_skip, ok_bind,
    StateT.run_pure]
  rfl

theorem run_takeWhile_spaces {n : Nat} (h : place.rest = List.replicate n ' ' ++ rest)
    (hrest : rest.head? ≠ some ' ') :
    (takeWhile (· == ' ')).run place = .ok (List.replicate n ' ', place.forward n) := by
  have hspaces : ∀ c ∈ List.replicate n ' ', (c == ' ') = true := fun c hc => by
    simp [List.eq_of_mem_replicate hc]
  have hstop : rest.head?.all (fun c => !(c == ' ')) = true := by
    cases rest with
    | nil => rfl
    | cons c rest => simpa using hrest
  have hrun := run_takeWhile h hspaces hstop
  rwa [List.length_replicate] at hrun

theorem run_skipSpaces {n : Nat} (h : place.rest = List.replicate n ' ' ++ rest)
    (hrest : rest.head? ≠ some ' ') : skipSpaces.run place = .ok ((), place.forward n) := by
  simp only [skipSpaces, StateT.run_bind, run_takeWhile_spaces h hrest, ok_bind]
  rfl

/-- What a line break is read as. -/
def readBreak (c : Char) : Char := if c == '\x85' then '\n' else c

theorem run_lineBreak (h : place.rest = c :: rest) (hc : isBreak c = true) :
    lineBreak?.run place = .ok (some (readBreak c), place.forward 1) := by
  simp only [lineBreak?, StateT.run_bind, StateT.run_get, pure_bind, h]
  obtain rfl | rfl | rfl | rfl := isBreak_iff.mp hc <;> rfl

theorem run_lineBreak_none (h : place.rest.head?.all (fun c => !isAnyBreak c) = true) :
    lineBreak?.run place = .ok (none, place) := by
  simp only [lineBreak?, StateT.run_bind, StateT.run_get, pure_bind]
  cases hrest : place.rest with
  | nil => rfl
  | cons c rest =>
    rw [hrest] at h
    have hc : isAnyBreak c = false := by simpa using h
    have hr : c ≠ '\r' := by rintro rfl; cases hc
    have hseparator : (c == '\u2028' || c == '\u2029') = false := by
      refine Bool.eq_false_iff.mpr fun hsep => ?_
      obtain hsep | hsep := Bool.or_eq_true_iff.mp hsep <;>
        · obtain rfl := eq_of_beq hsep
          cases hc
    split
    · rename_i heq
      exact absurd (List.cons.inj heq).1 hr
    · rename_i heq
      obtain rfl := (List.cons.inj heq).1
      rw [hseparator, hc]
      rfl
    · rename_i heq
      nomatch heq

theorem run_lineBreak_solid (h : place.rest = rest) (hrest : BeginsSolid rest) :
    lineBreak?.run place = .ok (none, place) :=
  run_lineBreak_none (h ▸ hrest.head?_not_break)

end Scan

end DhallSyntax.Yaml
