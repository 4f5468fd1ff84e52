import DhallSyntax.Proofs.Parser.EntryPoints
import DhallSyntax.Proofs.Seam.Edge
import DhallSyntax.Proofs.Seam.Runs

/-!
The part of a source that an expression takes is a source of the same expression: no rule has to see
what is behind it. Main statement: `parse_taken`.
-/

namespace DhallSyntax

variable {settings : Settings} {source : List Char}

namespace Seam

/-- The cut behind an expression. -/
def cutting (rest : List Char) : Seam := ⟨[], rest, [], 0, .inl rfl, .inl rfl⟩

@[simp] theorem cutting_was (rest x : List Char) : (cutting rest).was x = x ++ rest := rfl

@[simp] theorem cutting_now (rest x : List Char) : (cutting rest).now x = x := List.append_nil x

theorem cutting_edge (rest : List Char) : (cutting rest).EdgeExpression [] := by
  refine edgeExpression ?_ rfl fun h => ?_
  · rw [cutting_now]
    exact Grammar.readBy_whitespace_tight (by rfl)
  · rw [cutting_now] at h
    cases h

/-- At the beginning of two sources nothing is known. -/
theorem Abreast.initial (T : Seam) (x : List Char) :
    T.Abreast [] x 0 x (.initial (T.was x)) (.initial (T.now x)) where
  was := .initial _
  now := .initial _
  wasRest := rfl
  nowRest := rfl
  depth := rfl
  keys _ _ _ := rfl

theorem Allows.refl (settings : Settings) : Allows 0 settings settings := ⟨rfl, fun _ h => h⟩

end Seam

/-- A run that takes the beginning of a source takes it when there is nothing else. -/
theorem start_taken {e : Expr} {x rest : List Char} {t : State}
    (h : Grammar.leadingExpression.start settings (.initial (x ++ rest)) = .value e t)
    (ht : t.cursor.rest = rest) :
    ∃ u, Grammar.leadingExpression.start settings (.initial x) = .value e u ∧
      u.cursor.rest = [] := by
  let T := Seam.cutting rest
  have hread : Grammar.leadingExpression.read (x ++ rest) = .value e rest :=
    ht ▸ (run_value (.initial _) h).1
  obtain ⟨n, hlands⟩ := Seam.lands_of_read (T := T) (y := []) hread
  have hsame := Seam.same_expression (Seam.cutting_edge rest) hlands
  rw [Grammar.start] at h
  have hrun : ¬ (Grammar.leadingExpression.run settings
      (callWithin Rule.body settings settings.stack) (.initial (x ++ rest))).IsAbort := by
    rw [h]
    exact id
  have hlockstep := hsame.run_now (.refl settings) (Nat.le_refl settings.stack)
    (.initial T x) hrun
  rw [show T.was x = x ++ rest from rfl, Seam.cutting_now, h] at hlockstep
  rw [Grammar.start]
  generalize Grammar.leadingExpression.run settings
    (callWithin Rule.body settings settings.stack) (.initial x) = r at hlockstep
  cases hlockstep with
  | @value _ _ _ u habreast => exact ⟨u, rfl, habreast.nowRest⟩

/-- What an expression takes of a source stands alone. -/
theorem parse_taken (settings : Settings) (source : String) (p : Prefix)
    (h : parsePrefix settings source = .ok p) :
    let taken := String.ofList (source.toList.take p.consumed)
    parse settings taken = .ok p.expression ∧ parsePrefix settings taken = .ok p := by
  intro taken
  obtain ⟨e, n⟩ := p
  obtain ⟨t, hstart, ht, hin, -⟩ := leadingExpression_state h
  have ht : t.cursor.offset = n := ht
  have hsource : source.toList = source.toList.take n ++ t.cursor.rest := by
    rw [hin.rest_eq, ht, List.take_append_drop]
  have htaken : taken.toList = source.toList.take n := String.toList_ofList
  have hlength : (source.toList.take n).length = n := by
    have hle : n ≤ source.toList.length := ht ▸ hin.offset_le
    rw [List.length_take, Nat.min_eq_left hle]
  rw [hsource] at hstart
  obtain ⟨u, hu, hrest⟩ := start_taken hstart rfl
  have hoffset : u.cursor.offset = n := by
    have hadd := (run_value (.initial _) hu).2.offset_add
    rw [hrest] at hadd
    exact hadd.trans hlength
  have hprefix : parsePrefix settings taken = .ok ⟨e, n⟩ := by
    unfold parsePrefix parsePrefixWith runFrom
    rw [htaken, hu]
    exact congrArg (fun k => Except.ok (Prefix.mk e k)) hoffset
  obtain ⟨-, -, hwhole, -, -⟩ := (parse_of_parsePrefix settings taken).2 _ hprefix
  have hnone : (source.toList.take n).drop n = [] := List.drop_eq_nil_of_le (Nat.le_of_eq hlength)
  refine ⟨hwhole ?_ ?_, hprefix⟩
  · rw [Whitespace.behind, htaken, hnone]
    rfl
  · rw [Whitespace.behind, htaken, hnone, hlength]
    rfl

/-- An index that turns out to be none is given back. -/
theorem parse_taken_index :
    ∃ p, parsePrefix ⟨some 4, true, 200⟩ "f x @ y" = .ok p ∧ p.consumed = 3 ∧
      parse ⟨some 4, true, 200⟩ "f x" = .ok (.app (.variable "f" 0) (.variable "x" 0)) ∧
      parsePrefix ⟨some 4, true, 200⟩ "f x" = .ok p := by
  have h : (parsePrefix ⟨some 4, true, 200⟩ "f x @ y").map
      (fun p => (p.expression, p.consumed)) =
        .ok (.app (.variable "f" 0) (.variable "x" 0), 3) :=
    eq_ok_of_toOption (by decide +kernel)
  cases hp : parsePrefix ⟨some 4, true, 200⟩ "f x @ y" with
  | error e => rw [hp] at h; cases h
  | ok p =>
    rw [hp] at h
    obtain ⟨he, hn⟩ := Prod.mk.inj (Except.ok.inj h)
    have htaken := parse_taken _ _ p hp
    rw [he, hn] at htaken
    exact ⟨p, rfl, hn, htaken⟩

end DhallSyntax
