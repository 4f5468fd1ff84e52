import DhallSyntax.Proofs.Context.Steady
import DhallSyntax.Proofs.Reading.Solid
import DhallSyntax.Proofs.Reading.Whitespace
import DhallSyntax.Tree.Equality

/-!
The two entry points of the parser read the same expression; one of them takes the whitespace behind
it as well and wants the end of the source there. Main statement: `parse_of_parsePrefix`.
-/

namespace DhallSyntax

variable {α : Type} {settings : Settings} {source : List Char}

theorem State.In.initial (source : List Char) : (State.initial source).In source :=
  ⟨State.Sound.initial Rule.body source, rfl⟩

/-- What a run yields stands in the same open rules. -/
theorem run_active {s t : State} (hs : s.In source) {n : Nat} {g : Grammar α} {a : α}
    (h : g.run settings (callWithin Rule.body settings n) s = .value a t) :
    t.active = s.active := by
  obtain ⟨-, ⟨-, _, _, _, hr, -⟩ | ⟨⟨_, _, hr, -⟩, -⟩ | ⟨k, -, -, hr⟩⟩ :=
    (run_accounted (callWithin_accounted n) g s hs.sound : Accounted Rule.body source settings n
      _ s (g.run settings (callWithin Rule.body settings n) s))
  · rw [h] at hr
    cases hr
  · rw [h] at hr
    cases hr
  · rw [h] at hr
    exact (Account.alike_value hr).2.active.symm

/-! ## The whitespace behind an expression -/

theorem Whitespace.extent_le (s : List Char) : (extent s).length ≤ s.length := by
  induction hl : s.length using Nat.strongRecOn generalizing s with
  | ind k ih =>
    subst hl
    cases hc : chunk s with
    | whole n =>
      obtain ⟨hpos, hle⟩ := chunk_length hc
      have hrest := ih _ (by rw [List.length_drop]; omega) (s.drop n) rfl
      rw [extent_whole hc]
      rw [List.length_drop] at hrest
      dsimp only
      omega
    | none | unclosed =>
      cases s with
      | nil => exact Nat.le_refl 0
      | cons c s =>
        rw [extent, extentWithin, hc]
        exact Nat.zero_le _

/-- Where skipping whitespace gets to in a source, and whether a comment there is never closed. -/
def Whitespace.behind (source : List Char) (offset : Nat) : Extent :=
  let e := extent (source.drop offset)
  ⟨offset + e.length, e.unclosed⟩

namespace Grammar

theorem run_whitespace (caller : Caller) (s : State) :
    whitespace.run settings caller s =
      if (Whitespace.extent s.cursor.rest).unclosed then
        let t := s.advance (Whitespace.extent s.cursor.rest).length
        (t.advance t.cursor.rest.length).abort (.defect .openComment) t.cursor.rest.length
      else .value () (s.advance (Whitespace.extent s.cursor.rest).length) := by
  cases hu : (Whitespace.extent s.cursor.rest).unclosed with
  | true => simp only [whitespace, run_bind, Bind.bind, Grammar.run, Outcome.andThen, hu, if_true]
  | false =>
    simp only [whitespace, run_bind, Bind.bind, Grammar.run, Outcome.andThen, hu, if_false,
      Bool.false_eq_true, Pure.pure]

/-- The expression behind leading whitespace, then the whitespace behind it. -/
theorem run_completeExpression (caller : Caller) (s : State) :
    completeExpression.run settings caller s =
      (leadingExpression.run settings caller s).andThen fun e t =>
        (whitespace.run settings caller t).andThen fun _ u => .value e u := by
  simp only [completeExpression, leadingExpression, Bind.bind, run_bind]
  cases whitespace.run settings caller s with
  | value _ t =>
    simp only [Outcome.andThen]
    rfl
  | mismatch t => rfl
  | abort a t => rfl

end Grammar

/-- The state behind an expression at the beginning of a source. -/
theorem leadingExpression_state {p : Prefix}
    (h : (parsePrefixWith settings source).result = .ok p) :
    ∃ t : State, Grammar.leadingExpression.start settings (.initial source) =
        .value p.expression t ∧ t.cursor.offset = p.consumed ∧ t.In source ∧ t.active = [] := by
  unfold parsePrefixWith runFrom at h
  dsimp only at h
  cases hr : Grammar.leadingExpression.start settings (.initial source) with
  | mismatch t => rw [hr] at h; cases h
  | abort a t => rw [hr] at h; cases h
  | value e t =>
    rw [hr] at h
    cases h
    exact ⟨t, rfl, rfl, (run_value (.initial source) hr).2, run_active (.initial source) hr⟩

/-- What does not begin with an expression is no expression, for the same reason. -/
theorem parseWith_of_error {error : ParseError}
    (h : (parsePrefixWith settings source).result = .error error) :
    (parseWith settings source).result = .error error := by
  unfold parsePrefixWith runFrom at h
  unfold parseWith runFrom
  dsimp only at h ⊢
  rw [Grammar.start] at h ⊢
  rw [Grammar.run_completeExpression]
  cases hr : Grammar.leadingExpression.run settings (callWithin Rule.body settings settings.stack)
    (.initial source) with
  | value e t => rw [hr] at h; cases h
  | mismatch t => rw [hr] at h; cases h; rfl
  | abort a t => rw [hr] at h; cases h; rfl

theorem parseWith_of_ok {p : Prefix} (h : (parsePrefixWith settings source).result = .ok p) :
    (parseWith settings source).result =
      let q := Whitespace.behind source p.consumed
      if q.unclosed then .error (.ofAbort source ⟨.defect .openComment, q.length, []⟩)
      else if q.length = source.length then .ok p.expression
      else .error (.ofTrailing source q.length (parsePrefixWith settings source).state.furthest) := by
  obtain ⟨t, hr, ht, hin, hactive⟩ := leadingExpression_state h
  have hstate : (parsePrefixWith settings source).state = t := by
    unfold parsePrefixWith runFrom
    rw [hr]
  have hrest : t.cursor.rest = source.drop p.consumed := ht ▸ hin.rest_eq
  have hle := Whitespace.extent_le t.cursor.rest
  have hoffset : (t.advance (Whitespace.extent t.cursor.rest).length).cursor.offset =
      p.consumed + (Whitespace.extent t.cursor.rest).length := by
    simp only [State.advance, Cursor.advance, List.length_take, Nat.min_eq_left hle, ht]
  unfold parseWith runFrom
  rw [Grammar.start] at hr ⊢
  rw [Grammar.run_completeExpression, hr, Outcome.andThen, Grammar.run_whitespace, hstate]
  simp only [Whitespace.behind, ← hrest]
  cases hu : (Whitespace.extent t.cursor.rest).unclosed with
  | true =>
    have hback : ∀ u : State,
        (u.advance u.cursor.rest.length).cursor.offset - u.cursor.rest.length =
          u.cursor.offset := fun u => by
      simp only [State.advance, Cursor.advance, List.take_length, Nat.add_sub_cancel]
    have hrules : ∀ n m, ((t.advance n).advance m).rules = [] := fun _ _ =>
      congrArg List.reverse hactive
    simp only [if_true, Outcome.andThen, State.abort, hback, hoffset, hrules]
  | false =>
    have hend : (t.advance (Whitespace.extent t.cursor.rest).length).cursor.rest.isEmpty = true ↔
        p.consumed + (Whitespace.extent t.cursor.rest).length = source.length := by
      have hlength := congrArg List.length hrest
      have hin' := hin.offset_le
      rw [List.length_drop] at hlength
      rw [List.isEmpty_iff, ← List.length_eq_zero_iff]
      simp only [State.advance, Cursor.advance, List.length_drop]
      omega
    simp only [Bool.false_eq_true, if_false, Outcome.andThen, hend, hoffset]
    split
    · rfl
    · rfl

theorem ofTrailing_eq (source : List Char) (offset : Nat) (furthest : Option Furthest) :
    ∃ error, ParseError.ofTrailing source offset furthest = .source error ∧
      error.kind = .trailing ∧ offset ≤ error.location.offset := by
  refine ⟨_, rfl, ?_⟩
  cases furthest with
  | none => exact ⟨rfl, Nat.le_refl offset⟩
  | some f =>
    dsimp only
    split
    · exact ⟨rfl, Nat.le_refl offset⟩
    · split
      · exact ⟨rfl, Nat.le_refl offset⟩
      · exact ⟨rfl, by simp only [Location.of]; omega⟩

/-- What is taken ends with the expression, not with whitespace behind it. -/
theorem consumed_solid {p : Prefix} (h : (parsePrefixWith settings source).result = .ok p) :
    ∃ x c, source.take p.consumed = x ++ [c] ∧ CharClass.blank c = false := by
  obtain ⟨t, hr, ht, hin, -⟩ := leadingExpression_state h
  have hread := (run_value (.initial source) hr).1
  simp only [Grammar.leadingExpression, Grammar.readBy_bind] at hread
  obtain ⟨_, u, hw, he⟩ := Reading.bind_eq_value.mp hread
  obtain ⟨y, hy⟩ := Grammar.readBy_leaves (fun rule s => (Rule.read_sourced rule s).leaves)
    Grammar.whitespace _ _ _ hw
  have hne : Rule.expression ≠ .letBinding := by decide
  obtain ⟨x, c, rfl, hc⟩ := Rule.read_solid hne he
  have hsource : source = y ++ x ++ [c] ++ source.drop p.consumed := by
    rw [← ht, ← hin.rest_eq]
    simpa [State.initial, Cursor.start] using hy.symm
  refine ⟨y ++ x, c, ?_, hc⟩
  have hlength := congrArg List.length hsource
  have hle := ht ▸ hin.offset_le
  simp only [List.length_append, List.length_drop] at hlength
  have htake := congrArg (List.take p.consumed) hsource
  rw [List.take_left' (by simp only [List.length_append]; omega)] at htake
  exact htake

/-- The entry points agree. -/
theorem parse_of_parsePrefix (settings : Settings) (source : String) :
    (∀ error, parsePrefix settings source = .error error →
      parse settings source = .error error) ∧
    ∀ p, parsePrefix settings source = .ok p →
      (∃ x c, source.toList.take p.consumed = x ++ [c] ∧ CharClass.blank c = false) ∧
      let q := Whitespace.behind source.toList p.consumed
      q.length ≤ source.toList.length ∧
      (q.unclosed = false → q.length = source.toList.length →
        parse settings source = .ok p.expression) ∧
      (q.unclosed = false → q.length < source.toList.length →
        ∃ error, parse settings source = .error (.source error) ∧ error.kind = .trailing ∧
          q.length ≤ error.location.offset) ∧
      (q.unclosed = true → parse settings source =
        .error (.ofAbort source.toList ⟨.defect .openComment, q.length, []⟩)) := by
  refine ⟨fun error => parseWith_of_error, fun p hp => ⟨consumed_solid hp, ?_⟩⟩
  have hparse : parse settings source = _ := parseWith_of_ok hp
  obtain ⟨t, -, ht, hin, -⟩ := leadingExpression_state hp
  intro q
  have hle : q.length ≤ source.toList.length := by
    have hextent := Whitespace.extent_le (source.toList.drop p.consumed)
    have hoffset := ht ▸ hin.offset_le
    rw [List.length_drop] at hextent
    simp only [q, Whitespace.behind]
    omega
  refine ⟨hle, fun hu hq => ?_, fun hu hq => ?_, fun hu => ?_⟩
  · rw [hparse]
    simp only [q] at hu hq
    simp only [hu, hq, Bool.false_eq_true, if_false, if_true]
  · obtain ⟨error, herror, hkind, hoffset⟩ := ofTrailing_eq source.toList q.length
      (parsePrefixWith settings source.toList).state.furthest
    refine ⟨error, ?_, hkind, hoffset⟩
    rw [hparse]
    simp only [q] at hu hq herror
    simp only [hu, Nat.ne_of_lt hq, Bool.false_eq_true, if_false, herror]
  · rw [hparse]
    simp only [q] at hu
    simp only [hu, if_true, q]

/-- Errors can be compared, prefixes need not be. -/
theorem eq_error_of_elim {r : Except ParseError α} {error : ParseError}
    (h : (match r with | .error e => some e | .ok _ => none) = some error) : r = .error error := by
  cases r with
  | error e => exact congrArg Except.error (Option.some.inj h)
  | ok a => cases h

/-- A comment that is never closed is met where an expression may go on, so that both entry points
report it. -/
theorem parse_of_parsePrefix_variable :
    parse ⟨some 4, true, 200⟩ "x -- y" = .ok (.variable "x" 0) ∧
      (∃ error, parse ⟨some 4, true, 200⟩ "x -- y\n)" = .error (.source error) ∧
        error.kind = .trailing ∧ 7 ≤ error.location.offset) ∧
      parse ⟨some 4, true, 200⟩ "x \x7b-" =
        .error (.ofAbort "x \x7b-".toList ⟨.defect .openComment, 2, [.expression,
          .arrowExpression, .operatorExpression, .applicationExpression,
          .firstApplicationExpression, .importExpression, .selectorExpression,
          .primitiveExpression, .identifier]⟩) := by
  have hprefix : ∀ source ∈ ["x -- y", "x -- y\n)"], ∃ p,
      parsePrefix ⟨some 4, true, 200⟩ source = .ok p ∧ p.expression = .variable "x" 0 ∧
        p.consumed = 1 := by
    intro source hs
    have h : (parsePrefix ⟨some 4, true, 200⟩ source).map
        (fun p => (p.expression, p.consumed)) = .ok (.variable "x" 0, 1) := by
      simp only [List.mem_cons, List.not_mem_nil, or_false] at hs
      obtain rfl | rfl := hs <;> exact eq_ok_of_toOption (by decide +kernel)
    cases hp : parsePrefix ⟨some 4, true, 200⟩ source with
    | error e => rw [hp] at h; cases h
    | ok p =>
      rw [hp] at h
      injection h with h
      exact ⟨p, rfl, congrArg Prod.fst h, congrArg Prod.snd h⟩
  obtain ⟨p, hp, he, hn⟩ := hprefix "x -- y" (by decide)
  obtain ⟨p', hp', -, hn'⟩ := hprefix "x -- y\n)" (by decide)
  obtain ⟨-, -, hwhole, -, -⟩ := (parse_of_parsePrefix _ _).2 p hp
  obtain ⟨-, -, -, htrailing, -⟩ := (parse_of_parsePrefix _ _).2 p' hp'
  rw [hn, he] at hwhole
  rw [hn'] at htrailing
  refine ⟨hwhole (by decide) (by decide), htrailing (by decide) (by decide), ?_⟩
  exact (parse_of_parsePrefix _ _).1 _ (eq_error_of_elim (by decide +kernel))

end DhallSyntax
