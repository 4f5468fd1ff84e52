import DhallSyntax.Proofs.Context.Backtracking
import DhallSyntax.Proofs.Reading.Progress
import DhallSyntax.Proofs.Seam.Runs

/-!
A source inside another one. What is parsed as a whole is looked at as an expression with whitespace
around it; with a line ending and something more behind it, and anything in front of it, a call at
the same place ends as it did. Main statements:

* `exists_core`: the parts of a source that parses;
* `Core.keeps`: in the larger source the call of the expression does not end the parse, and its
  outcome is the one thing that is kept of what is inside;
* `parse_of_steady`: a steady way through a source is what its parse does.
-/

namespace DhallSyntax

open Grammar

variable {α : Type} {settings settings' : Settings} {source lead taken behind put : List Char} {e : Expr}
  {s t : State}

/-! ## Parses and runs -/

theorem Outcome.not_isAbort_of_value {q : Outcome α} {a : α} (h : q = .value a t) :
    ¬ q.IsAbort := by
  rw [h]
  exact id

theorem start_of_parse {source : String} (h : parse settings source = .ok e) :
    ∃ t, completeExpression.start settings (.initial source.toList) = .value e t ∧
      t.cursor.rest = [] := by
  unfold parse parseWith runFrom at h
  dsimp only at h
  cases hr : completeExpression.start settings (.initial source.toList) with
  | value a t =>
    rw [hr] at h
    dsimp only at h
    split at h
    · rename_i hnil
      cases h
      exact ⟨t, rfl, List.isEmpty_iff.mp hnil⟩
    · cases h
  | mismatch t => rw [hr] at h; cases h
  | abort a t => rw [hr] at h; cases h

/-- What is read as a whole is parsed if the run does not end the parse. -/
theorem parse_of_run {source : String} (h : completeExpression.read source.toList = .value e [])
    (hr : ¬ (completeExpression.run settings (callWithin Rule.body settings settings.stack)
      (.initial source.toList)).IsAbort) : parse settings source = .ok e := by
  obtain ⟨t, ht, -, hrest⟩ := run_of_value (.initial source.toList) h hr
  unfold parse parseWith runFrom
  rw [start, ht]
  dsimp only
  rw [hrest]
  rfl

/-- A steady way through a source is what its parse does. -/
theorem parse_of_steady {source : String} {S : Surroundings} {K : Memo → Prop}
    (hK : S.Keeps settings source.toList K) (hempty : K ∅) {levels : Nat}
    (h : Steady S levels 0 (.term completeExpression) source.toList (some (e, [])))
    (hn : levels + S.stack ≤ settings.stack) : parse settings source = .ok e := by
  refine parse_of_run h.read ?_
  exact (h.run hK settings.stack _ (.initial source.toList) rfl rfl hempty _ (Nat.le_refl _)).goesOn
    hn

/-! ## The parts of a source -/

/-- A source that is read as one expression with whitespace around it, and the state of its parse in
front of the expression. -/
structure Core (settings : Settings) (lead taken behind : List Char) (e : Expr) (s : State) :
    Prop where
  state : s.In (lead ++ taken ++ behind)
  rest : s.cursor.rest = taken ++ behind
  fresh : s.memo = ∅
  depth : s.depth = 0
  space : whitespace.read (lead ++ taken ++ behind) = .value () (taken ++ behind)
  read : (call .expression).read (taken ++ behind) = .value e behind
  run : ¬ ((call .expression).run settings (callWithin Rule.body settings settings.stack)
    s).IsAbort
  blank : whitespace.read behind = .value () []

theorem exists_core {source : String} (h : parse settings source = .ok e) :
    ∃ lead taken behind s, source.toList = lead ++ taken ++ behind ∧
      Core settings lead taken behind e s := by
  obtain ⟨t, hstart, -⟩ := start_of_parse h
  obtain ⟨_, u, hspace, hread⟩ := Reading.bind_eq_value.mp (parse_ok h)
  obtain ⟨e', behind, hexpr, hread⟩ := Reading.bind_eq_value.mp hread
  obtain ⟨_, w, hblank, hread⟩ := Reading.bind_eq_value.mp hread
  obtain ⟨rfl, rfl⟩ := Reading.value.inj (show Reading.value e' w = .value e [] from hread)
  obtain ⟨taken, rfl⟩ := readBy_leaves readers_leave _ _ e' behind hexpr
  obtain ⟨lead, hlead⟩ := readBy_leaves readers_leave _ _ () _ hspace
  have hsource : source.toList = lead ++ taken ++ behind := by
    rw [List.append_assoc]
    exact hlead.symm
  rw [hsource] at hspace hstart
  -- The run stands in front of the expression behind the whitespace that opens the source.
  have hspaces := run_callFree settings (callWithin Rule.body settings settings.stack) Rule.read
    whitespace (by simp [whitespace]) (.initial (lead ++ taken ++ behind)) rfl
  simp only [start, completeExpression, Bind.bind, run_bind] at hstart
  have hrun : ¬ (whitespace.run settings (callWithin Rule.body settings settings.stack)
      (.initial (lead ++ taken ++ behind))).IsAbort :=
    Seam.not_isAbort_of_andThen (Outcome.not_isAbort_of_value hstart)
  obtain ⟨s, hs, hin, hrest⟩ := run_of_value (.initial _) hspace hrun
  have hdepth := run_depth_eq settings settings.stack whitespace (.initial (lead ++ taken ++ behind))
  rw [hs] at hspaces hdepth hstart
  rw [Outcome.andThen] at hstart
  exact ⟨lead, taken, behind, s, hsource, {
    state := hin
    rest := hrest
    fresh := hspaces.memo
    depth := hdepth
    space := hspace
    read := hexpr
    run := Seam.not_isAbort_of_andThen (Outcome.not_isAbort_of_value hstart)
    blank := hblank }⟩

/-! ## The larger source -/

theorem Whitespace.starts_append (h : whitespace.read behind = .value () []) (put : List Char) :
    Whitespace.starts (behind ++ '\n' :: put) = true := by
  by_cases hover : Whitespace.Over behind
  · obtain rfl | rfl := hover <;> rfl
  have hclosed : Whitespace.chunk behind ≠ .unclosed := fun hc => by
    cases (readBy_whitespace_unclosed hc).symm.trans h
  have hstarts : Whitespace.starts behind = true :=
    (Whitespace.starts_of_read h).resolve_left fun hnil => hover (.inl hnil)
  obtain hc | ⟨-, hc⟩ := Whitespace.chunk_append hover hclosed put
  · rw [Whitespace.starts, hc]
    exact hstarts
  · rw [Whitespace.starts, hc]
    rfl

theorem Settings.admits_of_le {depth depth' : Nat} (h : settings.admits depth = true)
    (hd : depth' ≤ depth) : settings.admits depth' = true := by
  unfold Settings.admits at *
  split at h
  · exact decide_eq_true (Nat.le_trans hd (of_decide_eq_true h))
  · rfl

/-- Behind an expression and its whitespace the source ends, or goes on with a line ending and
something more. -/
def Seam.continued (h : whitespace.read behind = .value () []) (put : List Char) : Seam where
  common := behind
  cut := []
  put := '\n' :: put
  levels := 5
  apart := .inr ⟨rfl, '\n', put, rfl, .inr rfl⟩
  blank := .inr (Whitespace.starts_append h put)

theorem Seam.continued_was (h : whitespace.read behind = .value () []) (put x : List Char) :
    (continued h put).was x = x ++ behind :=
  congrArg (x ++ ·) (List.append_nil behind)

/-- The call of an expression in front of a seam, with some expressions open around it. -/
inductive Seam.Calls (T : Seam) (taken : List Char) (e : Expr) (deeper : Nat) :
    Nat → (rule : Rule) → List Char → Place rule.Result → Prop where
  | expression : Calls T taken e deeper deeper .expression (T.now taken) (some (e, T.now []))

/-- What is around an expression in front of a seam: outcomes may be stored in front of the text
that leads up to it, and behind it. -/
def Seam.around (T : Seam) (lead : List Char) (deeper stack : Nat)
    (h : T.Reads (call .expression) taken e []) : Surroundings where
  free t := (T.now (lead ++ taken)).length < t.length ∨ t.length ≤ (T.now []).length
  bound := deeper
  stack := stack + T.levels
  inner := T.Calls taken e deeper
  reads := by
    rintro _ _ _ _ ⟨⟩
    exact h.read_now

/-- Of the text that leads up to an expression, and of what it takes, nothing is known, or it is
known what the expression is. -/
def Beneath (settings : Settings) (outer lead taken : List Char) (memo : Memo) : Prop :=
  (∀ rule offset, outer.length ≤ offset → offset < outer.length + (lead ++ taken).length →
    Memo.knows memo rule offset = false) ∨
  settings.memoize = true ∧ Memo.knows memo .expression (outer.length + lead.length) = true

theorem Beneath.empty (settings : Settings) (outer lead taken : List Char) :
    Beneath settings outer lead taken ∅ :=
  .inl fun rule offset _ _ => Memo.knows_empty rule offset

/-- What is stored elsewhere changes nothing. -/
theorem Beneath.insert {outer : List Char} {memo : Memo} (h : Beneath settings outer lead taken memo)
    {rule : Rule} {offset : Nat} {entry : MemoEntry rule}
    (ho : offset < outer.length ∨ outer.length + (lead ++ taken).length ≤ offset) :
    Beneath settings outer lead taken (memo.insert (rule, offset) entry) := by
  obtain h | ⟨hm, h⟩ := h
  · refine .inl fun rule' offset' hlo hhi => ?_
    have hne : (rule, offset) ≠ (rule', offset') := by
      intro he
      have hoffset := congrArg Prod.snd he
      dsimp only at hoffset
      omega
    rw [Memo.knows_insert, h rule' offset' hlo hhi, Bool.or_false]
    exact decide_eq_false hne
  · exact .inr ⟨hm, by rw [Memo.knows_insert, h, Bool.or_true]⟩

namespace Core

section Larger

variable {T : Seam} {outer u : List Char} {deeper : Nat} (h : Core settings lead taken behind e s)

include h

theorem lands (hwas : ∀ x, T.was x = x ++ behind) : ∃ n, T.Lands n (call .expression) taken e [] := by
  refine Seam.lands_of_read ?_
  rw [hwas, hwas]
  exact h.read

theorem taken_head : ∃ c t, taken = c :: t ∧ Rule.expression.first c = true := by
  obtain ⟨n, hlands⟩ := h.lands (Seam.continued_was h.blank [])
  exact hlands.first

/-- The whitespace in front of the expression ends there with the line ending as well. -/
theorem space_now (put : List Char) :
    whitespace.read ((Seam.continued h.blank put).now (lead ++ taken)) =
      .value () ((Seam.continued h.blank put).now taken) := by
  obtain ⟨c, t, rfl, hc⟩ := h.taken_head
  obtain ⟨hover, -⟩ | ⟨-, hspace⟩ := readBy_whitespace_append h.space put
  · obtain hnil | hreturn := hover
    · cases hnil
    · rw [List.cons_append] at hreturn
      rw [List.head_eq_of_cons_eq hreturn] at hc
      exact absurd hc (by decide)
  · rw [List.append_assoc] at hspace
    rw [List.append_assoc (c :: t)] at hspace
    exact hspace

/-- So does the whitespace behind it. -/
theorem space_behind (hput : whitespace.read put = .value () u) :
    whitespace.read ((Seam.continued h.blank put).now []) = .value () u := by
  obtain ⟨-, hblank⟩ | ⟨hover, -⟩ := readBy_whitespace_append h.blank put
  · exact hblank.trans hput
  · exact absurd (.inl rfl) hover

/-- The expression is read in front of the line ending as well. -/
theorem reads_edge (hedge : (Seam.continued h.blank put).EdgeExpression u) :
    (Seam.continued h.blank put).Reads (call .expression) taken e [] := by
  obtain ⟨n, hlands⟩ := h.lands (Seam.continued_was h.blank put)
  exact Seam.carries_rule n .expression taken e [] hlands hedge.ends

theorem reads (hput : whitespace.read put = .value () u)
    (hu : u.head?.any (fun c => !([')', ']', '}', '>', ','].contains c)) = false) :
    (Seam.continued h.blank put).Reads (call .expression) taken e [] :=
  h.reads_edge (Seam.edgeExpression (h.space_behind hput) hu fun _ => Nat.le_refl 5)

/-- Where nothing is known of it, the expression in the larger source is called as in its own. -/
theorem abreast (hwas : ∀ x, T.was x = x ++ behind) (ht : t.In (outer ++ T.now (lead ++ taken)))
    (hrest : t.cursor.rest = T.now taken) (hdepth : t.depth = deeper)
    (hknows : ∀ rule offset, outer.length ≤ offset →
      offset < outer.length + (lead ++ taken).length → Memo.knows t.memo rule offset = false) :
    T.Abreast outer (lead ++ taken) deeper taken s t where
  was := hwas _ ▸ h.state
  now := ht
  wasRest := h.rest.trans (hwas taken).symm
  nowRest := hrest
  depth := by rw [hdepth, h.depth, Nat.zero_add]
  keys rule offset ho := by
    rw [h.fresh, Memo.knows_empty]
    exact hknows rule _ (Nat.le_add_right _ _) (by omega)

/-- The call of the expression in the larger source: it is recalled, or runs as it did. -/
theorem call_steadily (hT : T.Reads (call .expression) taken e []) (hwas : ∀ x, T.was x = x ++ behind)
    (hallows : Seam.Allows deeper settings settings') (ht : t.In (outer ++ T.now (lead ++ taken)))
    (hrest : t.cursor.rest = T.now taken) (hdepth : t.depth = deeper)
    (hm : Beneath settings' outer lead taken t.memo) (n : Nat) :
    (callWithin Rule.body settings' n .expression t).Steadily (settings.stack + T.levels ≤ n)
      (Beneath settings' outer lead taken) := by
  have hplace : t.cursor.offset = outer.length + lead.length := by
    have hadd := ht.offset_add
    rw [hrest] at hadd
    simp only [Seam.now, List.length_append] at hadd
    omega
  have hrecalls := settings'.recalls_eq .expression t
  rw [hplace] at hrecalls
  obtain hm | ⟨hmemo, hknown⟩ := hm
  · have habreast := h.abreast hwas ht hrest hdepth hm
    refine ⟨fun hn => ?_, fun hn => (hT.run_now hallows hn habreast h.run).not_isAbort⟩
    cases hmemo : settings'.memoize with
    | false =>
      refine .inl fun rule offset hlo hhi => ?_
      exact (callWithin_untouched .expression ht (.inl hmemo) rule).trans (hm rule offset hlo hhi)
    | true =>
      obtain _ | n := n
      · exact absurd trivial hn
      obtain ⟨c, r, rfl, -⟩ := h.taken_head
      have hfresh : settings'.recalls .expression t = false := by
        rw [hrecalls, hmemo, Bool.true_and]
        refine hm _ _ (Nat.le_add_right _ _) ?_
        rw [List.length_append, List.length_cons]
        omega
      have hrun : callWithin Rule.body settings' (n + 1) .expression t = _ := recallRule_fresh hfresh
      rw [hrun] at hn ⊢
      obtain ⟨hnone, -⟩ | ⟨-, entry, hkept⟩ := runRule_memo hn
      · cases hmemo.symm.trans hnone
      · refine .inr ⟨hmemo, ?_⟩
        rw [hkept, hplace, Memo.knows_insert]
        simp
  · obtain _ | n := n
    · refine ⟨fun hn => absurd trivial hn, fun hn => absurd ?_ h.run⟩
      rw [Nat.eq_zero_of_le_zero (Nat.le_trans (Nat.le_add_right _ _) hn)]
      exact trivial
    have hrecalled : settings'.recalls .expression t = true := by
      rw [hrecalls, hmemo, hknown]
      rfl
    obtain ⟨hn, hkept⟩ := recallRule_recalled
      ((Rule.body .expression).run settings' (callWithin Rule.body settings' n)) hrecalled
    exact ⟨fun _ => .inr ⟨hmemo, by rw [callWithin, hkept]; exact hknown⟩, fun _ => hn⟩

/-- In the larger source nothing is kept of what is inside but the expression. -/
theorem keeps (hT : T.Reads (call .expression) taken e []) (hwas : ∀ x, T.was x = x ++ behind)
    (hallows : Seam.Allows deeper settings settings') (outer : List Char) :
    (T.around lead deeper settings.stack hT).Keeps settings' (outer ++ T.now (lead ++ taken))
      (Beneath settings' outer lead taken) where
  admits depth hd := by
    have hzero : settings.admits 0 = true := by
      unfold Settings.admits
      split
      · exact decide_eq_true (Nat.zero_le _)
      · rfl
    have hdeep := hallows.admits 0 hzero
    rw [Nat.zero_add] at hdeep
    exact Settings.admits_of_le hdeep hd
  store memo rule offset entry ho hfree hm := by
    refine hm.insert ?_
    have hfree : (T.now (lead ++ taken)).length < _ ∨ _ ≤ (T.now []).length := hfree
    have hnow : (T.now (lead ++ taken)).length = (lead ++ taken).length + (T.now []).length :=
      Seam.now_length _
    rw [List.length_drop, List.length_append] at hfree
    rw [List.length_append] at ho
    omega
  inner := by
    rintro n _ t _ ht hcalls hm
    generalize hdepth : t.depth = d at hcalls
    generalize hrest : t.cursor.rest = r at hcalls
    cases hcalls with
    | expression => exact h.call_steadily hT hwas hallows ht hrest hdepth hm n

end Larger

end Core

end DhallSyntax
