import DhallSyntax.Proofs.Context.Whole
import DhallSyntax.Proofs.Literal.MultiLine
import DhallSyntax.Proofs.Reading.TextValues
import DhallSyntax.Proofs.Reading.Texts

/-!
Multi-line text literals without interpolations. Main statement: `parse_multiLine`, the texts that
such a literal is parsed to are the multi-line texts, each of which is the text of its encoding.
-/

namespace DhallSyntax

open Grammar CharClass

variable {S : Surroundings} {levels depth : Nat} {draft : TextDraft} {x p t s rest : List Char}

/-! ## One step -/

/-- What a step does where no interpolation begins. -/
def multiLineRest (draft : TextDraft) : Grammar (TextDraft ⊕ Expr) := do
  if ← accept "'''" then
    return .inl (draft.add ['\'', '\''])
  else if ← accept "''$\x7b" then
    return .inl (draft.add ['$', '{'])
  else if ← accept "''" then
    return .inr draft.build
  else if ← accept "\r\n" then
    return .inl (draft.add ['\r', '\n'])
  else
    match ← takeIf fun c => c == '\t' || c == '\n' || printable c with
    | some c => return .inl (draft.add [c])
    | none => fail "a text character or \"''\""

theorem callFree_multiLineRest (draft : TextDraft) : (multiLineRest draft).CallFree := by
  simp only [multiLineRest, doesOnly_bind, doesOnly_ite, doesOnly_accept, doesOnly_pure,
    doesOnly_takeIf, implies_true, true_and]
  intro _ _ _ _ _ _ _ _ c?
  cases c? <;> simp

theorem steady_singleQuoteStep {r : TextDraft ⊕ Expr} (hmark : ¬ ['$', '{'] <+: x)
    (hread : (multiLineRest draft).read x = .value r t) :
    Steady S levels depth (.term (singleQuoteStep draft)) x (some (r, t)) :=
  .bind (.plain trivial (readBy_accept_of_not hmark))
    (.plain (callFree_multiLineRest draft) hread)

theorem plainChar_iff {c : Char} :
    PlainChar c ↔ (c == '\t' || c == '\n' || printable c) = true := by
  simp [PlainChar, or_assoc]

theorem Piece.steady (h : Piece x p t) (draft : TextDraft) :
    Steady S levels depth (.term (singleQuoteStep draft)) x (some (.inl (draft.add p), t)) := by
  cases h with
  | pair | mark | lineEnd => exact steady_singleQuoteStep (by simp) rfl
  | @char c _ hplain hmark hpair =>
    refine steady_singleQuoteStep hmark ?_
    have htwo : ¬ "''".toList <+: c :: t := hpair
    have hthree : ¬ "'''".toList <+: c :: t := fun h =>
      hpair ((List.prefix_append ['\'', '\''] ['\'']).trans h)
    have hescaped : ¬ "''$\x7b".toList <+: c :: t := fun h =>
      hpair ((List.prefix_append ['\'', '\''] ['$', '{']).trans h)
    have hline : ¬ "\r\n".toList <+: c :: t := by
      rintro ⟨u, hu⟩
      obtain rfl : '\r' = c := (List.cons.inj hu).1
      exact absurd (plainChar_iff.mp hplain) (by decide)
    simp only [Grammar.read, multiLineRest, readBy_bind, readBy_accept_of_not hthree,
      readBy_accept_of_not hescaped, readBy_accept_of_not htwo,
      readBy_accept_of_not hline, Reading.bind_value, Bool.false_eq_true, if_false,
      readBy_takeIf_cons, plainChar_iff.mp hplain, if_true, readBy_pure]

theorem Piece.length_lt (h : Piece x p t) : t.length < x.length := by
  cases h <;> simp only [List.length_cons] <;> omega

/-! ## Bodies are read as their texts -/

theorem Body.steady (h : Body x s rest) (draft : TextDraft) :
    Steady S levels depth (.loop singleQuoteStep draft) x
      (some ((draft.add s).build, rest)) := by
  induction h generalizing draft with
  | @close t hquote hmark =>
    refine .last (steady_singleQuoteStep (by simp) ?_)
    have hthree : ¬ "'''".toList <+: '\'' :: '\'' :: t := fun ⟨u, hu⟩ =>
      hquote (congrArg (fun s => (s.drop 2).head?) hu).symm
    have hescaped : ¬ "''$\x7b".toList <+: '\'' :: '\'' :: t := fun ⟨u, hu⟩ =>
      hmark ⟨u, congrArg (List.drop 2) hu⟩
    simp only [Grammar.read, multiLineRest, readBy_bind, readBy_accept_of_not hthree,
      readBy_accept_of_not hescaped, Reading.bind_value, Bool.false_eq_true, if_false]
    rfl
  | @piece x p t s rest hp _ ih =>
    rw [← TextDraft.add_add]
    exact .next (hp.steady draft) hp.length_lt (ih (draft.add p))

/-! ## What is read is the text of a body -/

/-- A step adds an interpolation, ends the body, or takes a piece of it. -/
theorem read_singleQuoteStep {r : TextDraft ⊕ Expr}
    (h : (singleQuoteStep draft).read x = .value r t) :
    (∃ e, r = .inl (draft.interpolate e)) ∨ (r = .inr draft.build ∧ Body x [] t) ∨
      ∃ p, r = .inl (draft.add p) ∧ Piece x p t := by
  replace h := readBy_accept_eq_value h
  obtain ⟨u, rfl, h⟩ | ⟨hmark, h⟩ := h
  · obtain ⟨draft', u', hdraft, h⟩ := Reading.bind_eq_value.mp h
    obtain ⟨e, _, -, hdraft⟩ := Reading.bind_eq_value.mp hdraft
    obtain ⟨_, _, -, hdraft⟩ := Reading.bind_eq_value.mp hdraft
    cases hdraft
    cases h
    exact .inl ⟨e, rfl⟩
  replace h := readBy_accept_eq_value h
  obtain ⟨u, rfl, h⟩ | ⟨hthree, h⟩ := h
  · cases h
    exact .inr (.inr ⟨_, rfl, .pair⟩)
  replace h := readBy_accept_eq_value h
  obtain ⟨u, rfl, h⟩ | ⟨hescaped, h⟩ := h
  · cases h
    exact .inr (.inr ⟨_, rfl, .mark⟩)
  replace h := readBy_accept_eq_value h
  obtain ⟨u, rfl, h⟩ | ⟨hpair, h⟩ := h
  · cases h
    refine .inr (.inl ⟨rfl, .close (fun hquote => ?_) fun ⟨u, hu⟩ => ?_⟩)
    · obtain ⟨u, rfl⟩ := List.head?_eq_some_iff.mp hquote
      exact hthree ⟨u, rfl⟩
    · exact hescaped ⟨u, congrArg (['\'', '\''] ++ ·) hu⟩
  replace h := readBy_accept_eq_value h
  obtain ⟨u, rfl, h⟩ | ⟨-, h⟩ := h
  · cases h
    exact .inr (.inr ⟨_, rfl, .lineEnd⟩)
  cases x with
  | nil => cases h
  | cons c x =>
    rw [if_neg Bool.false_ne_true, readBy_bind, readBy_takeIf_cons] at h
    split at h
    · rename_i hc
      cases h
      exact .inr (.inr ⟨_, rfl, .char (plainChar_iff.mpr hc) hmark hpair⟩)
    · cases h

/-- A text without interpolations that is read from a body is what was collected before, with the
text of the body behind it. -/
theorem body_of_read {text : String} {bound : List Char}
    (h : Reading.iterateWithin (fun draft x => (singleQuoteStep draft).read x) bound draft x =
      .value (.text [] text) rest) :
    draft.chunks = [] ∧ ∃ s, text.toList = draft.buffer.reverse ++ s ∧ Body x s rest := by
  refine Reading.iterateWithin_induction (P := fun draft x => draft.chunks = [] ∧
    ∃ s, text.toList = draft.buffer.reverse ++ s ∧ Body x s rest) ?_ ?_ h
  · intro draft x hstep
    obtain ⟨e, he⟩ | ⟨hr, hbody⟩ | ⟨p, hp, -⟩ := read_singleQuoteStep hstep
    · cases he
    · have hbuild : draft.build = .text [] text := (Sum.inr.inj hr).symm
      simp only [TextDraft.build, Tree.text.injEq, List.reverse_eq_nil_iff] at hbuild
      refine ⟨hbuild.1, [], ?_, hbody⟩
      rw [← hbuild.2, String.toList_ofList, List.append_nil]
    · cases hp
  · rintro draft x draft' x' hstep ⟨hchunks, s, htext, hbody⟩
    obtain ⟨e, he⟩ | ⟨hr, -⟩ | ⟨p, hp, hpiece⟩ := read_singleQuoteStep hstep
    · rw [Sum.inl.inj he] at hchunks
      cases hchunks
    · cases hr
    · rw [Sum.inl.inj hp] at hchunks htext
      refine ⟨hchunks, p ++ s, ?_, .piece hpiece hbody⟩
      rw [htext, TextDraft.add, List.reverse_append, List.reverse_reverse, List.append_assoc]

/-! ## Whole texts -/

variable {settings : Settings}

/-- Between two quotes with a line feed behind them and the end of the source, a body is parsed to
the text that it stands for. -/
theorem parse_of_body (h : settings.Ample) (hbody : Body x s []) :
    parse settings (String.ofList ('\'' :: '\'' :: '\n' :: x)) =
      .ok (.text [] (String.ofList s)) := by
  have hloop : Steady .single 0 1 (.loop singleQuoteStep .empty) x
      (some (.text [] (String.ofList s), [])) := by
    rw [← TextDraft.build_add]
    exact hbody.steady .empty
  have hliteral : Steady .single 1 1 (.term (call .singleQuoteLiteral))
      ('\'' :: '\'' :: '\n' :: x) (some (.text [] (String.ofList s), [])) :=
    .call trivial (.bind (u := '\n' :: x) (.plain (by simp) rfl)
      (.bind (u := x) (.plain (by simp) rfl) (.iterate hloop)))
  have hdouble : Steady .single 1 1 (.term (call .doubleQuoteLiteral))
      ('\'' :: '\'' :: '\n' :: x) none :=
    steady_head Rule.opens_doubleQuoteLiteral rfl trivial (by decide)
  exact parse_literal h rfl rfl (steady_primitive (by decide) trivial (.left (.call trivial
    (.right hdouble (.left hliteral)))))

/-- Whatever else a text without interpolations is parsed from, it is the text of a body. -/
theorem body_of_parse {text : String}
    (h : parse settings (String.ofList ('\'' :: '\'' :: '\n' :: x)) = .ok (.text [] text)) :
    ∃ rest, Body x text.toList rest := by
  have hread := parse_ok h
  rw [String.toList_ofList] at hread
  obtain ⟨_, u, hspace, hread⟩ := Reading.bind_eq_value.mp hread
  rw [readBy_whitespace_tight rfl] at hspace
  cases hspace
  obtain ⟨e, u, hexpression, hread⟩ := Reading.bind_eq_value.mp hread
  obtain ⟨_, _, -, hread⟩ := Reading.bind_eq_value.mp hread
  cases hread
  obtain ⟨rest, hliteral⟩ := textFrom_singleQuoteLiteral rfl [] text u hexpression
  replace hliteral := (Rule.read_eq .singleQuoteLiteral _).symm.trans hliteral
  obtain ⟨-, s, hs, hbody⟩ := body_of_read hliteral
  exact ⟨rest, hs ▸ hbody⟩

/-- The texts that a multi-line literal without interpolations can be parsed to are those in which
every character may stand for itself, or is a carriage return in front of a line feed, and every run
of quotes in front of an interpolation mark or at the end has an even number of them. Each of them is
what its encoding is parsed to. -/
theorem parse_multiLine (settings : Settings) (h : settings.Ample) (s : String) :
    ((∃ b : String, parse settings ("''\n" ++ b ++ "''") = .ok (.text [] s)) ↔
      MultiLine s.toList) ∧
    (MultiLine s.toList →
      parse settings ("''\n" ++ String.ofList (encode s.toList) ++ "''") = .ok (.text [] s)) := by
  have hsource : ∀ b : String, "''\n" ++ b ++ "''" =
      String.ofList ('\'' :: '\'' :: '\n' :: (b.toList ++ ['\'', '\''])) := by
    intro b
    rw [← String.toList_inj]
    simp
  have hencode : MultiLine s.toList →
      parse settings ("''\n" ++ String.ofList (encode s.toList) ++ "''") = .ok (.text [] s) := by
    intro hs
    rw [hsource, String.toList_ofList]
    refine (parse_of_body h hs.body).trans ?_
    rw [String.ofList_toList]
  refine ⟨⟨?_, fun hs => ⟨_, hencode hs⟩⟩, hencode⟩
  rintro ⟨b, hb⟩
  rw [hsource] at hb
  obtain ⟨rest, hbody⟩ := body_of_parse hb
  exact hbody.multiLine

/-- Runs of quotes in front of a mark, in front of a line ending and at the end. -/
theorem parse_multiLine_quotes :
    let s := "a''''$\x7b'\r\n\t''"
    Settings.standard.Ample ∧ MultiLine s.toList ∧
      parse .standard "''\na''''''''$\x7b'\r\n\t'''''" = .ok (.text [] s) := by
  intro s
  have hchars : s.toList = ['a', '\'', '\'', '\'', '\'', '$', '{', '\'', '\r', '\n', '\t', '\'',
    '\''] := by decide
  have hs : MultiLine s.toList := by
    rw [hchars, MultiLine.cons_iff (by decide), MultiLine.pair_iff, MultiLine.pair_iff,
      MultiLine.mark_iff, MultiLine.single_iff (by decide), MultiLine.cons_iff (by decide),
      MultiLine.cons_iff (by decide), MultiLine.cons_iff (by decide), MultiLine.pair_iff]
    have hplain : PlainChar 'a' ∧ PlainChar '\n' ∧ PlainChar '\t' :=
      ⟨.inr (.inr (by decide)), .inr (.inl rfl), .inl rfl⟩
    exact ⟨.inl hplain.1, by decide, .inr ⟨rfl, rfl⟩, .inl hplain.2.1, .inl hplain.2.2, .nil⟩
  have hsource : "''\n" ++ String.ofList (encode s.toList) ++ "''" =
      "''\na''''''''$\x7b'\r\n\t'''''" := by
    rw [hchars, ← String.toList_inj]
    simp [encode]
  refine ⟨Settings.ample_standard, hs, ?_⟩
  rw [← hsource]
  exact (parse_multiLine .standard Settings.ample_standard s).2 hs

end DhallSyntax
