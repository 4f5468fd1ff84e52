import DhallSyntax.Parser.Basic
import DhallSyntax.Proofs.Reading.Whitespace

/-!
Whitespace and comments, which nest. What a comment is made of is said by its marks and the text
between them. Main statement: `whitespace_exact`, whitespace takes whole chunks up to the text
behind them, and a comment that the source ends in is reported where the outermost one opens.
-/

namespace DhallSyntax

namespace Whitespace

/-- The mark that opens a block comment. -/
abbrev opening : List Char := ['{', '-']

/-- The mark that closes a block comment. -/
abbrev closing : List Char := ['-', '}']

/-- The beginnings of whitespace and comments. -/
def marks : List (List Char) := [[' '], ['\t'], ['\n'], ['\r', '\n'], ['-', '-'], opening]

/-- A stretch of a comment from one mark to the next: no mark is in it. -/
structure Stretch (text : List Char) : Prop where
  opensNone : ¬ opening <:+: text
  closesNone : ¬ closing <:+: text

/-- A block comment behind its opening mark: stretches of text, each up to a comment inside or to
the closing mark. In front of the closing mark a brace would open another comment. -/
inductive CommentText : List Char → Prop where
  | close {text : List Char} : Stretch text → text.getLast? ≠ some '{' →
      CommentText (text ++ closing)
  | nest {text inner rest : List Char} : Stretch text → CommentText inner → CommentText rest →
      CommentText (text ++ (opening ++ (inner ++ rest)))

/-- One chunk of whitespace, with its end. -/
inductive IsChunk : List Char → Prop where
  | space : IsChunk [' ']
  | tab : IsChunk ['\t']
  | newline : IsChunk ['\n']
  | carriage : IsChunk ['\r', '\n']
  | line {text : List Char} : '\n' ∉ text → IsChunk (['-', '-'] ++ (text ++ ['\n']))
  | block {text : List Char} : CommentText text → IsChunk (opening ++ text)

variable {depth : Nat} {c : Char} {s w text : List Char}

/-! ## From marks to characters -/

theorem Stretch.tail (h : Stretch (c :: text)) : Stretch text where
  opensNone hm := h.opensNone (List.infix_cons hm)
  closesNone hm := h.closesNone (List.infix_cons hm)

/-- Behind a stretch a comment goes on, unless a mark stands where they meet. -/
theorem CommentRest.behind (ht : Stretch text) (h : CommentRest depth s)
    (ho : text.getLast? = some '{' → s.head? ≠ some '-')
    (hc : text.getLast? = some '-' → s.head? ≠ some '}') : CommentRest depth (text ++ s) := by
  induction text with
  | nil => exact h
  | cons c text ih =>
    -- The next character is in the stretch, or the stretch is this character alone.
    have hnext : ∀ d, ¬ [c, d] <:+: c :: text → (text = [] → s.head? ≠ some d) →
        (text ++ s).head? ≠ some d := by
      intro d hnone hmeet hd
      cases text with
      | nil => exact hmeet rfl hd
      | cons e text =>
        obtain rfl : e = d := Option.some.inj hd
        exact hnone ⟨[], text, rfl⟩
    have hlater : ∀ d, text.getLast? = some d → (c :: text).getLast? = some d := by
      intro d hd
      cases text with
      | nil => cases hd
      | cons e text => exact hd
    apply CommentRest.char (ih ht.tail (ho ∘ hlater _) (hc ∘ hlater _))
    · rintro ⟨rfl, hd⟩
      exact hnext '-' ht.opensNone (fun he => ho (he ▸ rfl)) hd
    · rintro ⟨rfl, hd⟩
      exact hnext '}' ht.closesNone (fun he => hc (he ▸ rfl)) hd

/-- A comment inside is one more level, and leaves what is around it where it was. -/
theorem CommentText.rest (h : CommentText text) : CommentRest 0 text ∧
    ∀ {depth : Nat} {s : List Char}, CommentRest depth s → CommentRest (depth + 1) (text ++ s) := by
  induction h with
  | @close text ht hlast =>
    have hbehind : ∀ {depth : Nat} {t : List Char}, CommentRest depth (closing ++ t) →
        CommentRest depth (text ++ (closing ++ t)) :=
      fun h => h.behind ht (absurd · hlast) fun _ hd => absurd (Option.some.inj hd) (by decide)
    constructor
    · exact hbehind (t := []) .last
    · intro depth s hs
      rw [List.append_assoc]
      exact hbehind (.leave hs)
  | @nest text inner rest ht _ _ ihi ihr =>
    have hbehind : ∀ {depth : Nat} {t : List Char}, CommentRest (depth + 1) t →
        CommentRest depth (text ++ (opening ++ t)) := fun h =>
      (CommentRest.enter h).behind ht (fun _ hd => absurd (Option.some.inj hd) (by decide))
        fun _ hd => absurd (Option.some.inj hd) (by decide)
    constructor
    · exact hbehind (ihi.2 ihr.1)
    · intro depth s hs
      simp only [List.append_assoc]
      exact hbehind (ihi.2 (ihr.2 hs))

theorem blank_flatten {chunks : List (List Char)} (h : ∀ chunk ∈ chunks, IsChunk chunk) :
    Blank chunks.flatten := by
  induction chunks with
  | nil => exact .nil
  | cons chunk chunks ih =>
    obtain ⟨hchunk, hlater⟩ := List.forall_mem_cons.mp h
    have hblank : Blank chunks.flatten := ih hlater
    rw [List.flatten_cons]
    cases hchunk with
    | space => exact .space hblank
    | tab => exact .tab hblank
    | newline => exact .newline hblank
    | carriage => exact .carriage hblank
    | line hn =>
      rw [List.append_assoc, List.append_assoc]
      exact .line hn hblank
    | @block text ht =>
      change Blank ('{' :: '-' :: (text ++ chunks.flatten))
      exact .block ht.rest.1 hblank

/-- A text that begins with no mark begins with no whitespace. -/
theorem tight_of_marks (h : ∀ mark ∈ marks, ¬ mark <+: s) : Tight s := by
  simp only [marks, List.forall_mem_cons] at h
  obtain ⟨hspace, htab, hnewline, hcarriage, hline, hblock, -⟩ := h
  unfold Tight chunk
  split
  · exact absurd ⟨_, rfl⟩ hspace
  · exact absurd ⟨_, rfl⟩ htab
  · exact absurd ⟨_, rfl⟩ hnewline
  · exact absurd ⟨_, rfl⟩ hcarriage
  · exact absurd ⟨_, rfl⟩ hline
  · exact absurd ⟨_, rfl⟩ hblock
  · rfl

/-- Whitespace begins at its marks, whether a comment is closed or not. -/
theorem starts_iff : starts s = true ↔ ∃ mark ∈ marks, mark <+: s := by
  constructor
  · intro h
    refine Decidable.byContradiction fun hnone => ?_
    have htight : Tight s := tight_of_marks fun mark hm hp => hnone ⟨mark, hm, hp⟩
    rw [starts, htight] at h
    cases h
  · rintro ⟨mark, hm, r, rfl⟩
    simp only [marks, List.mem_cons, List.not_mem_nil, or_false] at hm
    obtain rfl | rfl | rfl | rfl | rfl | rfl := hm
    any_goals rfl
    -- A comment that may nest is closed or not.
    cases hlength : blockLength? 0 r <;>
      simp only [starts, chunk, opening, List.cons_append, List.nil_append, hlength] <;> rfl

/-! ## How far whitespace goes -/

theorem chunk_line (h : '\n' ∉ text) (s : List Char) :
    chunk ('-' :: '-' :: (text ++ '\n' :: s)) = .whole (text.length + 3) := by
  rw [chunk, lineLength_of_notMem h]
  rfl

theorem chunk_block (h : CommentRest 0 text) (s : List Char) :
    chunk ('{' :: '-' :: (text ++ s)) = .whole (text.length + 2) := by
  rw [chunk, h.blockLength?]

/-- Whole chunks are as long as they are, whatever is behind them. -/
theorem extent_blank (h : Blank w) (s : List Char) :
    extent (w ++ s) = ⟨w.length + (extent s).length, (extent s).unclosed⟩ := by
  have hlater : ∀ {n : Nat} {t w : List Char}, chunk t = .whole n → t.drop n = w ++ s →
      extent (w ++ s) = ⟨w.length + (extent s).length, (extent s).unclosed⟩ →
      extent t = ⟨n + w.length + (extent s).length, (extent s).unclosed⟩ := by
    intro n t w hchunk hdrop ih
    rw [extent_whole hchunk, hdrop, ih, Nat.add_assoc]
  induction h with
  | nil => simp
  | space _ ih | tab _ ih | newline _ ih =>
    rw [List.length_cons, Nat.add_comm _ 1]
    exact hlater rfl rfl ih
  | @carriage w _ ih =>
    have hlength : ('\r' :: '\n' :: w).length = 2 + w.length := by
      simp only [List.length_cons]
      omega
    rw [hlength]
    exact hlater rfl rfl ih
  | @line text w hn _ ih =>
    have hlength : ('-' :: '-' :: (text ++ '\n' :: w)).length = text.length + 3 + w.length := by
      simp only [List.length_cons, List.length_append]
      omega
    have hassoc : '-' :: '-' :: (text ++ '\n' :: w) ++ s =
        '-' :: '-' :: (text ++ '\n' :: (w ++ s)) := by simp
    rw [hlength, hassoc]
    exact hlater (chunk_line hn _) (by simp [List.drop_append]) ih
  | @block text w hc _ ih =>
    have hlength : ('{' :: '-' :: (text ++ w)).length = text.length + 2 + w.length := by
      simp only [List.length_cons, List.length_append]
      omega
    have hassoc : '{' :: '-' :: (text ++ w) ++ s = '{' :: '-' :: (text ++ (w ++ s)) := by simp
    rw [hlength, hassoc]
    exact hlater (chunk_block hc _) (by simp) ih

theorem extent_unclosed (h : chunk s = .unclosed) : extent s = ⟨0, true⟩ := by
  cases s with
  | nil => cases h
  | cons c s => rw [extent, extentWithin, h]

/-- Something begins whitespace if whole chunks do. -/
theorem starts_blank (h : Blank w) (hne : w ≠ []) (s : List Char) : starts (w ++ s) = true := by
  cases h with
  | nil => exact absurd rfl hne
  | space | tab | newline | carriage => rfl
  | line hn =>
    simp only [List.cons_append, List.append_assoc, starts, chunk_line hn]
    rfl
  | block hc =>
    simp only [List.cons_append, List.append_assoc, starts, chunk_block hc]
    rfl

/-- A comment is not closed before its end. -/
theorem CommentRest.blockLength?_beginning (h : CommentRest 0 text) (hp : s <+: text)
    (hne : s ≠ text) : Whitespace.blockLength? 0 s = none := by
  obtain ⟨r, rfl⟩ := hp
  cases hlength : Whitespace.blockLength? 0 s with
  | none => rfl
  | some n =>
    have hall := h.blockLength? []
    rw [List.append_nil, blockLength?_append hlength, Option.some.injEq, List.length_append] at hall
    have hle := blockLength?_le hlength
    have hr : r = [] := List.eq_nil_of_length_eq_zero (by omega)
    exact absurd (hr ▸ (List.append_nil s).symm) hne

end Whitespace

open Whitespace

/-! ## Runs -/

section Runs

variable {settings : Settings} {caller : Caller} {s : State} {source before w behind : List Char}

/-- Whitespace that is closed is taken, and nothing but the place changes. -/
theorem run_whitespace (h : (extent s.cursor.rest).unclosed = false) :
    Grammar.whitespace.run settings caller s =
      .value () (s.advance (extent s.cursor.rest).length) := by
  simp only [Grammar.whitespace, bind, pure, Grammar.run, h, Bool.false_eq_true, if_false]

/-- A comment that is not closed ends the parse where it opens. -/
theorem run_whitespace_unclosed (h : (extent s.cursor.rest).unclosed = true) :
    ∃ t, Grammar.whitespace.run settings caller s =
      .abort ⟨.defect .openComment,
        (s.advance (extent s.cursor.rest).length).cursor.offset, s.rules⟩ t := by
  have hback : ∀ c : Cursor, (c.advance c.rest.length).offset - c.rest.length = c.offset := by
    intro c
    rw [Cursor.advance, List.take_length, Nat.add_sub_cancel]
  let t := s.advance (extent s.cursor.rest).length
  refine ⟨t.advance t.cursor.rest.length, ?_⟩
  simp only [Grammar.whitespace, bind, Grammar.run, h, if_true, State.abort]
  exact congrArg (fun offset => Outcome.abort ⟨_, offset, s.rules⟩ _) (hback t.cursor)

theorem run_whitespace1 (h : starts s.cursor.rest = true) :
    Grammar.whitespace1.run settings caller s = Grammar.whitespace.run settings caller s := by
  simp only [Grammar.whitespace1, bind, Grammar.run, h, if_true]

theorem Cursor.rest_atOffset (h : source = before ++ behind) :
    (Cursor.atOffset source before.length).rest = behind := by
  rw [h, atOffset, List.drop_left]

theorem Cursor.advance_atOffset (h : source = before ++ (w ++ behind)) :
    (Cursor.atOffset source before.length).advance w.length =
      .atOffset source (before.length + w.length) := by
  have hlength : before.length + w.length ≤ source.length := by
    rw [h, List.length_append, List.length_append]
    omega
  have hrest := Cursor.rest_atOffset h
  rw [Cursor.advance, hrest, List.take_left, List.drop_left]
  simp only [atOffset, Cursor.mk.injEq, true_and]
  constructor
  · rw [h, ← List.append_assoc, ← List.length_append, List.drop_left]
  · rw [decide_eq_decide]
    omega

end Runs

theorem Session.run_eq {α : Type} {session : Session} {g : Grammar α} {outcome : Outcome α}
    (h : g.start session.settings session.state = outcome) :
    session.run g = (outcome, { session with state := outcome.state }) := by
  subst h
  rfl

/-- Whitespace takes chunk after chunk and stops at a text that begins with none of its marks; it
changes nothing but the place. A comment that the source ends in, with comments inside or without,
is reported where it opens. -/
theorem whitespace_exact (session : Session) (before : List Char) (chunks : List (List Char))
    (hchunks : ∀ chunk ∈ chunks, IsChunk chunk) :
    (∀ rest, session.source = before ++ (chunks.flatten ++ rest) →
      (∀ mark ∈ marks, ¬ mark <+: rest) →
      let stop := session.moveTo (before.length + chunks.flatten.length)
      stop.state.cursor.rest = rest ∧
      (session.moveTo before.length).run Grammar.whitespace = (.value () stop.state, stop) ∧
      (chunks.flatten ≠ [] →
        (session.moveTo before.length).run Grammar.whitespace1 = (.value () stop.state, stop))) ∧
    (∀ comment part, CommentText comment → part <+: comment → part ≠ comment →
      session.source = before ++ (chunks.flatten ++ (opening ++ part)) →
      ∃ abort state e,
        (session.moveTo before.length).run Grammar.whitespace =
          (.abort abort state, { session with state := state }) ∧
        ParseError.ofAbort session.source abort = .source e ∧ e.kind = .mismatch ∧
        e.location = .of session.source (before.length + chunks.flatten.length)) := by
  have hblank : Blank chunks.flatten := blank_flatten hchunks
  let begun := session.moveTo before.length
  constructor
  · intro rest hsource hrest stop
    have hplace : begun.state.cursor.rest = chunks.flatten ++ rest :=
      Cursor.rest_atOffset hsource
    have hextent : extent begun.state.cursor.rest = ⟨chunks.flatten.length, false⟩ := by
      rw [hplace, extent_blank hblank, extent_tight (tight_of_marks hrest), Nat.add_zero]
    have hstop : begun.state.advance chunks.flatten.length = stop.state :=
      congrArg session.state.moveTo (Cursor.advance_atOffset hsource)
    have hrun : Grammar.whitespace.start session.settings begun.state = .value () stop.state := by
      refine (run_whitespace (by rw [hextent])).trans ?_
      rw [hextent, hstop]
    refine ⟨?_, Session.run_eq hrun, fun hne => Session.run_eq ?_⟩
    · rw [← List.append_assoc] at hsource
      have hrest := Cursor.rest_atOffset hsource
      rwa [List.length_append] at hrest
    · refine (run_whitespace1 ?_).trans hrun
      rw [hplace]
      exact starts_blank hblank hne rest
  · intro comment part hcomment hpart hne hsource
    have hplace : begun.state.cursor.rest = chunks.flatten ++ (opening ++ part) :=
      Cursor.rest_atOffset hsource
    have hopen : chunk (opening ++ part) = .unclosed := by
      have hlength := hcomment.rest.1.blockLength?_beginning hpart hne
      simp only [List.cons_append, List.nil_append, chunk, hlength]
    have hextent : extent begun.state.cursor.rest = ⟨chunks.flatten.length, true⟩ := by
      rw [hplace, extent_blank hblank, extent_unclosed hopen, Nat.add_zero]
    have hunclosed : (extent begun.state.cursor.rest).unclosed = true := by rw [hextent]
    obtain ⟨t, ht⟩ := @run_whitespace_unclosed session.settings
      (callWithin Rule.body session.settings session.settings.stack) _ hunclosed
    rw [hextent] at ht
    refine ⟨_, t, _, Session.run_eq ht, rfl, rfl, ?_⟩
    exact congrArg (Location.of session.source ∘ Cursor.offset) (Cursor.advance_atOffset hsource)

/-- A space, a comment with another one inside and a line comment are taken; where the source ends
in front of the last closing mark, the outer comment is reported. -/
theorem whitespace_exact_nested :
    let session := Session.start .standard "x \x7b-a\x7b-b-\x7d-\x7d--c\ny"
    let cut := Session.start .standard "x \x7b-a\x7b-b-\x7d-"
    (session.moveTo 1).run Grammar.whitespace1 =
      (.value () (session.moveTo 16).state, session.moveTo 16) ∧
    ∃ abort state e, (cut.moveTo 1).run Grammar.whitespace =
        (.abort abort state, { cut with state := state }) ∧
      ParseError.ofAbort cut.source abort = .source e ∧ e.kind = .mismatch ∧
      e.location = .of cut.source 2 := by
  have hstretch : Stretch ['a'] ∧ Stretch ['b'] ∧ Stretch [] :=
    ⟨⟨by decide, by decide⟩, ⟨by decide, by decide⟩, ⟨by decide, by decide⟩⟩
  have hcomment : CommentText ("a\x7b-b-\x7d-\x7d".toList) :=
    .nest hstretch.1 (.close hstretch.2.1 (by decide)) (.close hstretch.2.2 (by decide))
  have hchunks : ∀ chunk ∈ [[' '], opening ++ "a\x7b-b-\x7d-\x7d".toList, ['-', '-', 'c', '\n']],
      IsChunk chunk := by
    simp only [List.forall_mem_cons]
    exact ⟨.space, .block hcomment, @IsChunk.line ['c'] (by decide), fun _ h => nomatch h⟩
  constructor
  · exact ((whitespace_exact _ ['x'] _ hchunks).1 ['y'] rfl (by decide)).2.2 (by decide)
  · have hspace : ∀ chunk ∈ [[' ']], IsChunk chunk := List.forall_mem_singleton.mpr .space
    exact (whitespace_exact (Session.start .standard "x \x7b-a\x7b-b-\x7d-") ['x'] _ hspace).2 _
      "a\x7b-b-\x7d-".toList hcomment (by decide) (by decide) rfl

end DhallSyntax
