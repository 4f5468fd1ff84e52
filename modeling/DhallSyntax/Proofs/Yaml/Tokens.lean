import DhallSyntax.Proofs.Document.Shape
import DhallSyntax.Proofs.Yaml.Lexing

/-!
The tokens of the texts that a document is written with: `Runs.key`, `Runs.scalar`, `Runs.dash` and
`Runs.emptyList` say how far the lexer comes with each of them.
-/

namespace DhallSyntax.Yaml

namespace Lexer

open Scan

variable {place next last : Cursor} {rest s : List Char} {tokens opened : List Token}
  {indents outer inside : List Nat} {candidate : Option Candidate} {allows broken : Bool} {c : Char}
  {k n indent column : Nat} {l : Lexer}

/-! ## First characters -/

/-- No mark between documents begins with a character, unless it is in the first column. -/
theorem atMark_eq_false (h : place.rest = c :: rest)
    (hmark : place.column = 0 → c ≠ '-' ∧ c ≠ '.') :
    (decide (place.column = 0) && place.isAtMark "---") = false ∧
      (decide (place.column = 0) && place.isAtMark "...") = false := by
  by_cases hcolumn : place.column = 0
  · have hany := isAtAnyMark_cons h (hmark hcolumn)
    simp only [Cursor.isAtAnyMark, Bool.or_eq_false_iff] at hany
    simp [hany]
  · simp [hcolumn]

theorem tokenFrom_plain (houter : l.outer = []) (h : l.place.rest = c :: rest)
    (hbegins : beginsPlain false c rest.head? = true)
    (hmark : l.place.column = 0 → c ≠ '-' ∧ c ≠ '.') : (tokenFrom c).run l = plain.run l := by
  have hflow : l.inFlow = false := by simp [inFlow, houter]
  have hnext : l.place.peek 1 = rest.head? := by simp [Cursor.peek, h, List.head?_eq_getElem?]
  obtain ⟨hdash, hdots⟩ := atMark_eq_false h hmark
  -- The marks that no plain scalar begins with, and those that it may begin with in front of
  -- another character.
  have hmarks : c ∉ ",[]\x7b\x7d#&*!|>'\"%@\x60".toList := by
    intro hc
    have hall : ∀ d ∈ ",[]\x7b\x7d#&*!|>'\"%@\x60".toList,
        "-?:,[]\x7b\x7d#&*!|>'\"%@\x60".toList.contains d = true ∧ d ≠ '-' ∧ d ≠ '?' ∧ d ≠ ':' :=
      CharClass.forall_mem_of_all (by decide)
    obtain ⟨hlisted, hdash, hquestion, hcolon⟩ := hall c hc
    rw [beginsPlain, hlisted, beq_false_of_ne hdash, beq_false_of_ne hquestion,
      beq_false_of_ne hcolon] at hbegins
    simp at hbegins
  have hstands : c = '-' ∨ c = '?' ∨ c = ':' → l.place.endsAt 1 isBlankOrBreak = false := by
    intro hc
    rw [Cursor.endsAt, hnext]
    obtain rfl | rfl | rfl := hc <;> cases hhead : rest.head? <;> simp_all [beginsPlain]
  simp only [String.reduceToList, List.mem_cons, List.not_mem_nil, or_false, not_or] at hmarks
  have halone : ∀ d, d = '-' ∨ d = '?' ∨ d = ':' →
      (c == d && l.place.endsAt 1 isBlankOrBreak) = false := by
    intro d hd
    refine Bool.eq_false_iff.mpr fun hc => ?_
    simp only [Bool.and_eq_true, beq_iff_eq] at hc
    rw [hstands (hc.1 ▸ hd)] at hc
    cases hc.2
  simp only [tokenFrom, StateT.run_bind, StateT.run_get, pure_bind, hflow, hnext, hbegins, hdash,
    hdots, Bool.false_or, halone '-' (by simp), halone '?' (by simp), halone ':' (by simp)]
  simp [hmarks]

/-- The candidate that a token leaves. -/
def saved (place : Cursor) (tokens : List Token) (indents : List Nat) (allows : Bool) :
    Option Candidate :=
  if allows then
    some ⟨tokens.length, place.offset, place.line, place.column, indents.head? == some place.column⟩
  else none

theorem run_saveCandidate : saveCandidate.run (between place tokens indents allows) =
    .ok ((), ⟨place, tokens, tokens.length, indents, saved place tokens indents allows, [],
      allows⟩) := by
  cases allows <;> rfl

theorem run_plainToken {text : String} {broken : Bool}
    (hscan : (Scan.plain false (indents.head?.elim 0 (· + 1))).run place =
      .ok ((text, broken), last)) :
    plain.run (between place tokens indents allows) =
      .ok ((), ⟨last, .scalar true text :: tokens, tokens.length + 1, indents,
        saved place tokens indents allows, [], broken⟩) := by
  simp only [plain, StateT.run_bind, run_saveCandidate, ok_bind, StateT.run_get, pure_bind]
  have hflow : inFlow ⟨place, tokens, tokens.length, indents, saved place tokens indents allows, [],
      allows⟩ = false := rfl
  rw [hflow, run_scan hscan]
  rfl

theorem run_keyPart {part : Scan Token} {t : Token} (hscan : part.run place = .ok (t, last)) :
    (keyPart part).run (between place tokens indents allows) =
      .ok ((), ⟨last, t :: tokens, tokens.length + 1, indents,
        saved place tokens indents allows, [], false⟩) := by
  simp only [keyPart, StateT.run_bind, run_saveCandidate, ok_bind, run_allowKey]
  rw [run_scan hscan]
  rfl

/-! ## Keys -/

theorem plainPart_word (hs : ∀ c ∈ s, isWordChar c = true)
    (hrest : rest.head?.all isBlankOrBreak = true) :
    plainPart false (s ++ ':' :: rest) = s := by
  induction s with
  | nil => simp [plainPart, hrest]
  | cons c s ih =>
    obtain ⟨-, hsolid, hcolon, -⟩ := isMute_of_word (hs c List.mem_cons_self)
    rw [List.cons_append, plainPart_cons ⟨hsolid, fun h => hcolon h.1⟩,
      ih fun d hd => hs d (List.mem_cons_of_mem _ hd)]

/-- A word in front of a colon is a plain scalar. -/
theorem run_plain_word {least : Nat} (hne : s ≠ []) (hs : ∀ c ∈ s, isWordChar c = true)
    (hrest : rest.head?.all isBlankOrBreak = true) (h : place.rest = s ++ ':' :: rest) :
    (Scan.plain false least).run place =
      .ok ((String.ofList s, false), place.forward s.length) := by
  have hpart : plainPart false place.rest = s := by rw [h, plainPart_word hs hrest]
  have hbegins : BeginsPart place.rest := by
    obtain ⟨c, s, rfl⟩ := List.exists_cons_of_ne_nil hne
    have hc := isMute_of_word (hs c List.mem_cons_self)
    refine ⟨hpart ▸ hne, ?_⟩
    rw [h]
    simpa using hc.2.2.2
  have hforward : (place.forward s.length).rest = List.replicate 0 ' ' ++ ':' :: rest :=
    Cursor.forward_rest_append h
  have hgap := run_plainGap_blanks hforward rfl
  obtain ⟨c, t, hc, -⟩ := hbegins.solid
  rw [Scan.plain]
  simp only [StateT.run_bind, StateT.run_get, pure_bind]
  rw [hc, run_plainRest_cons hbegins, hpart, plainBehind]
  simp only [StateT.run_bind, hgap, ok_bind]
  simp
  rfl

/-- A key at a column opens a block, unless one is open there. -/
inductive Opens (column : Nat) : List Nat → List Token → List Nat → Prop
  | stays {outer : List Nat} : Opens column (column :: outer) [] outer
  | opens {outer : List Nat} : (∀ k ∈ outer.head?, k < column) →
      Opens column outer [.blockStart .mapping] outer

theorem Opens.within (h : Opens column indents opened outer) : Within indents column := by
  cases h with
  | stays =>
    rintro k ⟨⟩
    exact Nat.le_refl _
  | opens h => exact fun k hk => Nat.le_of_lt (h k hk)

theorem tokenFrom_colon (h : l.place.rest = ':' :: rest)
    (hrest : rest.head?.all isBlankOrBreak = true) : (tokenFrom ':').run l = value.run l := by
  have halone : l.place.endsAt 1 isBlankOrBreak = true := by
    rw [Cursor.endsAt, Cursor.peek, h]
    simpa [List.head?_eq_getElem?] using hrest
  obtain ⟨hdash, hdots⟩ := atMark_eq_false h fun _ => by decide
  simp only [tokenFrom, StateT.run_bind, StateT.run_get, pure_bind, hdash, hdots, halone]
  simp

theorem run_insert (before : Nat) (t : Token) (l : Lexer) :
    (insert before t).run l = .ok ((), { l with
      tokens := l.tokens.insertIdx (l.count - before) t, count := l.count + 1 }) := rfl

theorem run_mark (t : Token) (l : Lexer) : (mark t).run l =
    .ok ((), { l with
      place := l.place.forward 1, tokens := t :: l.tokens, count := l.count + 1 }) :=
  rfl

/-- A colon makes a key of the token in front of it. -/
theorem run_value (hopens : Opens column indents opened outer) (t : Token)
    (offset line : Nat) (required : Bool) :
    value.run ⟨place, t :: tokens, tokens.length + 1, indents,
      some ⟨tokens.length, offset, line, column, required⟩, [], allows⟩ =
      .ok ((), between (place.forward 1) (.value :: t :: .key :: (opened ++ tokens))
        (column :: outer) false) := by
  have hone : tokens.length + 1 - tokens.length = 1 := by omega
  have htwo : tokens.length + 1 + 1 - tokens.length = 2 := by omega
  simp only [value, StateT.run_bind, StateT.run_get, pure_bind, StateT.run_set, run_insert, ok_bind,
    hone]
  cases hopens with
  | stays =>
    simp [isDeeper, run_allowKey, run_mark]
    rfl
  | opens hdeeper =>
    have hdeep : indents.head?.all (· < column) = true := by
      cases indents with
      | nil => rfl
      | cons k indents => simpa using hdeeper k rfl
    simp [isDeeper, hdeep, inFlow, run_allowKey, run_mark, run_insert, htwo]
    rfl

/-- A word that may be a key. -/
structure IsKeyWord (s : List Char) : Prop where
  ne_nil : s ≠ []
  word : ∀ c ∈ s, isWordChar c = true
  short : s.length ≤ Candidate.longest

theorem keyWord_of_fieldKey {key : Scalar} (h : Document.IsFieldKey key) :
    IsKeyWord (keyText key) := by
  have hall : ∀ key ∈ Document.fieldNames, key.toList ≠ [] ∧
      key.toList.all isWordChar = true ∧ key.toList.length ≤ Candidate.longest := by
    decide +kernel
  cases key with
  | text key =>
    obtain ⟨hne, hword, hshort⟩ := hall key h
    exact ⟨hne, List.all_eq_true.mp hword, hshort⟩
  | _ => exact h.elim

theorem ne_of_word (hc : isWordChar c = true) (d : Char) (hd : isWordChar d = false) : c ≠ d := by
  rintro rfl
  rw [hc] at hd
  cases hd

theorem beginsPlain_word (hc : isWordChar c = true) (next : Option Char) :
    beginsPlain false c next = true := by
  have hlist : "-?:,[]\x7b\x7d#&*!|>'\"%@\x60".toList.contains c = false :=
    CharClass.not_contains (by decide) c hc
  rw [beginsPlain, hlist, (isMute_of_word hc).2.1]
  rfl

theorem beginsToken_word (hc : isWordChar c = true) : BeginsToken (c :: rest) := by
  obtain ⟨-, hsolid, -, hnumber⟩ := isMute_of_word hc
  have hbom := ne_of_word hc '\ufeff' (by decide)
  exact ⟨by simp [BeginsSolid, hsolid], by simpa using hnumber, by simpa using hbom⟩

theorem isWide_of_word (hc : isWordChar c = true) : Cursor.IsWide c := by
  obtain ⟨-, hsolid, -⟩ := isMute_of_word hc
  have hsolid := isBlankOrBreak_eq_false.mp hsolid
  exact ⟨by simp [isAnyBreak, hsolid], ne_of_word hc _ (by decide)⟩

/-- A key is read up to the blank behind its colon. -/
theorem Runs.key (hopens : Opens place.column indents opened outer) (hs : IsKeyWord s)
    (hrest : rest.head?.all isBlankOrBreak = true) (h : place.rest = s ++ ':' :: rest) :
    Runs (between place tokens indents true)
      (between (place.forward (s.length + 1))
        (.value :: .scalar true (String.ofList s) :: .key :: (opened ++ tokens))
        (place.column :: outer) false) := by
  obtain ⟨hne, hword, hshort⟩ := hs
  have hbehind := Cursor.forward_run h fun d hd => isWide_of_word (hword d hd)
  have hcolon : (place.forward s.length).rest = ':' :: rest := Cursor.forward_rest_append h
  have hless : (place.forward s.length).rest.length < place.rest.length := by
    rw [hcolon, h, List.length_append]
    exact Nat.lt_add_of_pos_left (List.length_pos_iff.mpr hne)
  have hwithin : Within indents (place.forward s.length).column := by
    rw [hbehind]
    exact fun k hk => Nat.le_trans (hopens.within k hk) (Nat.le_add_right _ _)
  have hfirst : Runs (between place tokens indents true) ⟨place.forward s.length,
      .scalar true (String.ofList s) :: tokens, tokens.length + 1, indents,
      saved place tokens indents true, [], false⟩ := by
    obtain ⟨c, t, rfl⟩ := List.exists_cons_of_ne_nil hne
    have hc := hword c List.mem_cons_self
    have hplace : place.rest = c :: (t ++ ':' :: rest) := h
    have hplain : plain.run (between place tokens indents true) = _ :=
      run_plainToken (run_plain_word hne hword hrest h)
    have hread := (tokenFrom_plain rfl hplace (beginsPlain_word hc _)
      fun _ => ⟨ne_of_word hc _ (by decide), ne_of_word hc _ (by decide)⟩).trans hplain
    refine .token (hplace ▸ beginsToken_word hc) (by rw [hplace]; rfl) hopens.within (by simp)
      hread hless
  refine hfirst.trans (.token (hcolon ▸ beginsToken_cons (by decide) _) (by rw [hcolon]; rfl)
    hwithin ?_ ?_ ?_)
  · rintro _ ⟨⟩
    rw [hbehind]
    simpa [Candidate.isStale] using hshort
  · have hread := @run_value (place.forward s.length) tokens opened indents outer false place.column
      hopens (.scalar true (String.ofList s)) place.offset place.line
      (indents.head? == some place.column)
    rw [Cursor.forward_add] at hread
    exact (tokenFrom_colon hcolon hrest).trans hread
  · rw [hcolon, between, ← Cursor.forward_add, Cursor.forward_rest_cons hcolon]
    exact Nat.lt_succ_self _

/-! ## Texts -/

/-- A line may begin here, with a token and not with a mark between documents. -/
def BeginsTokenLine (rest : List Char) : Prop := BeginsLine rest ∧ BeginsToken rest

/-- Between a scalar that ends a line and the next token no key can come. -/
theorem settled (h : place.line < next.line) (hcolumn : indents.head? ≠ some place.column) :
    ∀ c ∈ saved place tokens indents allows, c.required = false ∧ c.isStale next = true := by
  intro c hc
  cases allows with
  | false => cases hc
  | true =>
    obtain rfl := Option.some_inj.mp hc
    have hline : place.line ≠ next.line := Nat.ne_of_lt h
    simp [Candidate.isStale, hline, hcolumn]

theorem line_lt_forward (m : Nat) (h : (place.forward m).rest = newLine n ++ rest) :
    place.line < (place.forward (m + (n + 1))).line := by
  rw [← Cursor.forward_add, Cursor.forward_newLine h]
  exact Nat.lt_succ_of_le (Cursor.line_le_forward m place)

/-- The token of a quoted scalar. -/
def quotedToken (isDouble : Bool) : Scan Token := do return .scalar false (← Scan.quoted isDouble)

theorem tokenFrom_quote (isDouble : Bool) (h : l.place.rest = quoteOf isDouble :: rest) :
    (tokenFrom (quoteOf isDouble)).run l = (keyPart (quotedToken isDouble)).run l := by
  obtain ⟨hdash, hdots⟩ := atMark_eq_false h fun _ => by cases isDouble <;> decide
  simp only [tokenFrom, StateT.run_bind, StateT.run_get, pure_bind, hdash, hdots]
  cases isDouble <;> simp [quoteOf, quotedToken]

theorem run_quoted {isDouble : Bool} {text : List Char} (hs : Inside isDouble s text)
    (hrest : rest.head? ≠ some '\'')
    (h : place.rest = quoteOf isDouble :: (s ++ quoteOf isDouble :: rest)) :
    (Scan.quoted isDouble).run place = .ok (String.ofList text, place.forward (s.length + 2)) := by
  have hread := hs (Cursor.forward_rest_cons h) hrest
  rw [Cursor.forward_add] at hread
  have hrun := hread.run (Nat.le_refl _)
  rw [Nat.add_comm 1] at hrun
  simp only [Scan.quoted, StateT.run_bind, StateT.run_get, pure_bind, run_skip, ok_bind, hrun]
  rfl

/-- A quoted scalar at the end of a line. -/
theorem Runs.quoted {isDouble : Bool} {text : List Char} (hs : Inside isDouble s text)
    (hcolumn : k < place.column) (hrest : BeginsToken rest)
    (h : place.rest = quoteOf isDouble :: (s ++ quoteOf isDouble :: (newLine n ++ rest))) :
    Runs (between place tokens (k :: indents) allows)
      (between (place.forward (s.length + 2 + (n + 1)))
        (.scalar false (String.ofList text) :: tokens) (k :: indents) true) := by
  have hpart : (quotedToken isDouble).run place =
      .ok (.scalar false (String.ofList text), place.forward (s.length + 2)) := by
    have hquote : (newLine n ++ rest).head? ≠ some '\'' := by simp [newLine]
    simp only [quotedToken, StateT.run_bind, run_quoted hs hquote h, ok_bind]
    rfl
  have hkey : (keyPart (quotedToken isDouble)).run
      (between place tokens (k :: indents) allows) = _ := run_keyPart hpart
  have hbehind : (place.forward (s.length + 2)).rest = newLine n ++ rest := by
    rw [Cursor.forward_rest, h, List.drop_succ_cons, List.drop_append]
    simp
  have hbegins : BeginsToken place.rest := by
    rw [h]
    exact beginsToken_cons (by cases isDouble <;> decide) _
  refine .trans (.token hbegins (by rw [h]; rfl) (within_cons.mpr (Nat.le_of_lt hcolumn)) (by simp)
    ((tokenFrom_quote isDouble h).trans hkey) ?_) ?_
  · rw [Cursor.forward_rest, h, List.drop_succ_cons, List.length_drop]
    exact Nat.lt_succ_of_le (Nat.sub_le _ _)
  · have hhead : (k :: indents).head? ≠ some place.column := by simpa using Nat.ne_of_lt hcolumn
    have hline := line_lt_forward _ hbehind
    have hforward := Cursor.forward_add (s.length + 2) (n + 1) place
    rw [← hforward, ← @length_newLine n] at hline ⊢
    exact .settle .line hbehind hrest (settled hline hhead)

theorem beginsPlain_of_allowsPlain (h : allowsPlain (c :: s) = true) (t : List Char) :
    beginsPlain false c (plainText indent (some c) column s ++ '\n' :: t).head? = true := by
  have hbehind := plainBehind_of_allowsPlain h
  simp only [allowsPlain, Bool.not_eq_true', Bool.or_eq_false_iff] at h
  obtain ⟨⟨⟨⟨⟨⟨-, hlead⟩, -⟩, -⟩, -⟩, hfirst⟩, -⟩ := h
  have hspace : c ≠ ' ' := by simpa using hfirst
  have hsolid := hbehind.solid hspace
  simp only [hasLeadingMark, Bool.or_eq_false_iff, Bool.and_eq_false_iff] at hlead
  obtain ⟨hmark, hnext⟩ := hlead
  have hlisted : ∀ d ∈ "-?:,[]\x7b\x7d#&*!|>'\"%@\x60".toList,
      "#,[]\x7b\x7d&*!|>'\"%@`".toList.contains d = true ∨ d = '-' ∨ d = '?' ∨ d = ':' :=
    CharClass.forall_mem_of_all (by decide)
  have hlater : c = '-' ∨ c = '?' ∨ c = ':' → ∃ d, isBlankOrBreak d = false ∧
      (plainText indent (some c) column s ++ '\n' :: t).head? = some d := by
    intro hc
    have hblank : isBlankNext s = false := by
      refine hnext.resolve_right fun hnone => ?_
      obtain rfl | rfl | rfl := hc <;> simp at hnone
    cases s with
    | nil => cases hblank
    | cons d s =>
      simp only [isBlankNext, Bool.or_eq_false_iff] at hblank
      have hd := isBlankOrBreak_eq_false.mp hblank.2
      have hhead : (plainText indent (some c) column (d :: s)).head? = some d :=
        head?_flowText rfl hd.2.2.2 (.inl hd.1)
      exact ⟨d, hblank.2, by rw [List.head?_append, hhead]; rfl⟩
  rw [beginsPlain, hsolid]
  by_cases hc : c = '-' ∨ c = '?' ∨ c = ':'
  · obtain ⟨d, hd, hhead⟩ := hlater hc
    rw [hhead]
    obtain rfl | rfl | rfl := hc <;> simp [hd]
  · have hnone : "-?:,[]\x7b\x7d#&*!|>'\"%@\x60".toList.contains c = false := by
      refine Bool.eq_false_iff.mpr fun hmem => ?_
      obtain h | h := hlisted c (List.contains_iff_mem.mp hmem)
      · rw [h] at hmark
        cases hmark
      · exact hc h
    rw [hnone]
    rfl

theorem head?_ne_space_of_allowsPlain (h : allowsPlain (c :: s) = true) : c ≠ ' ' := by
  rintro rfl
  simp [allowsPlain] at h

theorem beginsToken_of_allowsPlain (h : allowsPlain s = true) (hne : s ≠ []) (t : List Char) :
    BeginsToken (plainText indent none column s ++ t) := by
  obtain ⟨c, s, rfl⟩ := List.exists_cons_of_ne_nil hne
  have hbehind := plainBehind_of_allowsPlain h
  have hspace := head?_ne_space_of_allowsPlain h
  rw [hbehind.plainText_cons hspace, List.cons_append]
  refine ⟨by simp [BeginsSolid, hbehind.solid hspace], by simpa using hbehind.ne_number, ?_⟩
  have hord := (hbehind.ordinary c List.mem_cons_self).1
  rintro ⟨⟩
  cases hord

/-- A plain scalar at the end of a line. The line break behind it is part of it. -/
theorem Runs.plain (hallows : allowsPlain s = true) (hne : s ≠ []) (hindent : k < indent)
    (hn : n ≤ k) (hrest : BeginsTokenLine rest) (hcolumn : k < place.column)
    (h : place.rest = plainText indent none column s ++ (newLine n ++ rest)) :
    Runs (between place tokens (k :: indents) allows)
      (between (place.forward ((plainText indent none column s).length + (n + 1)))
        (.scalar true (String.ofList s) :: tokens) (k :: indents) true) := by
  have hscan := run_plain hallows hne (Nat.zero_lt_of_lt hindent) hindent (Nat.lt_succ_of_le hn)
    hrest.1 hcolumn h
  have hplain : Lexer.plain.run (between place tokens (k :: indents) allows) = _ :=
    run_plainToken hscan
  obtain ⟨c, t, rfl⟩ := List.exists_cons_of_ne_nil hne
  have hfirst := h
  rw [(plainBehind_of_allowsPlain hallows).plainText_cons (head?_ne_space_of_allowsPlain hallows),
    List.cons_append] at hfirst
  have hread : (tokenFrom c).run (between place tokens (k :: indents) allows) = _ :=
    tokenFrom_plain rfl hfirst (beginsPlain_of_allowsPlain hallows _)
    fun hzero => absurd hzero (Nat.ne_of_gt (Nat.zero_lt_of_lt hcolumn))
  have hwithin : Within (k :: indents) place.column := within_cons.mpr (Nat.le_of_lt hcolumn)
  have hhead : (k :: indents).head? ≠ some place.column := by simpa using Nat.ne_of_lt hcolumn
  have hlast : (place.forward ((plainText indent none column (c :: t)).length + (n + 1))).rest =
      [] ++ rest := by
    rw [← Cursor.forward_add]
    exact Cursor.forward_rest_newLine (Cursor.forward_rest_append h)
  have hline := line_lt_forward _ (Cursor.forward_rest_append h)
  refine .trans (.token (h ▸ beginsToken_of_allowsPlain hallows hne _) (by rw [hfirst]; rfl) hwithin
      (by simp) (hread.trans hplain) ?_)
    (.settle .none hlast hrest.2 (settled hline hhead))
  rw [hlast, h, List.nil_append, List.length_append, List.length_append, length_newLine]
  omega

/-- A space in front of what is read. -/
theorem Runs.space {read : List Token} (h : place.rest = ' ' :: rest) (hrest : BeginsToken rest)
    (hrun : Runs (between (place.forward 1) tokens indents allows)
      (between ((place.forward 1).forward n) read inside true)) :
    Runs (between place tokens indents allows)
      (between (place.forward (n + 1)) read inside true) := by
  rw [Cursor.forward_add, Nat.add_comm] at hrun
  have hgap := @Runs.settle place [' '] rest tokens indents none allows _ .space h hrest (by simp)
  rw [Bool.or_false] at hgap
  exact hgap.trans hrun

/-- The token of a scalar, as it is read behind an indentation. -/
def scalarToken (indent : Nat) : Scalar → Token
  | .text s => .scalar (styleOf s.toList == .plain) (readText indent s)
  | .int n => .scalar true (Numeral.write n)
  | _ => .scalar true "null"

/-- A plain scalar behind a space. -/
theorem Runs.plainBehind (hallows : allowsPlain s = true) (hne : s ≠ []) (hindent : k < indent)
    (hn : n ≤ k) (hrest : BeginsTokenLine rest) (hcolumn : k ≤ place.column)
    (h : place.rest = ' ' :: plainText indent none column s ++ (newLine n ++ rest)) :
    Runs (between place tokens (k :: indents) allows)
      (between (place.forward ((' ' :: plainText indent none column s).length + (n + 1)))
        (.scalar true (String.ofList s) :: tokens) (k :: indents) true) := by
  have hcolumn' : k < (place.forward 1).column := by
    rw [column_forward_ordinary h rfl rfl]
    omega
  rw [List.length_cons, Nat.add_right_comm]
  exact .space h (beginsToken_of_allowsPlain hallows hne _)
    (.plain hallows hne hindent hn hrest hcolumn' (Cursor.forward_rest_cons h))

/-- A word is written as it is. -/
theorem Runs.word (hallows : allowsPlain s = true) (hmute : ∀ c ∈ s, IsMute c)
    (hne : s ≠ []) (hn : n ≤ k) (hrest : BeginsTokenLine rest) (hcolumn : k ≤ place.column)
    (h : place.rest = ' ' :: s ++ (newLine n ++ rest)) :
    Runs (between place tokens (k :: indents) allows)
      (between (place.forward ((' ' :: s).length + (n + 1)))
        (.scalar true (String.ofList s) :: tokens) (k :: indents) true) := by
  have htext : plainText (k + 1) none 0 s = s := plainText_solid fun c hc => (hmute c hc).2.1
  have hrun : Runs (between place tokens (k :: indents) allows) _ :=
    .plainBehind hallows hne (Nat.lt_succ_self k) hn hrest hcolumn (htext.symm ▸ h)
  rwa [htext] at hrun

/-- A text in quotes behind a space. -/
theorem Runs.quotedBehind {isDouble : Bool} {text : List Char} (hs : Inside isDouble s text)
    (hrest : BeginsToken rest) (hcolumn : k ≤ place.column)
    (h : place.rest = ' ' :: quoteOf isDouble :: s ++ [quoteOf isDouble] ++ (newLine n ++ rest)) :
    Runs (between place tokens (k :: indents) allows)
      (between
        (place.forward ((' ' :: quoteOf isDouble :: s ++ [quoteOf isDouble]).length + (n + 1)))
        (.scalar false (String.ofList text) :: tokens) (k :: indents) true) := by
  have hcolumn' : k < (place.forward 1).column := by
    rw [column_forward_ordinary h rfl rfl]
    omega
  have hquote : (place.forward 1).rest =
      quoteOf isDouble :: (s ++ quoteOf isDouble :: (newLine n ++ rest)) := by
    rw [Cursor.forward_rest_cons h]
    simp
  have hlength : (' ' :: quoteOf isDouble :: s ++ [quoteOf isDouble]).length + (n + 1) =
      s.length + 2 + (n + 1) + 1 := by
    simp
    omega
  rw [hlength]
  refine .space h ?_ (.quoted hs hcolumn' hrest hquote)
  exact beginsToken_cons (by cases isDouble <;> decide) _

theorem scalarText_plain {t : String} (h : styleOf t.toList = .plain) :
    scalarText indent column (.text t) = ' ' :: plainText indent none (column + 1) t.toList := by
  change textScalar indent column t = _
  delta textScalar
  simp only [h]
  rfl

theorem scalarText_quoted {t : String} {isDouble : Bool}
    (h : styleOf t.toList = if isDouble then .double else .single) :
    scalarText indent column (.text t) = ' ' :: quoteOf isDouble ::
      (if isDouble then doubleText indent true [] (column + 2) t.toList
        else flowText indent singleShown none (column + 2) t.toList) ++ [quoteOf isDouble] := by
  change textScalar indent column t = _
  delta textScalar
  simp only [h]
  cases isDouble <;> rfl

theorem scalarToken_plain {t : String} (h : styleOf t.toList = .plain) :
    scalarToken indent (.text t) = .scalar true t := by
  change Token.scalar (styleOf t.toList == .plain) _ = _
  rw [h, readText, readBack_plain h, String.ofList_toList]
  rfl

theorem scalarToken_quoted {t : String} {isDouble : Bool}
    (h : styleOf t.toList = if isDouble then .double else .single) :
    scalarToken indent (.text t) = .scalar false (String.ofList
      (if isDouble then doubleRead indent true t.toList else singleRead false t.toList)) := by
  have hread : readBack indent t.toList =
      if isDouble then doubleRead indent true t.toList else singleRead false t.toList := by
    delta readBack
    simp only [h]
    cases isDouble <;> rfl
  change Token.scalar (styleOf t.toList == .plain) _ = _
  rw [h, readText, hread]
  cases isDouble <;> rfl

theorem inside_quoted {isDouble : Bool} (h : styleOf s = if isDouble then .double else .single)
    (hindent : 0 < indent) (hcolumn : indent ≤ column) :
    Inside isDouble
      (if isDouble then doubleText indent true [] column s
        else flowText indent singleShown none column s)
      (if isDouble then doubleRead indent true s else singleRead false s) := by
  cases isDouble with
  | true =>
    obtain ⟨body, htext, hread, -⟩ := @inside_doubleText indent column s hindent true [] hcolumn
    simp only [↓reduceIte, htext]
    exact hread
  | false =>
    exact (inside_flowText hindent none column (styleOf_single h)).1 (.inl rfl)

/-- A scalar at the end of a line. -/
theorem Runs.scalar {value : Scalar} (hvalue : Document.IsLeaf value) (hindent : k < indent)
    (hfold : indent ≤ column + 2) (hn : n ≤ k) (hrest : BeginsTokenLine rest)
    (hcolumn : k ≤ place.column)
    (h : place.rest = scalarText indent column value ++ (newLine n ++ rest)) :
    Runs (between place tokens (k :: indents) allows)
      (between (place.forward ((scalarText indent column value).length + (n + 1)))
        (scalarToken indent value :: tokens) (k :: indents) true) := by
  have hpositive := Nat.zero_lt_of_lt hindent
  cases hvalue with
  | null =>
    have htext : scalarText indent column .null = ' ' :: "null".toList := rfl
    have hne : "null".toList ≠ [] := by decide
    have hword : ∀ c ∈ "null".toList, isWordChar c = true := List.all_eq_true.mp (by decide)
    rw [htext] at h ⊢
    have hrun : Runs (between place tokens (k :: indents) allows) _ :=
      .word (allowsPlain_word hne hword) (fun c hc => isMute_of_word (hword c hc)) hne hn hrest
        hcolumn h
    rwa [String.ofList_toList] at hrun
  | @int m =>
    have hrun : Runs (between place tokens (k :: indents) allows) _ :=
      .word (allowsPlain_write m) (isMute_write m) (write_ne_nil m) hn hrest hcolumn h
    rwa [String.ofList_toList] at hrun
  | @text t =>
    have hquoted : ∀ isDouble : Bool, styleOf t.toList = (if isDouble then .double else .single) →
        Runs (between place tokens (k :: indents) allows)
          (between (place.forward ((scalarText indent column (.text t)).length + (n + 1)))
            (scalarToken indent (.text t) :: tokens) (k :: indents) true) := by
      intro isDouble hstyle
      have hinside := inside_quoted hstyle hpositive hfold
      rw [scalarText_quoted hstyle] at h ⊢
      rw [scalarToken_quoted hstyle]
      exact .quotedBehind hinside hrest.2 hcolumn h
    cases hstyle : styleOf t.toList with
    | plain =>
      obtain ⟨hallows, htext⟩ := styleOf_plain hstyle
      rw [scalarText_plain hstyle] at h ⊢
      rw [scalarToken_plain hstyle]
      have hrun : Runs (between place tokens (k :: indents) allows) _ :=
        .plainBehind hallows (ne_nil_of_text htext) hindent hn hrest hcolumn h
      rwa [String.ofList_toList] at hrun
    | single => exact hquoted false hstyle
    | double => exact hquoted true hstyle

/-! ## Lists -/

theorem tokenFrom_bracket (h : l.place.rest = '[' :: rest) :
    (tokenFrom '[').run l = (flowStart .list).run l := by
  obtain ⟨hdash, hdots⟩ := atMark_eq_false h fun _ => by decide
  simp only [tokenFrom, StateT.run_bind, StateT.run_get, pure_bind, hdash, hdots]
  simp

theorem tokenFrom_closing (h : l.place.rest = ']' :: rest) :
    (tokenFrom ']').run l = (flowEnd .list).run l := by
  obtain ⟨hdash, hdots⟩ := atMark_eq_false h fun _ => by decide
  simp only [tokenFrom, StateT.run_bind, StateT.run_get, pure_bind, hdash, hdots]
  simp

theorem run_flowStart : (flowStart .list).run (between place tokens indents allows) =
    .ok ((), ⟨place.forward 1, .flowStart .list :: tokens, tokens.length + 1, indents, none,
      [saved place tokens indents allows], true⟩) := by
  simp only [flowStart, StateT.run_bind, run_saveCandidate, ok_bind]
  rfl

theorem run_flowEnd : (flowEnd .list).run ⟨place, tokens, n, indents, none, [candidate], allows⟩ =
    .ok ((), ⟨place.forward 1, .flowEnd .list :: tokens, n + 1, indents, candidate, [], false⟩) :=
  rfl

theorem run_dropStale_fresh (hfresh : ∀ c ∈ candidate, c.isStale place = false) :
    dropStale.run ⟨place, tokens, n, indents, none, [candidate], allows⟩ =
      .ok ((), ⟨place, tokens, n, indents, none, [candidate], allows⟩) := by
  have hnone : ([none, candidate].filterMap id).filter (fun c => c.isStale place) = [] := by
    cases candidate with
    | none => rfl
    | some c => simp [hfresh c rfl]
  simp only [dropStale, StateT.run_bind, StateT.run_get, pure_bind, hnone, List.map_cons,
    filter_fresh hfresh]
  rfl

/-- The end of a list in a line, right behind its beginning. -/
theorem run_step_flowEnd (h : place.rest = ']' :: rest)
    (hfresh : ∀ c ∈ candidate, c.isStale place = false) :
    step.run ⟨place, tokens, n, indents, none, [candidate], allows⟩ = .ok (false,
      ⟨place.forward 1, .flowEnd .list :: tokens, n + 1, indents, candidate, [], false⟩) := by
  have hbegins : BeginsToken (']' :: rest) := beginsToken_cons (by decide) rest
  have hpeek : place.peek 0 = some ']' := by simp [Cursor.peek, h]
  have hgap : (toNextToken place.rest).run place = .ok (false, place) :=
    run_toNextToken .none h hbegins
  have hscan : (scan (toNextToken place.rest)).run
      ⟨place, tokens, n, indents, none, [candidate], allows⟩ =
      .ok (false, ⟨place, tokens, n, indents, none, [candidate], allows⟩) := run_scan hgap
  have hclose : (tokenFrom ']').run ⟨place, tokens, n, indents, none, [candidate], allows⟩ = _ :=
    (tokenFrom_closing h).trans run_flowEnd
  have hbom : ¬ (decide (place.offset = 0) && some ']' == some '\ufeff') = true := by simp
  have hblocks : ∀ closes, (closeBlocks closes).run
      ⟨place, tokens, n, indents, none, [candidate], allows⟩ =
        .ok ((), ⟨place, tokens, n, indents, none, [candidate], allows⟩) := fun _ => rfl
  simp only [step, StateT.run_bind, StateT.run_get, pure_bind, hpeek, if_neg hbom, hscan, ok_bind,
    Bool.false_eq_true, ↓reduceIte, run_dropStale_fresh hfresh, hblocks, hclose, StateT.run_pure]
  rfl

/-- The list without items. -/
theorem Runs.emptyList (hrest : BeginsToken rest) (hcolumn : k < place.column)
    (h : place.rest = '[' :: ']' :: (newLine n ++ rest)) :
    Runs (between place tokens (k :: indents) allows)
      (between (place.forward (2 + (n + 1))) (.flowEnd .list :: .flowStart .list :: tokens)
        (k :: indents) true) := by
  have hwithin : Within (k :: indents) place.column := within_cons.mpr (Nat.le_of_lt hcolumn)
  have hhead : (k :: indents).head? ≠ some place.column := by simpa using Nat.ne_of_lt hcolumn
  have hnext : (place.forward 1).rest = ']' :: (newLine n ++ rest) := Cursor.forward_rest_cons h
  have hbehind : (place.forward 2).rest = newLine n ++ rest := by
    rw [Cursor.forward_rest, h]
    rfl
  have hopen : (tokenFrom '[').run (between place tokens (k :: indents) allows) = _ :=
    (tokenFrom_bracket h).trans run_flowStart
  have hwide : place.forward 1 = _ := Cursor.next_wide h (by decide)
  have hfresh : ∀ c ∈ saved place tokens (k :: indents) allows,
      c.isStale (place.forward 1) = false := by
    cases allows with
    | false => rintro _ ⟨⟩
    | true =>
      rintro _ ⟨⟩
      simp only [Candidate.isStale, hwide, bne_self_eq_false, Nat.add_sub_cancel_left]
      rfl
  have hline := line_lt_forward _ hbehind
  have hforward := Cursor.forward_add 2 (n + 1) place
  rw [← hforward, ← @length_newLine n] at hline ⊢
  refine .trans
    (.token (h ▸ beginsToken_cons (by decide) _) (by rw [h]; rfl) hwithin (by simp) hopen ?_)
    (.trans (.step (run_step_flowEnd hnext hfresh) ?_)
      (.settle .line hbehind hrest (settled hline hhead)))
  · rw [hnext, h]
    exact Nat.lt_succ_self _
  · rw [hnext, Cursor.forward_rest_cons hnext]
    exact Nat.lt_succ_self _

theorem tokenFrom_dash (h : l.place.rest = '-' :: ' ' :: rest) :
    (tokenFrom '-').run l = item.run l := by
  have halone : l.place.endsAt 1 isBlankOrBreak = true := by
    rw [Cursor.endsAt, Cursor.peek, h]
    rfl
  have hdash : l.place.isAtMark "---" = false := by
    rw [Cursor.isAtMark, h]
    rfl
  have hdots : l.place.isAtMark "..." = false := by
    rw [Cursor.isAtMark, h]
    rfl
  simp only [tokenFrom, StateT.run_bind, StateT.run_get, pure_bind, hdash, hdots, halone]
  simp

/-- A dash in front of an item of the innermost block. -/
theorem Runs.dash (hcolumn : place.column = k) (h : place.rest = '-' :: ' ' :: rest) :
    Runs (between place tokens (k :: indents) true)
      (between (place.forward 1) (.item :: tokens) (k :: indents) true) := by
  have hwithin : Within (k :: indents) place.column :=
    within_cons.mpr (Nat.le_of_eq hcolumn.symm)
  have hdeep : isDeeper (between place tokens (k :: indents) true) place.column = false := by
    simp [isDeeper, between, hcolumn]
  have hblock : (openBlock .list).run (between place tokens (k :: indents) true) =
      .ok ((), between place tokens (k :: indents) true) := by
    have hcolumn : (between place tokens (k :: indents) true).place.column = place.column := rfl
    simp only [openBlock, StateT.run_bind, StateT.run_get, pure_bind, hcolumn, hdeep]
    rfl
  have hitem : item.run (between place tokens (k :: indents) true) =
      .ok ((), between (place.forward 1) (.item :: tokens) (k :: indents) true) := by
    simp only [item, StateT.run_bind, hblock, ok_bind]
    rfl
  have hread : (tokenFrom '-').run (between place tokens (k :: indents) true) = _ :=
    (tokenFrom_dash h).trans hitem
  refine .token (h ▸ beginsToken_cons (by decide) _) (by rw [h]; rfl) hwithin (by simp) hread ?_
  rw [between, Cursor.forward_rest_cons h, h]
  exact Nat.lt_succ_self _

end Lexer

end DhallSyntax.Yaml
