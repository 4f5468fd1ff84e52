import DhallSyntax.Proofs.Yaml.Places
import DhallSyntax.Yaml.Scalar

/-!
How quoted YAML scalars are read. The scanner reads parts without blanks and the gaps between them;
`RestRead` says the same from one character to the next, so that a text can be followed as it was
written. Main statement: `RestRead.run`, what is derived so is what the scanner reads.
-/

namespace DhallSyntax.Yaml.Scan

/-- The quote around a scalar. -/
def quoteOf (isDouble : Bool) : Char := if isDouble then '"' else '\''

/-- A part ends with a character in front of a rest: a blank, a line break or the closing quote,
which is not doubled. -/
def EndsPart (isDouble : Bool) (c : Char) (rest : List Char) : Prop :=
  isBlankOrBreak c = true ∨ c = quoteOf isDouble ∧ rest.head? ≠ some '\''

/-- What stands between two blanks inside quotes, and the place behind it. -/
inductive PartRead (isDouble : Bool) : Cursor → List Char → Cursor → Prop
  | stop {place : Cursor} {c : Char} {rest : List Char} :
      place.rest = c :: rest → EndsPart isDouble c rest → PartRead isDouble place [] place
  | char {place last : Cursor} {c : Char} {rest text : List Char} :
      place.rest = c :: rest → endsQuotedRun c = false →
      PartRead isDouble (place.forward 1) text last → PartRead isDouble place (c :: text) last
  | mark {place last : Cursor} {c : Char} {rest meaning text : List Char} {n : Nat} :
      place.rest = c :: rest → endsQuotedRun c = true →
      (quotedMark isDouble).run place = .ok (some meaning, place.forward (n + 1)) →
      PartRead isDouble (place.forward (n + 1)) text last →
      PartRead isDouble place (meaning ++ text) last

/-- Line breaks inside quotes and the indentation behind them. -/
inductive LinesRead : Cursor → List Char → Cursor → Prop
  | done {place : Cursor} {n : Nat} {c : Char} {rest : List Char} :
      place.rest = List.replicate n ' ' ++ c :: rest → isBlankOrBreak c = false →
      place.isAtAnyMark = false → LinesRead place [] (place.forward n)
  | line {place last : Cursor} {c : Char} {rest lines : List Char} :
      place.rest = c :: rest → isBreak c = true → LinesRead (place.forward 1) lines last →
      LinesRead place (readBreak c :: lines) last

/-- The rest of a quoted scalar, and the place behind its closing quote. -/
inductive RestRead (isDouble : Bool) : Cursor → List Char → Cursor → Prop
  | close {place last : Cursor} {text rest : List Char} :
      PartRead isDouble place text last → last.rest = quoteOf isDouble :: rest →
      RestRead isDouble place text (last.forward 1)
  | blanks {place mid last : Cursor} {text more rest : List Char} {n : Nat} {c : Char} :
      PartRead isDouble place text mid →
      mid.rest = List.replicate (n + 1) ' ' ++ c :: rest → isBlankOrBreak c = false →
      RestRead isDouble (mid.forward (n + 1)) more last →
      RestRead isDouble place (text ++ List.replicate (n + 1) ' ' ++ more) last
  | lines {place mid next last : Cursor} {text lines more rest : List Char} {c : Char} :
      PartRead isDouble place text mid → mid.rest = c :: rest → isBreak c = true →
      LinesRead (mid.forward 1) lines next → RestRead isDouble next more last →
      RestRead isDouble place (text ++ foldBreaks (readBreak c) lines ++ more) last

variable {isDouble : Bool} {place mid next last : Cursor} {c : Char}
  {rest text lines meaning : List Char} {n : Nat} {bound : List Char}

/-! ## Marks -/

theorem endsQuotedRun_of_blank (h : isBlankOrBreak c = true) : endsQuotedRun c = true := by
  simp [endsQuotedRun, h]

theorem endsQuotedRun_of_endsPart (h : EndsPart isDouble c rest) : endsQuotedRun c = true := by
  obtain h | ⟨rfl, -⟩ := h
  · exact endsQuotedRun_of_blank h
  · cases isDouble <;> rfl

theorem run_peek_cons (h : place.rest = c :: rest) :
    (peek 0).run place = .ok (some c, place) := by
  rw [run_peek, h]
  rfl

theorem run_peek_second (h : place.rest = c :: rest) :
    (peek 1).run place = .ok (rest.head?, place) := by
  rw [run_peek, h, List.getElem?_cons_succ, List.head?_eq_getElem?]

theorem run_quotedMark_stop (h : place.rest = c :: rest) (hend : EndsPart isDouble c rest) :
    (quotedMark isDouble).run place = .ok (none, place) := by
  rw [quotedMark, StateT.run_bind, run_peek_cons h, ok_bind]
  obtain hblank | ⟨rfl, hsingle⟩ := hend
  · simp only [isBlankOrBreak, isAnyBreak, isBreak, Bool.or_eq_true, beq_iff_eq] at hblank
    obtain (rfl | rfl) | rfl | ((rfl | rfl) | rfl) | rfl := hblank <;> cases isDouble <;> rfl
  · cases isDouble with
    | true => rfl
    | false =>
      change ((peek 1).run place >>= fun p =>
        (if p.1 == some '\'' then _ else pure none : Scan (Option (List Char))).run p.2) = _
      rw [run_peek_second h, ok_bind, if_neg (by simpa using hsingle)]
      rfl

theorem run_quotedMark_escape (h : place.rest = '\\' :: rest)
    (hescape : escape.run place = .ok (meaning, last)) :
    (quotedMark true).run place = .ok (some meaning, last) := by
  rw [quotedMark, StateT.run_bind, run_peek_cons h, ok_bind]
  change (escape.run place >>= fun p => .ok (some p.1, p.2)) = _
  rw [hescape, ok_bind]

theorem run_quotedMark_apostrophe (h : place.rest = '\'' :: rest) :
    (quotedMark true).run place = .ok (some ['\''], place.forward 1) := by
  rw [quotedMark, StateT.run_bind, run_peek_cons h, ok_bind]
  rfl

theorem run_quotedMark_doubled (h : place.rest = '\'' :: '\'' :: rest) :
    (quotedMark false).run place = .ok (some ['\''], place.forward 2) := by
  rw [quotedMark, StateT.run_bind, run_peek_cons h, ok_bind]
  change ((peek 1).run place >>= fun p =>
    (if p.1 == some '\'' then _ else _ : Scan (Option (List Char))).run p.2) = _
  rw [run_peek_second h]
  rfl

theorem run_quotedMark_raw (h : place.rest = c :: rest) (hc : c = '"' ∨ c = '\\') :
    (quotedMark false).run place = .ok (some [c], place.forward 1) := by
  rw [quotedMark, StateT.run_bind, run_peek_cons h, ok_bind]
  obtain rfl | rfl := hc <;> rfl

/-! ## What is derived is what is read -/

theorem run_takeWhile_nil (chars : CharClass) (h : place.rest = c :: rest) (hc : chars c = false) :
    (takeWhile chars).run place = .ok ([], place) :=
  run_takeWhile (s := []) h (fun _ h => nomatch h) (by simp [hc])

theorem run_quotedPart_cons (h : place.rest = c :: rest) (hc : endsQuotedRun c = false) (b : Char)
    (bound : List Char) :
    (quotedPart isDouble (b :: bound)).run place =
      (quotedPart isDouble (b :: bound)).run (place.forward 1) >>= fun p =>
        .ok (c :: p.1, p.2) := by
  have hrun : place.rest.takeWhile (fun c => !endsQuotedRun c) =
      c :: (place.forward 1).rest.takeWhile fun c => !endsQuotedRun c := by
    rw [Cursor.forward_rest_cons h, h, List.takeWhile_cons, hc]
    rfl
  simp only [quotedPart, takeWhile, skip, StateT.run_bind, StateT.run_get, StateT.run_modify,
    pure_bind, bind_assoc, hrun, List.length_cons, Nat.add_comm _ 1, ← Cursor.forward_add]
  generalize (quotedMark isDouble).run _ = found
  cases found with
  | error e => rfl
  | ok found =>
    obtain ⟨meaning, next⟩ := found
    cases meaning with
    | none => rfl
    | some meaning =>
      simp only [ok_bind, StateT.run_bind, StateT.run_pure]
      generalize (quotedPart isDouble bound).run next = more
      cases more with
      | error e => rfl
      | ok more => rfl

theorem PartRead.length_le (h : PartRead isDouble place text last) :
    last.rest.length ≤ place.rest.length := by
  induction h with
  | stop => exact Nat.le_refl _
  | char _ _ _ ih | mark _ _ _ _ ih =>
    simp only [Cursor.forward_rest, List.length_drop] at ih
    omega

theorem PartRead.run (h : PartRead isDouble place text last)
    (hbound : place.rest.length ≤ bound.length) :
    (quotedPart isDouble bound).run place = .ok (text, last) := by
  induction h generalizing bound with
  | stop h hend =>
    obtain ⟨b, bound, rfl, -⟩ := Cursor.exists_bound h hbound
    have hrun := run_takeWhile_nil (fun c => !endsQuotedRun c) h
      (by simp [endsQuotedRun_of_endsPart hend])
    simp only [quotedPart, StateT.run_bind, hrun, run_quotedMark_stop h hend, ok_bind]
    rfl
  | char h hc _ ih =>
    obtain ⟨b, bound, rfl, hlength⟩ := Cursor.exists_bound h hbound
    have hmore := ih (Nat.le_trans (Cursor.forward_rest_length_le h 0)
      (Nat.le_succ_of_le hlength) : _ ≤ (b :: bound).length)
    rw [run_quotedPart_cons h hc, hmore]
    rfl
  | mark h hc hmark _ ih =>
    obtain ⟨b, bound, rfl, hlength⟩ := Cursor.exists_bound h hbound
    have hrun := run_takeWhile_nil (fun c => !endsQuotedRun c) h (by simp [hc])
    have hmore := ih (Nat.le_trans (Cursor.forward_rest_length_le h _) hlength)
    simp only [quotedPart, StateT.run_bind, hrun, hmark, hmore, ok_bind, StateT.run_pure]
    rfl

theorem isAtAnyMark_cons (h : place.rest = c :: rest) (hc : c ≠ '-' ∧ c ≠ '.') :
    place.isAtAnyMark = false := by
  simp [Cursor.isAtAnyMark, Cursor.isAtMark, h, hc.1.symm, hc.2.symm]

theorem isAtAnyMark_replicate (hn : 0 < n) (h : place.rest = List.replicate n ' ' ++ rest) :
    place.isAtAnyMark = false := by
  obtain ⟨n, rfl⟩ := Nat.exists_eq_succ_of_ne_zero (Nat.ne_of_gt hn)
  exact isAtAnyMark_cons h (by decide)

theorem run_takeWhile_blanks (h : place.rest = List.replicate n ' ' ++ c :: rest)
    (hc : isBlankOrBreak c = false) :
    (takeWhile isSpaceOrTab).run place = .ok (List.replicate n ' ', place.forward n) := by
  have hspaces : ∀ d ∈ List.replicate n ' ', isSpaceOrTab d = true := by
    intro d hd
    rw [List.eq_of_mem_replicate hd]
    rfl
  have hblank := isBlankOrBreak_eq_false.mp hc
  have hrun := run_takeWhile h hspaces (by simp [isSpaceOrTab, hblank])
  rwa [List.length_replicate] at hrun

theorem run_lineBreak_stop (h : place.rest = c :: rest) (hc : isBlankOrBreak c = false) :
    lineBreak?.run place = .ok (none, place) := by
  have hblank := isBlankOrBreak_eq_false.mp hc
  exact run_lineBreak_none (by simp [h, isAnyBreak, hblank])

theorem LinesRead.run (h : LinesRead place lines last)
    (hbound : place.rest.length ≤ bound.length) :
    (quotedLines bound).run place = .ok (lines, last) := by
  induction h generalizing bound with
  | @done place n c rest h hc hmark =>
    obtain ⟨b, bound, rfl⟩ : ∃ b bs, bound = b :: bs :=
      List.exists_cons_of_length_pos (by simp [h] at hbound; omega)
    have hrest : (place.forward n).rest = c :: rest := by
      rw [Cursor.forward_rest, h, List.drop_left' List.length_replicate]
    simp only [quotedLines, StateT.run_bind, StateT.run_get, pure_bind, hmark, Bool.false_eq_true,
      ↓reduceIte, run_takeWhile_blanks h hc, ok_bind, run_lineBreak_stop hrest hc]
    rfl
  | @line place _ c _ _ h hc _ ih =>
    obtain ⟨b, bound, rfl, hlength⟩ := Cursor.exists_bound h hbound
    have hmark : place.isAtAnyMark = false :=
      isAtAnyMark_cons h (by constructor <;> rintro rfl <;> cases hc)
    have hrun := run_takeWhile_nil isSpaceOrTab h
      (by obtain rfl | rfl | rfl | rfl := isBreak_iff.mp hc <;> rfl)
    have hmore := ih (Nat.le_trans (Cursor.forward_rest_length_le h 0) hlength)
    simp only [quotedLines, StateT.run_bind, StateT.run_get, pure_bind, hmark, Bool.false_eq_true,
      ↓reduceIte, hrun, ok_bind, run_lineBreak h hc, hmore]
    rfl

theorem LinesRead.length_le (h : LinesRead place lines last) :
    last.rest.length ≤ place.rest.length := by
  induction h with
  | done => simp
  | line _ _ _ ih =>
    simp only [Cursor.forward_rest, List.length_drop] at ih
    omega

theorem run_quotedGap_blanks (h : place.rest = List.replicate n ' ' ++ c :: rest)
    (hc : isBlankOrBreak c = false) :
    quotedGap.run place = .ok (List.replicate n ' ', place.forward n) := by
  have hrest : (place.forward n).rest = c :: rest := by
    rw [Cursor.forward_rest, h, List.drop_left' List.length_replicate]
  simp only [quotedGap, StateT.run_bind, run_takeWhile_blanks h hc, ok_bind, run_peek, hrest,
    List.getElem?_cons_zero, Option.isNone_some, Bool.false_eq_true, ↓reduceIte,
    run_lineBreak_stop hrest hc]
  rfl

theorem run_quotedGap_lines (h : place.rest = c :: rest) (hc : isBreak c = true)
    (hlines : LinesRead (place.forward 1) lines last) :
    quotedGap.run place = .ok (foldBreaks (readBreak c) lines, last) := by
  have hrun := run_takeWhile_nil isSpaceOrTab h
    (by obtain rfl | rfl | rfl | rfl := isBreak_iff.mp hc <;> rfl)
  simp only [quotedGap, StateT.run_bind, hrun, ok_bind, run_peek, h, List.getElem?_cons_zero,
    Option.isNone_some, Bool.false_eq_true, ↓reduceIte, run_lineBreak h hc, StateT.run_get,
    pure_bind, hlines.run (Nat.le_refl _)]
  rfl

/-- A part that no closing quote follows, and a gap behind it. -/
theorem run_quotedRest_gap {gap more : List Char} (hpart : PartRead isDouble place text mid)
    (h : mid.rest = c :: rest) (hc : isBlankOrBreak c = true)
    (hgap : quotedGap.run mid = .ok (gap, next)) (hless : next.rest.length < mid.rest.length)
    (hmore : ∀ bound : List Char, next.rest.length ≤ bound.length →
      (quotedRest isDouble bound).run next = .ok (more, last))
    (hbound : place.rest.length ≤ bound.length) :
    (quotedRest isDouble bound).run place = .ok (text ++ gap ++ more, last) := by
  have hlength := hpart.length_le
  obtain ⟨b, bound, rfl⟩ : ∃ b bs, bound = b :: bs :=
    List.exists_cons_of_length_pos (by omega)
  rw [List.length_cons] at hbound
  have hquote : ¬ (some c == some (if isDouble = true then '"' else '\'')) = true := by
    cases isDouble <;> simp <;> rintro rfl <;> cases hc
  simp only [quotedRest, StateT.run_bind, StateT.run_get, pure_bind, hpart.run (Nat.le_refl _),
    ok_bind, run_peek, h, List.getElem?_cons_zero, if_neg hquote, hgap,
    hmore bound (by omega)]
  rfl

/-- What is derived is what the scanner reads, if its bound is not less than the rest. -/
theorem RestRead.run (h : RestRead isDouble place text last)
    (hbound : place.rest.length ≤ bound.length) :
    (quotedRest isDouble bound).run place = .ok (text, last) := by
  induction h generalizing bound with
  | close hpart hclose =>
    have hlength := hpart.length_le
    rw [hclose, List.length_cons] at hlength
    obtain ⟨b, bound, rfl⟩ : ∃ b bs, bound = b :: bs :=
      List.exists_cons_of_length_pos (by omega)
    simp only [quotedRest, StateT.run_bind, StateT.run_get, pure_bind, hpart.run (Nat.le_refl _),
      ok_bind, run_peek, hclose, List.getElem?_cons_zero, quoteOf, beq_self_eq_true, ↓reduceIte,
      run_skip]
    rfl
  | blanks hpart hspaces hc _ ih =>
    exact run_quotedRest_gap hpart hspaces rfl (run_quotedGap_blanks hspaces hc)
      (by simp [hspaces]) (fun bound hbound => ih hbound) hbound
  | @lines place mid next _ _ _ _ _ _ hpart hbreak hc hlines _ ih =>
    have hless : next.rest.length < mid.rest.length := by
      have := hlines.length_le
      rw [Cursor.forward_rest_cons hbreak] at this
      rw [hbreak, List.length_cons]
      omega
    exact run_quotedRest_gap hpart hbreak (isBlankOrBreak_of_break hc)
      (run_quotedGap_lines hbreak hc hlines) hless (fun bound hbound => ih hbound) hbound

/-! ## From one character to the next -/

namespace RestRead

theorem char (h : place.rest = c :: rest) (hc : endsQuotedRun c = false)
    (hmore : RestRead isDouble (place.forward 1) text last) :
    RestRead isDouble place (c :: text) last := by
  cases hmore with
  | close hpart hclose => exact .close (.char h hc hpart) hclose
  | blanks hpart hspaces hd hmore => exact .blanks (.char h hc hpart) hspaces hd hmore
  | lines hpart hbreak hd hlines hmore => exact .lines (.char h hc hpart) hbreak hd hlines hmore

theorem mark (h : place.rest = c :: rest) (hc : endsQuotedRun c = true)
    (hmark : (quotedMark isDouble).run place = .ok (some meaning, place.forward (n + 1)))
    (hmore : RestRead isDouble (place.forward (n + 1)) text last) :
    RestRead isDouble place (meaning ++ text) last := by
  cases hmore with
  | close hpart hclose => exact .close (.mark h hc hmark hpart) hclose
  | blanks hpart hspaces hd hmore =>
    rw [← List.append_assoc, ← List.append_assoc]
    exact .blanks (.mark h hc hmark hpart) hspaces hd hmore
  | lines hpart hbreak hd hlines hmore =>
    rw [← List.append_assoc, ← List.append_assoc]
    exact .lines (.mark h hc hmark hpart) hbreak hd hlines hmore

/-- Behind a break the text goes on with what the lines there stand for. -/
theorem lineBreak (h : place.rest = c :: rest) (hc : isBreak c = true)
    (hlines : LinesRead (place.forward 1) lines next) (hmore : RestRead isDouble next text last) :
    RestRead isDouble place (foldBreaks (readBreak c) lines ++ text) last :=
  .lines (.stop h (.inl (isBlankOrBreak_of_break hc))) h hc hlines hmore

/-- No part begins with a blank. -/
theorem part_nil (hpart : PartRead isDouble place text mid) (h : place.rest = ' ' :: rest) :
    text = [] ∧ mid = place := by
  cases hpart with
  | stop => exact ⟨rfl, rfl⟩
  | char h' hc =>
    obtain rfl := (List.cons.inj (h.symm.trans h')).1
    cases hc
  | mark h' _ hmark =>
    rw [run_quotedMark_stop h (.inl rfl)] at hmark
    cases hmark

/-- A space that no line break follows stands for itself. -/
theorem space (h : place.rest = ' ' :: c :: rest) (hc : c = ' ' ∨ isBlankOrBreak c = false)
    (hmore : RestRead isDouble (place.forward 1) text last) :
    RestRead isDouble place (' ' :: text) last := by
  have hstop : PartRead isDouble place [] place := .stop h (.inl rfl)
  have hrest : (place.forward 1).rest = c :: rest := Cursor.forward_rest_cons h
  obtain rfl | hc := hc
  · cases hmore with
    | close hpart hclose =>
      obtain ⟨-, rfl⟩ := part_nil hpart hrest
      rw [hrest] at hclose
      cases isDouble <;> cases hclose
    | @blanks _ _ _ _ _ rest n d hpart hspaces hd hmore =>
      obtain ⟨rfl, rfl⟩ := part_nil hpart hrest
      rw [Cursor.forward_add, Nat.add_comm 1] at hmore
      have hmid : place.rest = List.replicate (n + 1 + 1) ' ' ++ d :: rest := by
        rw [h, ← hrest, hspaces]
        rfl
      exact .blanks hstop hmid hd hmore
    | lines hpart hbreak hd =>
      obtain ⟨-, rfl⟩ := part_nil hpart hrest
      rw [hrest] at hbreak
      obtain rfl := (List.cons.inj hbreak).1
      cases hd
  · have hmid : place.rest = List.replicate 1 ' ' ++ c :: rest := h
    exact .blanks hstop hmid hc hmore

/-- The closing quote. -/
theorem quote (h : place.rest = quoteOf isDouble :: rest) (hrest : rest.head? ≠ some '\'') :
    RestRead isDouble place [] (place.forward 1) :=
  .close (.stop h (.inr ⟨rfl, hrest⟩)) h

end RestRead

end DhallSyntax.Yaml.Scan
