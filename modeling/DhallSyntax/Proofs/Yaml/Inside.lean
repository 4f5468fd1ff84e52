import DhallSyntax.Proofs.Number.Hexadecimal
import DhallSyntax.Proofs.Yaml.Quoted
import DhallSyntax.Yaml.Printer

/-!
What stands between the quotes of a YAML scalar, and the text it is read as, whatever follows the
closing quote. Main statements: one rule for each thing that may come next, from `Inside.char` to
`Inside.escaped`, a character is read back from its escape.
-/

namespace DhallSyntax.Yaml

open Scan

variable {isDouble : Bool} {place last : Cursor} {c : Char} {s rest text lines : List Char}
  {n : Nat}

/-! ## Escapes -/

theorem run_escape_letter {letter : Char} (h : place.rest = '\\' :: letter :: rest)
    (hletter : letterMeaning? letter = some c) :
    escape.run place = .ok ([c], place.forward 2) := by
  have hrest : (place.forward 1).rest = letter :: rest := Cursor.forward_rest_cons h
  simp only [escape, StateT.run_bind, run_skip, ok_bind, run_peek, hrest, List.getElem?_cons_zero,
    hletter]
  rfl

theorem charOfCode_toNat (c : Char) (place : Cursor) :
    (charOfCode c.toNat).run place = .ok (c, place) := by
  have hvalid : c.toNat < 0xd800 ∨ 0xdfff < c.toNat ∧ c.toNat < 0x110000 := c.valid
  rw [charOfCode, if_neg (by omega), if_neg (by omega), Char.ofNat_toNat]
  rfl

theorem run_escape_code {letter : Char} {digits : List Char}
    (h : place.rest = '\\' :: letter :: (digits ++ rest)) (hletter : letterMeaning? letter = none)
    (hlength : codeLength? letter = some digits.length)
    (hdigits : digits.all CharClass.hexDigit = true)
    (hvalue : Numeral.positional 16 digits = c.toNat) :
    escape.run place = .ok ([c], place.forward (digits.length + 2)) := by
  have hrest : (place.forward 1).rest = letter :: (digits ++ rest) := Cursor.forward_rest_cons h
  have hcode : (place.forward 2).rest = digits ++ rest := by
    rw [← Cursor.forward_add 1 1, Cursor.forward_rest_cons hrest]
  simp only [escape, StateT.run_bind, run_skip, ok_bind, run_peek, hrest, List.getElem?_cons_zero,
    hletter, hlength, StateT.run_get, pure_bind, Cursor.forward_add, Nat.reduceAdd, hcode,
    List.take_left, decide_true, Bool.true_and, hdigits, ↓reduceIte, hvalue, charOfCode_toNat,
    Nat.add_comm 2]
  rfl

/-- An escaped line break stands for nothing, and neither does the indentation behind it. -/
theorem run_escape_newLine (hn : 0 < n) (h : place.rest = '\\' :: (newLine n ++ c :: rest))
    (hc : isBlankOrBreak c = false) : escape.run place = .ok ([], place.forward (n + 2)) := by
  have hbreak : (place.forward 1).rest = '\n' :: (List.replicate n ' ' ++ c :: rest) :=
    Cursor.forward_rest_cons h
  have hline : (place.forward 2).rest = List.replicate n ' ' ++ c :: rest := by
    rw [← Cursor.forward_add 1 1, Cursor.forward_rest_cons hbreak]
  have hlines : LinesRead (place.forward 2) [] ((place.forward 2).forward n) :=
    .done hline hc (isAtAnyMark_replicate hn hline)
  have hnone : letterMeaning? '\n' = none ∧ codeLength? '\n' = none := by decide
  simp only [escape, StateT.run_bind, run_skip, ok_bind, run_peek, hbreak,
    List.getElem?_cons_zero, hnone, run_lineBreak hbreak rfl, Cursor.forward_add, Nat.reduceAdd,
    Option.isNone_some, Bool.false_eq_true, ↓reduceIte, StateT.run_get, pure_bind,
    hlines.run (Nat.le_refl _), Nat.add_comm 2]

theorem mem_of_lookup {entries : List (Char × Char)} {letter : Char}
    (h : entries.lookup c = some letter) : (c, letter) ∈ entries := by
  obtain ⟨before, behind, rfl, -⟩ := List.lookup_eq_some_iff.mp h
  simp

theorem doubleEscape_eq_cons (c : Char) : ∃ letter t, doubleEscape c = '\\' :: letter :: t := by
  unfold doubleEscape
  split
  · exact ⟨_, _, rfl⟩
  · dsimp only
    split
    · exact ⟨_, _, rfl⟩
    · split <;> exact ⟨_, _, rfl⟩

/-- A character is read back from its escape. -/
theorem run_escape (h : place.rest = doubleEscape c ++ rest) :
    ∃ n, (doubleEscape c).length = n + 1 ∧ escape.run place = .ok ([c], place.forward (n + 1)) := by
  have hcode : ∀ letter width, 0 < width → c.toNat < 16 ^ width → letterMeaning? letter = none →
      codeLength? letter = some width →
      place.rest = '\\' :: letter :: (hexDigits width c.toNat).toList.map Char.toUpper ++ rest →
      ∃ n, ('\\' :: letter :: (hexDigits width c.toNat).toList.map Char.toUpper).length = n + 1 ∧
        escape.run place = .ok ([c], place.forward (n + 1)) := by
    intro letter width hwidth hc hletter hlength h
    obtain ⟨hdigits, hall, hvalue⟩ := hexDigits_capitals hwidth hc
    refine ⟨width + 1, by simp [hdigits], ?_⟩
    rw [run_escape_code h hletter (by rw [hlength, hdigits]) hall hvalue, hdigits]
  rw [doubleEscape] at h ⊢
  split
  · rename_i letter hletter
    have hall : ∀ entry ∈ escapeLetters, letterMeaning? entry.2 = some entry.1 := by decide
    rw [hletter] at h
    exact ⟨1, rfl, run_escape_letter h (hall _ (mem_of_lookup hletter))⟩
  · rename_i hletter
    rw [hletter] at h
    dsimp only at h ⊢
    have hvalid : c.toNat < 0x110000 := by
      have : c.toNat < 0xd800 ∨ 0xdfff < c.toNat ∧ c.toNat < 0x110000 := c.valid
      omega
    split at h <;> rename_i hbyte
    · rw [if_pos hbyte]
      exact hcode 'x' 2 (by decide) (by omega) (by decide) (by decide) h
    · rw [if_neg hbyte]
      split at h <;> rename_i hword
      · rw [if_pos hword]
        exact hcode 'u' 4 (by decide) (by omega) (by decide) (by decide) h
      · rw [if_neg hword]
        exact hcode 'U' 8 (by decide) (by omega) (by decide) (by decide) h

/-! ## Between the quotes -/

/-- A text between quotes is read as another one, whatever follows the closing quote. -/
def Inside (isDouble : Bool) (s text : List Char) : Prop :=
  ∀ ⦃place : Cursor⦄ ⦃rest : List Char⦄, place.rest = s ++ quoteOf isDouble :: rest →
    rest.head? ≠ some '\'' → RestRead isDouble place text (place.forward (s.length + 1))

/-- The same from behind a line break on, where some further lines may come first. -/
def InsideLines (isDouble : Bool) (s lines text : List Char) : Prop :=
  ∀ ⦃place : Cursor⦄ ⦃rest : List Char⦄, place.rest = s ++ quoteOf isDouble :: rest →
    rest.head? ≠ some '\'' → ∃ next, LinesRead place lines next ∧
      RestRead isDouble next text (place.forward (s.length + 1))

theorem quoteOf_solid (isDouble : Bool) : isBlankOrBreak (quoteOf isDouble) = false := by
  cases isDouble <;> rfl

/-- Behind a solid text there is a solid character, if only the closing quote. -/
theorem BeginsSolid.exists_cons (h : BeginsSolid s) (isDouble : Bool) (rest : List Char) :
    ∃ c t, s ++ quoteOf isDouble :: rest = c :: t ∧ isBlankOrBreak c = false := by
  cases s with
  | nil => exact ⟨_, _, rfl, quoteOf_solid isDouble⟩
  | cons c s => exact ⟨c, _, rfl, by simpa [BeginsSolid] using h⟩

namespace Inside

theorem nil : Inside isDouble [] [] := fun _ _ h hrest => RestRead.quote h hrest

theorem char (hc : endsQuotedRun c = false) (hs : Inside isDouble s text) :
    Inside isDouble (c :: s) (c :: text) := by
  intro place rest h hrest
  have hmore := hs (Cursor.forward_rest_cons h) hrest
  rw [Cursor.forward_add, Nat.add_comm 1] at hmore
  exact RestRead.char h hc hmore

theorem mark (first meaning : List Char) (hs : Inside isDouble s text)
    (hmark : ∀ ⦃place : Cursor⦄ ⦃rest : List Char⦄, place.rest = first ++ rest → ∃ c t n,
      place.rest = c :: t ∧ endsQuotedRun c = true ∧ first.length = n + 1 ∧
        (quotedMark isDouble).run place = .ok (some meaning, place.forward (n + 1))) :
    Inside isDouble (first ++ s) (meaning ++ text) := by
  intro place rest h hrest
  rw [List.append_assoc] at h
  obtain ⟨c, t, n, hc, hends, hlength, hrun⟩ := hmark h
  have hmore := hs (hlength ▸ Cursor.forward_rest_append h) hrest
  rw [Cursor.forward_add, ← hlength, ← Nat.add_assoc, ← List.length_append] at hmore
  exact RestRead.mark hc hends hrun (hlength ▸ hmore)

/-- An apostrophe needs no mark between double quotes. -/
theorem apostrophe (hs : Inside true s text) : Inside true ('\'' :: s) ('\'' :: text) :=
  hs.mark ['\''] _ fun _ _ h => ⟨_, _, 0, h, rfl, rfl, run_quotedMark_apostrophe h⟩

theorem doubled (hs : Inside false s text) : Inside false ('\'' :: '\'' :: s) ('\'' :: text) :=
  hs.mark ['\'', '\''] _ fun _ _ h => ⟨_, _, 1, h, rfl, rfl, run_quotedMark_doubled h⟩

/-- Marks of double-quoted scalars stand for themselves between single quotes. -/
theorem raw (hc : c = '"' ∨ c = '\\') (hs : Inside false s text) :
    Inside false (c :: s) (c :: text) :=
  hs.mark [c] _ fun _ _ h =>
    ⟨_, _, 0, h, by obtain rfl | rfl := hc <;> rfl, rfl, run_quotedMark_raw h hc⟩

theorem escaped (c : Char) (hs : Inside true s text) :
    Inside true (doubleEscape c ++ s) (c :: text) := by
  refine hs.mark (doubleEscape c) [c] fun place rest h => ?_
  obtain ⟨n, hlength, hrun⟩ := run_escape h
  obtain ⟨letter, t, ht⟩ := doubleEscape_eq_cons c
  rw [ht] at h
  exact ⟨_, _, n, h, rfl, hlength, run_quotedMark_escape h hrun⟩

theorem escapedSpace (hs : Inside true s text) : Inside true ('\\' :: ' ' :: s) (' ' :: text) :=
  hs.mark ['\\', ' '] _ fun _ _ h =>
    ⟨_, _, 1, h, rfl, rfl, run_quotedMark_escape h (run_escape_letter h rfl)⟩

/-- An escaped backslash. -/
theorem backslash (hs : Inside true s text) : Inside true ('\\' :: '\\' :: s) ('\\' :: text) :=
  hs.mark ['\\', '\\'] _ fun _ _ h =>
    ⟨_, _, 1, h, rfl, rfl, run_quotedMark_escape h (run_escape_letter h rfl)⟩

/-- An escaped line break with the indentation behind it. -/
theorem escapedNewLine (hn : 0 < n) (hsolid : BeginsSolid s) (hs : Inside true s text) :
    Inside true ('\\' :: newLine n ++ s) text := by
  intro place rest h hrest
  obtain ⟨c, t, hc, hblank⟩ := hsolid.exists_cons true rest
  have hfold : place.rest = '\\' :: (newLine n ++ c :: t) := by
    rw [h, List.append_assoc, hc]
    rfl
  have hlength : ('\\' :: newLine n).length = n + 2 := by simp [newLine]
  have hmore := hs (hlength ▸ Cursor.forward_rest_append (h.trans (List.append_assoc _ _ _))) hrest
  rw [Cursor.forward_add, ← hlength, ← Nat.add_assoc, ← List.length_append, hlength] at hmore
  exact RestRead.mark hfold rfl (run_quotedMark_escape hfold (run_escape_newLine hn hfold hblank))
    hmore

theorem space (hs : Inside isDouble s text) (hnext : s.head? = some ' ' ∨ BeginsSolid s) :
    Inside isDouble (' ' :: s) (' ' :: text) := by
  intro place rest h hrest
  have hmore := hs (Cursor.forward_rest_cons h) hrest
  rw [Cursor.forward_add, Nat.add_comm 1] at hmore
  obtain hspace | hsolid := hnext
  · obtain ⟨t, rfl⟩ := List.head?_eq_some_iff.mp hspace
    exact RestRead.space h (.inl rfl) hmore
  · obtain ⟨c, t, hc, hblank⟩ := hsolid.exists_cons isDouble rest
    exact RestRead.space (h.trans (congrArg (' ' :: ·) hc)) (.inr hblank) hmore

/-- A line break stands for what is left of it and of the lines behind it. -/
theorem lineBreak (hc : isBreak c = true) (hs : InsideLines isDouble s lines text) :
    Inside isDouble (c :: s) (foldBreaks (readBreak c) lines ++ text) := by
  intro place rest h hrest
  obtain ⟨next, hlines, hmore⟩ :=
    hs (Cursor.forward_rest_cons h) hrest
  rw [Cursor.forward_add, Nat.add_comm 1] at hmore
  exact RestRead.lineBreak h hc hlines hmore

end Inside

namespace InsideLines

/-- The indentation of the line with which the text goes on. -/
theorem indentation (hn : 0 < n) (hsolid : BeginsSolid s) (hs : Inside isDouble s text) :
    InsideLines isDouble (List.replicate n ' ' ++ s) [] text := by
  intro place rest h hrest
  rw [List.append_assoc] at h
  obtain ⟨c, t, hc, hblank⟩ := hsolid.exists_cons isDouble rest
  have hnext : (place.forward n).rest = s ++ quoteOf isDouble :: rest := by
    rw [Cursor.forward_rest, h, List.drop_left' List.length_replicate]
  have hmore := hs hnext hrest
  rw [Cursor.forward_add, ← Nat.add_assoc] at hmore
  refine ⟨place.forward n, .done (h.trans (congrArg _ hc)) hblank (isAtAnyMark_replicate hn h), ?_⟩
  rw [List.length_append, List.length_replicate]
  exact hmore

theorem line (hc : isBreak c = true) (hs : InsideLines isDouble s lines text) :
    InsideLines isDouble (c :: s) (readBreak c :: lines) text := by
  intro place rest h hrest
  obtain ⟨next, hlines, hmore⟩ :=
    hs (Cursor.forward_rest_cons h) hrest
  rw [Cursor.forward_add, Nat.add_comm 1] at hmore
  exact ⟨next, .line h hc hlines, hmore⟩

end InsideLines

end DhallSyntax.Yaml
