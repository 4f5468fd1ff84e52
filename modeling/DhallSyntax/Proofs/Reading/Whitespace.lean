import DhallSyntax.Proofs.Reading.Levels

/-!
Whitespace is read chunk after chunk. Main statements:

* `readBy_whitespace_blank`: whole chunks in front of a text change nothing;
* `readBy_whitespace_append`: with a line ending behind a text, whitespace is read as before, unless
  it goes to the end of the text.
-/

namespace DhallSyntax

namespace Whitespace

/-! ## Chunks -/

/-- What stands behind the opening mark of a block comment with some others open around it, up to
the mark that closes the outermost. -/
inductive CommentRest : (depth : Nat) → List Char → Prop where
  | last : CommentRest 0 ['-', '}']
  | leave {depth : Nat} {s : List Char} : CommentRest depth s →
      CommentRest (depth + 1) ('-' :: '}' :: s)
  | enter {depth : Nat} {s : List Char} : CommentRest (depth + 1) s →
      CommentRest depth ('{' :: '-' :: s)
  | char {depth : Nat} {c : Char} {s : List Char} : CommentRest depth s →
      ¬ (c = '{' ∧ s.head? = some '-') → ¬ (c = '-' ∧ s.head? = some '}') →
      CommentRest depth (c :: s)

/-- Whole chunks of whitespace: spaces, tabs, line endings, line comments with the line ending and
closed block comments. -/
inductive Blank : List Char → Prop where
  | nil : Blank []
  | space {s : List Char} : Blank s → Blank (' ' :: s)
  | tab {s : List Char} : Blank s → Blank ('\t' :: s)
  | newline {s : List Char} : Blank s → Blank ('\n' :: s)
  | carriage {s : List Char} : Blank s → Blank ('\r' :: '\n' :: s)
  | line {text s : List Char} : '\n' ∉ text → Blank s → Blank ('-' :: '-' :: (text ++ '\n' :: s))
  | block {text s : List Char} : CommentRest 0 text → Blank s → Blank ('{' :: '-' :: (text ++ s))

theorem lineLength_of_notMem {text : List Char} (h : '\n' ∉ text) (s : List Char) :
    lineLength (text ++ s) = text.length + lineLength s := by
  induction text with
  | nil => simp
  | cons c text ih =>
    simp only [List.mem_cons, not_or] at h
    have hc : (c == '\n') = false := beq_false_of_ne (Ne.symm h.1)
    rw [List.cons_append, lineLength, hc, if_neg Bool.false_ne_true, ih h.2, List.length_cons]
    omega

theorem head?_append {s : List Char} (h : s ≠ []) (r : List Char) : (s ++ r).head? = s.head? := by
  obtain ⟨c, s, rfl⟩ := List.exists_cons_of_ne_nil h
  rfl

theorem blockLength?_char {depth : Nat} {c : Char} {s : List Char}
    (ho : ¬ (c = '{' ∧ s.head? = some '-')) (hc : ¬ (c = '-' ∧ s.head? = some '}')) :
    blockLength? depth (c :: s) = (blockLength? depth s).map (· + 1) := by
  rw [blockLength?]
  · rintro rest rfl rfl
    exact ho ⟨rfl, rfl⟩
  · rintro rest rfl rfl
    exact hc ⟨rfl, rfl⟩

theorem CommentRest.blockLength? {depth : Nat} {text : List Char} (h : CommentRest depth text)
    (s : List Char) : blockLength? depth (text ++ s) = some text.length := by
  induction h with
  | last => rfl
  | leave _ ih => simp only [List.cons_append, Whitespace.blockLength?, ih]; rfl
  | enter _ ih => simp only [List.cons_append, Whitespace.blockLength?, ih]; rfl
  | @char depth c text h ho hc ih =>
    have hne : text ≠ [] := by rintro rfl; cases h
    have hhead : (text ++ s).head? = text.head? := head?_append hne s
    rw [List.cons_append, blockLength?_char (hhead ▸ ho) (hhead ▸ hc), ih]
    rfl

/-- A closed comment is the same comment where more follows. -/
theorem blockLength?_append {depth n : Nat} {s : List Char} (h : blockLength? depth s = some n)
    (r : List Char) : blockLength? depth (s ++ r) = some n := by
  fun_induction blockLength? depth s generalizing n with
  | case1 depth rest ih =>
    obtain ⟨k, hk, rfl⟩ := Option.map_eq_some_iff.mp h
    rw [List.cons_append, List.cons_append, blockLength?, ih hk]
    rfl
  | case2 rest =>
    rw [List.cons_append, List.cons_append, blockLength?]
    exact h
  | case3 rest depth ih =>
    obtain ⟨k, hk, rfl⟩ := Option.map_eq_some_iff.mp h
    rw [List.cons_append, List.cons_append, blockLength?, ih hk]
    rfl
  | case4 depth c rest ho hc ih =>
    obtain ⟨k, hk, rfl⟩ := Option.map_eq_some_iff.mp h
    have hne : rest ≠ [] := by rintro rfl; cases hk
    have hhead : (rest ++ r).head? = rest.head? := head?_append hne r
    have hopen : ¬ (c = '{' ∧ rest.head? = some '-') := by
      rintro ⟨rfl, hr⟩
      obtain ⟨tail, rfl⟩ := List.head?_eq_some_iff.mp hr
      exact ho _ rfl rfl
    have hclose : ¬ (c = '-' ∧ rest.head? = some '}') := by
      rintro ⟨rfl, hr⟩
      obtain ⟨tail, rfl⟩ := List.head?_eq_some_iff.mp hr
      exact hc _ rfl rfl
    rw [List.cons_append, blockLength?_char (hhead ▸ hopen) (hhead ▸ hclose), ih hk]
    rfl
  | case5 => cases h

/-- A line comment goes to the end of its line, or of the text. -/
theorem lineLength_cases (s r : List Char) :
    lineLength (s ++ '\n' :: r) = lineLength s ∧ lineLength s ≤ s.length ∨
      lineLength s = s.length ∧ lineLength (s ++ '\n' :: r) = s.length + 1 := by
  induction s with
  | nil => exact .inr ⟨rfl, rfl⟩
  | cons c s ih =>
    simp only [List.cons_append, lineLength, List.length_cons]
    by_cases hc : (c == '\n') = true
    · rw [if_pos hc, if_pos hc]
      exact .inl ⟨rfl, by omega⟩
    · rw [if_neg hc, if_neg hc]
      omega

theorem blockLength?_le {depth n : Nat} {s : List Char} (h : blockLength? depth s = some n) :
    n ≤ s.length := by
  fun_induction blockLength? depth s generalizing n with
  | case1 depth rest ih | case3 rest depth ih =>
    obtain ⟨k, hk, rfl⟩ := Option.map_eq_some_iff.mp h
    exact Nat.add_le_add_right (ih hk) 2
  | case2 rest =>
    cases h
    simp
  | case4 depth c rest ho hc ih =>
    obtain ⟨k, hk, rfl⟩ := Option.map_eq_some_iff.mp h
    exact Nat.add_le_add_right (ih hk) 1
  | case5 => cases h

/-- A chunk takes a character at least, and only characters that there are. -/
theorem chunk_length {s : List Char} {n : Nat} (h : chunk s = .whole n) :
    0 < n ∧ n ≤ s.length := by
  unfold chunk at h
  split at h
  case h_1 | h_2 | h_3 | h_4 =>
    cases h
    simp
  case h_5 rest =>
    have hline := lineLength_cases rest []
    cases h
    simp only [List.length_cons]
    omega
  case h_6 rest =>
    split at h
    case h_1 k hk =>
      have hle := blockLength?_le hk
      cases h
      simp only [List.length_cons]
      omega
    case h_2 => cases h
  case h_7 => cases h

/-- The end of a text, or a carriage return that ends it. -/
def Over (s : List Char) : Prop := s = [] ∨ s = ['\r']

/-- With a line ending behind a text the same chunk begins it, and goes on into the line ending only
if it goes to the end of the text. -/
theorem chunk_append {s : List Char} (hs : ¬ Over s) (hu : chunk s ≠ .unclosed) (r : List Char) :
    chunk (s ++ '\n' :: r) = chunk s ∨
      chunk s = .whole s.length ∧ chunk (s ++ '\n' :: r) = .whole (s.length + 1) := by
  match s with
  | [] => exact absurd (.inl rfl) hs
  | [c] =>
    refine .inl ?_
    have hc : c ≠ '\r' := by rintro rfl; exact hs (.inr rfl)
    by_cases h : c ∈ [' ', '\t', '\n']
    · simp only [List.mem_cons, List.not_mem_nil, or_false] at h
      obtain rfl | rfl | rfl := h <;> rfl
    · simp only [List.mem_cons, List.not_mem_nil, or_false, not_or] at h
      simp [chunk, h, hc]
  | c :: d :: t =>
    by_cases hline : c = '-' ∧ d = '-'
    · obtain ⟨rfl, rfl⟩ := hline
      have hlength := lineLength_cases t r
      simp only [List.cons_append, chunk, List.length_cons, Chunk.whole.injEq]
      omega
    · refine .inl ?_
      by_cases hblock : c = '{' ∧ d = '-'
      · obtain ⟨rfl, rfl⟩ := hblock
        simp only [List.cons_append, chunk] at hu ⊢
        cases hlength : blockLength? 0 t with
        | none => rw [hlength] at hu; exact absurd rfl hu
        | some n => rw [blockLength?_append hlength]
      · simp only [List.cons_append]
        unfold chunk
        split <;> simp_all

theorem extentWithin_eq {bound bound' s : List Char} (h : s.length ≤ bound.length)
    (h' : s.length ≤ bound'.length) : extentWithin bound s = extentWithin bound' s := by
  induction bound generalizing bound' s with
  | nil =>
    obtain rfl := List.eq_nil_of_length_eq_zero (Nat.le_zero.mp h)
    cases bound' <;> rfl
  | cons _ bound ih =>
    cases bound' with
    | nil =>
      obtain rfl := List.eq_nil_of_length_eq_zero (Nat.le_zero.mp h')
      rfl
    | cons _ bound' =>
      rw [extentWithin, extentWithin]
      cases hc : chunk s with
      | whole n =>
        obtain ⟨hn, -⟩ := chunk_length hc
        simp only [List.length_cons] at h h'
        have hs : (s.drop n).length ≤ bound.length := by rw [List.length_drop]; omega
        have hs' : (s.drop n).length ≤ bound'.length := by rw [List.length_drop]; omega
        dsimp only
        rw [ih hs hs']
      | _ => rfl

theorem extent_whole {s : List Char} {n : Nat} (h : chunk s = .whole n) :
    extent s = ⟨n + (extent (s.drop n)).length, (extent (s.drop n)).unclosed⟩ := by
  cases s with
  | nil => cases h
  | cons c s =>
    obtain ⟨hn, -⟩ := chunk_length h
    have hlater : extentWithin s ((c :: s).drop n) = extent ((c :: s).drop n) := by
      refine extentWithin_eq ?_ (Nat.le_refl _)
      rw [List.length_drop, List.length_cons]
      omega
    rw [extent, extentWithin, h]
    dsimp only
    rw [hlater]

end Whitespace

open Whitespace

namespace Grammar

variable {rules : RuleReader} {s : List Char}

theorem readBy_whitespace_unclosed (h : chunk s = .unclosed) :
    whitespace.readBy rules s = .abort (.defect .openComment) := by
  have hextent : extent s = ⟨0, true⟩ := by
    cases s with
    | nil => cases h
    | cons c s => rw [extent, extentWithin, h]
  simp only [whitespace, readBy_bind, readBy_look, Reading.bind_value, hextent, readBy_advance,
    if_true, readBy_abort]

/-- Behind a chunk of whitespace more may follow. -/
theorem readBy_whitespace_whole {n : Nat} (h : chunk s = .whole n) :
    whitespace.readBy rules s = whitespace.readBy rules (s.drop n) := by
  simp only [whitespace, readBy_bind, readBy_look, Reading.bind_value, extent_whole h,
    readBy_advance, ← List.drop_drop]

/-- Whole chunks in front of a text change nothing. -/
theorem readBy_whitespace_blank {w : List Char} (h : Blank w) (s : List Char) :
    whitespace.readBy rules (w ++ s) = whitespace.readBy rules s := by
  induction h with
  | nil => rfl
  | space _ ih => exact (readBy_whitespace_whole (n := 1) rfl).trans ih
  | tab _ ih => exact (readBy_whitespace_whole (n := 1) rfl).trans ih
  | newline _ ih => exact (readBy_whitespace_whole (n := 1) rfl).trans ih
  | carriage _ ih => exact (readBy_whitespace_whole (n := 2) rfl).trans ih
  | @line text w hn _ ih =>
    have hlength : lineLength (text ++ '\n' :: (w ++ s)) = text.length + 1 := by
      rw [lineLength_of_notMem hn]
      rfl
    have hchunk : chunk ('-' :: '-' :: (text ++ '\n' :: (w ++ s))) =
        .whole (text.length + 1 + 2) := by rw [chunk, hlength]
    have hdrop : ('-' :: '-' :: (text ++ '\n' :: (w ++ s))).drop (text.length + 1 + 2) = w ++ s := by
      simp [List.drop_append]
    rw [List.cons_append, List.cons_append, List.append_assoc, List.cons_append,
      readBy_whitespace_whole hchunk, hdrop, ih]
  | @block text w hc _ ih =>
    have hchunk : chunk ('{' :: '-' :: (text ++ (w ++ s))) = .whole (text.length + 2) := by
      rw [chunk, hc.blockLength?]
    have hdrop : ('{' :: '-' :: (text ++ (w ++ s))).drop (text.length + 2) = w ++ s := by
      simp
    rw [List.cons_append, List.cons_append, List.append_assoc, readBy_whitespace_whole hchunk,
      hdrop, ih]

/-- With a line ending behind a text, whitespace is read as before, unless it goes to the end of the
text. -/
theorem readBy_whitespace_append {u : List Char} (h : whitespace.readBy rules s = .value () u)
    (r : List Char) :
    Over u ∧ whitespace.readBy rules (s ++ '\n' :: r) = whitespace.readBy rules r ∨
      ¬ Over u ∧ whitespace.readBy rules (s ++ '\n' :: r) = .value () (u ++ '\n' :: r) := by
  induction hl : s.length using Nat.strongRecOn generalizing s with
  | ind k ih =>
    subst hl
    by_cases hs : Over s
    · obtain rfl | rfl := hs
      · cases h
        exact .inl ⟨.inl rfl, readBy_whitespace_whole (n := 1) rfl⟩
      · cases h
        exact .inl ⟨.inr rfl, readBy_whitespace_whole (n := 2) rfl⟩
    · have hu : chunk s ≠ .unclosed := by
        intro hu
        rw [readBy_whitespace_unclosed hu] at h
        cases h
      obtain hc | ⟨hc, hc'⟩ := chunk_append hs hu r
      · cases hchunk : chunk s with
        | none =>
          rw [readBy_whitespace_tight hchunk] at h
          cases h
          exact .inr ⟨hs, readBy_whitespace_tight (hc.trans hchunk)⟩
        | whole n =>
          obtain ⟨hpos, hle⟩ := chunk_length hchunk
          rw [readBy_whitespace_whole hchunk] at h
          rw [readBy_whitespace_whole (hc.trans hchunk), List.drop_append_of_le_length hle]
          exact ih _ (by rw [List.length_drop]; omega) h rfl
        | unclosed => exact absurd hchunk hu
      · rw [readBy_whitespace_whole hc, List.drop_length] at h
        cases h
        have hdrop : (s ++ '\n' :: r).drop (s.length + 1) = r := by
          rw [← List.drop_drop, List.drop_left]
          rfl
        exact .inl ⟨.inl rfl, (readBy_whitespace_whole hc').trans (by rw [hdrop])⟩

end Grammar

end DhallSyntax
