import DhallSyntax.Proofs.Number.Lenient
import DhallSyntax.Proofs.Number.Pieces

/-!
Texts of any length as numbers. Behind the sign a text is read in slices, each of which may be a
numeral with blanks, a sign and underscores of its own, and all characters of a slice shift what is
in front of it. Main statements:

* `readSigned?_eq_some_iff`: a text is read if and only if each of its slices is a numeral;
* `denotes_iff_legible`: the number is the one that the whole text stands for if and only if the
  text is one numeral and the cuts between the slices do no harm to it.
-/

namespace DhallSyntax.Numeral

/-! ## Slices as pieces -/

section Figures

variable {s : List Char} {digits : List Nat}

theorem length_figures_le (s : List Char) : (figures s).length ≤ s.length :=
  List.length_filterMap_le _ s

theorem figures_lt_ten : ∀ d ∈ figures s, d < 10 := by
  intro d hd
  obtain ⟨c, -, hc⟩ := List.mem_filterMap.mp hd
  obtain ⟨digit, -, rfl⟩ := digitIn_of_decimalDigit? hc
  exact digit.value_lt

theorem valueOf_pos_iff : 0 < valueOf digits ↔ ∃ d ∈ digits, 0 < d := by
  induction digits with
  | nil => simp [valueOf]
  | cons d digits ih =>
    have hpow : 0 < 10 ^ digits.length := Nat.pow_pos (by decide)
    rw [valueOf_cons, List.exists_mem_cons_iff, ← ih]
    constructor
    · intro h
      by_contra hnone
      obtain ⟨hd, hrest⟩ := not_or.mp hnone
      rw [Nat.eq_zero_of_not_pos hd] at h
      omega
    · rintro (hd | hrest)
      · exact Nat.add_pos_left (Nat.mul_pos hd hpow) _
      · exact Nat.add_pos_right _ hrest

/-- There is a decimal digit other than zero in a text. -/
def HasValue (s : List Char) : Prop :=
  ∃ c ∈ s, ∃ d, decimalDigit? c = some d ∧ 0 < d

theorem hasValue_iff : HasValue s ↔ 0 < valueOf (figures s) := by
  rw [valueOf_pos_iff]
  constructor
  · rintro ⟨c, hc, d, hd, hpos⟩
    exact ⟨d, List.mem_filterMap.mpr ⟨c, hc, hd⟩, hpos⟩
  · rintro ⟨d, hd, hpos⟩
    obtain ⟨c, hc, hd⟩ := List.mem_filterMap.mp hd
    exact ⟨c, hc, d, hd, hpos⟩

end Figures

namespace Piece

/-- The digits of a slice, and all other characters of it as gaps. -/
def ofSlice (s : List Char) : Piece where
  digits := (figures s).length
  gaps := s.length - (figures s).length
  value := valueOf (figures s)
  value_lt := by
    have hlt := Nat.ofDigits_lt_base_pow_length (b := 10) (l := (figures s).reverse) (by decide)
      fun d hd => figures_lt_ten d (List.mem_reverse.mp hd)
    rwa [List.length_reverse] at hlt

theorem length_ofSlice (s : List Char) : (ofSlice s).digits + (ofSlice s).gaps = s.length :=
  Nat.add_sub_cancel' (length_figures_le s)

theorem gaps_ofSlice_eq_zero_iff {s : List Char} :
    (ofSlice s).gaps = 0 ↔ ∀ c ∈ s, (decimalDigit? c).isSome = true := by
  have hlength : (figures s).length = s.length ↔ ∀ c ∈ s, (decimalDigit? c).isSome = true :=
    List.filterMap_length_eq_length
  have hgaps : (ofSlice s).gaps = s.length - (figures s).length := rfl
  have hle := length_figures_le s
  rw [← hlength, hgaps]
  omega

/-- Shifted by their digits, the values of the slices make up the value of the text. -/
theorem narrow_map_ofSlice (front : List Char) (parts : List (List Char)) :
    narrow (valueOf (figures front)) (parts.map ofSlice) =
      valueOf (figures (front ++ parts.flatten)) := by
  induction parts generalizing front with
  | nil => rw [List.map_nil, narrow_nil, List.flatten_nil, List.append_nil]
  | cons part parts ih =>
    have hpart : valueOf (figures front) * 10 ^ (ofSlice part).digits + (ofSlice part).value =
        valueOf (figures (front ++ part)) := by
      rw [figures_append, valueOf_append]
      rfl
    rw [List.map_cons, narrow_cons, hpart, ih, List.flatten_cons, List.append_assoc]

theorem narrow_zero_map_ofSlice (parts : List (List Char)) :
    narrow 0 (parts.map ofSlice) = valueOf (figures parts.flatten) :=
  narrow_map_ofSlice [] parts

end Piece

/-! ## Reading slices -/

section Reading

variable {s : List Char} {parts : List (List Char)} {value n : Int}

/-- The numbers of slices behind a value, each of which shifts what is in front of it. -/
def assembled (value : Int) (parts : List (List Char)) : Int :=
  parts.foldl (fun value part => value * 10 ^ part.length + number part) value

theorem foldlM_eq_some_iff :
    parts.foldlM (fun value slice =>
        (readIn? 10 slice).map fun n => value * ((10 : Nat) : Int) ^ slice.length + n) value =
      some n ↔ (∀ part ∈ parts, ∃ m, Denotes part m) ∧ n = assembled value parts := by
  induction parts generalizing value with
  | nil => simp [assembled, eq_comm]
  | cons part parts ih =>
    have hread : ∀ m, readIn? 10 part = some m ↔ Denotes part m := fun m => read?_eq_some_iff
    rw [List.foldlM_cons, Option.bind_eq_bind, Option.bind_eq_some_iff, List.forall_mem_cons]
    constructor
    · rintro ⟨shifted, hshifted, hrest⟩
      obtain ⟨m, hm, rfl⟩ := Option.map_eq_some_iff.mp hshifted
      have hm := (hread m).mp hm
      obtain ⟨hparts, rfl⟩ := ih.mp hrest
      refine ⟨⟨⟨m, hm⟩, hparts⟩, ?_⟩
      rw [hm.eq_number]
      rfl
    · rintro ⟨⟨⟨m, hm⟩, hparts⟩, rfl⟩
      refine ⟨_, Option.map_eq_some_iff.mpr ⟨m, (hread m).mpr hm, rfl⟩, ih.mpr ⟨hparts, ?_⟩⟩
      rw [hm.eq_number]
      rfl

/-- Every slice behind the sign of a text is a numeral. -/
def Sliced (s : List Char) : Prop :=
  ∀ part ∈ slices (splitSign s).2, ∃ n, Denotes part n

theorem readSigned?_eq_some_iff :
    readSigned? s = some n ↔
      Sliced s ∧ n = applySign (splitSign s).1 (assembled 0 (slices (splitSign s).2)) := by
  have hslices : ∀ m, readSliced? 10 (splitSign s).2 = some m ↔
      Sliced s ∧ m = assembled 0 (slices (splitSign s).2) := fun m => foldlM_eq_some_iff
  rw [readSigned?, Option.map_eq_some_iff]
  simp only [hslices]
  constructor
  · rintro ⟨m, ⟨hparts, rfl⟩, rfl⟩
    exact ⟨hparts, rfl⟩
  · rintro ⟨hparts, rfl⟩
    exact ⟨_, ⟨hparts, rfl⟩, rfl⟩

theorem readSigned?_eq_none (h : ¬ Sliced s) : readSigned? s = none :=
  Option.eq_none_iff_forall_ne_some.mpr fun _ hn => h (readSigned?_eq_some_iff.mp hn).1

theorem assembled_eq (hminus : '-' ∉ parts.flatten) (value : Int) :
    assembled value parts =
      value * 10 ^ (Piece.digitCount (parts.map Piece.ofSlice) +
          Piece.gapCount (parts.map Piece.ofSlice)) +
        Piece.wide 0 (parts.map Piece.ofSlice) := by
  induction parts generalizing value with
  | nil => simp [assembled]
  | cons part parts ih =>
    rw [List.flatten_cons, List.mem_append, not_or] at hminus
    have hstep : assembled value (part :: parts) =
        assembled (value * 10 ^ part.length + valueOf (figures part)) parts := by
      rw [assembled, List.foldl_cons, number, if_neg hminus.1]
      rfl
    rw [hstep, ih hminus.2, List.map_cons, Piece.wide_zero_cons, Piece.digitCount_cons,
      Piece.gapCount_cons, ← Piece.length_ofSlice]
    have hvalue : (Piece.ofSlice part).value = valueOf (figures part) := rfl
    rw [hvalue]
    push_cast
    ring

end Reading

/-! ## Legible texts -/

section Legible

variable {s : List Char} {parts : List (List Char)} {n : Int}

/-- Behind a slice with a digit other than zero there is nothing but digits. -/
def Compact (parts : List (List Char)) : Prop :=
  ∀ front back, parts = front ++ back → HasValue front.flatten →
    ∀ c ∈ back.flatten, (decimalDigit? c).isSome = true

theorem compact_iff : Compact parts ↔
    Piece.wide 0 (parts.map Piece.ofSlice) = Piece.narrow 0 (parts.map Piece.ofSlice) := by
  have hfront : ∀ front : List (List Char),
      HasValue front.flatten ↔ 0 < Piece.narrow 0 (front.map Piece.ofSlice) := fun front => by
    rw [hasValue_iff, Piece.narrow_zero_map_ofSlice]
  rw [Piece.wide_eq_narrow_iff]
  constructor
  · intro h front back hcut hpos p hp
    obtain ⟨front, back, rfl, rfl, rfl⟩ := List.map_eq_append_iff.mp hcut
    obtain ⟨part, hpart, rfl⟩ := List.mem_map.mp hp
    exact Piece.gaps_ofSlice_eq_zero_iff.mpr fun c hc =>
      h front back rfl ((hfront front).mpr hpos) c (List.mem_flatten.mpr ⟨part, hpart, hc⟩)
  · rintro h front back rfl hvalue c hc
    obtain ⟨part, hpart, hc⟩ := List.mem_flatten.mp hc
    have hgaps := h _ _ List.map_append ((hfront front).mp hvalue) _ (List.mem_map_of_mem hpart)
    exact Piece.gaps_ofSlice_eq_zero_iff.mp hgaps c hc

/-- A text that is read as the number that it stands for. It is one numeral; the slices behind a
digit other than zero consist of digits; and if it has a minus, but not as its first character, then
no such digit is behind the first slice. -/
structure Legible (s : List Char) : Prop where
  numeral : ∃ n, Denotes s n
  compact : Compact (slices (splitSign s).2)
  minus : '-' ∈ (splitSign s).2 → ¬ HasValue (slices (splitSign s).2).tail.flatten

theorem assembled_eq_number_iff (hminus : '-' ∉ parts.flatten) :
    assembled 0 parts = number parts.flatten ↔ Compact parts := by
  have hnumber : number parts.flatten = Piece.narrow 0 (parts.map Piece.ofSlice) := by
    rw [number, if_neg hminus, Piece.narrow_zero_map_ofSlice]
  rw [assembled_eq hminus, hnumber, compact_iff, Int.zero_mul, Int.zero_add, Int.natCast_inj]

theorem assembled_cons_eq_number_iff {first : List Char} (hfirst : '-' ∈ first)
    (hminus : '-' ∉ parts.flatten) :
    assembled 0 (first :: parts) = number (first :: parts).flatten ↔
      Compact (first :: parts) ∧ ¬ HasValue parts.flatten := by
  have hvalue : (Piece.ofSlice first).value = valueOf (figures first) := rfl
  have hstep : assembled 0 (first :: parts) =
      assembled (-(valueOf (figures first) : Int)) parts := by
    rw [assembled, List.foldl_cons, number, if_pos hfirst, Int.zero_mul, Int.zero_add]
    rfl
  have hnumber : number (first :: parts).flatten =
      -(Piece.narrow (valueOf (figures first)) (parts.map Piece.ofSlice) : Int) := by
    rw [number, List.flatten_cons, if_pos (List.mem_append_left _ hfirst),
      Piece.narrow_map_ofSlice]
  have hrest : ¬ HasValue parts.flatten ↔ Piece.narrow 0 (parts.map Piece.ofSlice) = 0 := by
    rw [hasValue_iff, Nat.not_lt, Nat.le_zero, Piece.narrow_zero_map_ofSlice]
  rw [hstep, assembled_eq hminus, hnumber, Piece.opposite_iff, hrest, compact_iff, List.map_cons,
    Piece.wide_cons, Piece.narrow_cons, Nat.zero_mul, Nat.zero_mul, Nat.zero_add, hvalue]

/-- A minus in a numeral is in the first slice, since that slice is not blank. -/
theorem assembled_eq_number_iff_of_minus (h : Denotes parts.flatten n)
    (hparts : ∀ part ∈ parts, ∃ m, Denotes part m) (hminus : '-' ∈ parts.flatten) :
    assembled 0 parts = number parts.flatten ↔
      Compact parts ∧ ¬ HasValue parts.tail.flatten := by
  cases parts with
  | nil => cases hminus
  | cons first parts =>
    obtain ⟨m, hm⟩ := hparts first List.mem_cons_self
    have hrest : '-' ∉ parts.flatten := fun hmem => by
      obtain ⟨front, back, hcut⟩ := List.append_of_mem hmem
      rw [List.flatten_cons, hcut, ← List.append_assoc] at h
      exact hm.not_blank fun c hc => h.around_minus.1 c (List.mem_append_left _ hc)
    rw [List.flatten_cons, List.mem_append, or_iff_left hrest] at hminus
    exact assembled_cons_eq_number_iff hminus hrest

theorem number_eq_applySign (hminus : '-' ∉ (splitSign s).2) :
    number s = applySign (splitSign s).1 (number (splitSign s).2) := by
  unfold splitSign at hminus ⊢
  split at hminus
  next rest =>
    have hplus := List.not_mem_cons_of_ne_of_not_mem (by decide : '-' ≠ '+') hminus
    rw [number, if_neg hplus, figures_cons_none (by decide), number, if_neg hminus]
    rfl
  next rest =>
    rw [number, if_pos List.mem_cons_self, figures_cons_none (by decide), number, if_neg hminus]
    rfl
  next => rfl

/-- A numeral has a minus behind the first character only if blanks are in front of it. -/
theorem splitSign_of_minus (h : Denotes s n) (hminus : '-' ∈ (splitSign s).2) :
    splitSign s = (false, s) := by
  unfold splitSign at hminus ⊢
  split at hminus
  next rest =>
    obtain ⟨front, back, rfl⟩ := List.append_of_mem hminus
    have hblank := h.around_minus (s := '+' :: front)
    exact absurd (hblank.1 _ List.mem_cons_self) (by decide)
  next rest => exact absurd hminus (h.around_minus (s := [])).2
  next => rfl

theorem applySign_inj {negative : Bool} {m : Int} :
    applySign negative m = applySign negative n ↔ m = n := by
  cases negative <;> simp [applySign]

/-- What is read is the number that a text stands for if and only if the text is legible. -/
theorem denotes_iff_legible (h : readSigned? s = some n) : Denotes s n ↔ Legible s := by
  obtain ⟨hparts, rfl⟩ := readSigned?_eq_some_iff.mp h
  have hflatten := slices_flatten (splitSign s).2
  have hexact : ∀ m, Denotes s m →
      (applySign (splitSign s).1 (assembled 0 (slices (splitSign s).2)) = number s ↔
        Compact (slices (splitSign s).2) ∧
          ('-' ∈ (splitSign s).2 → ¬ HasValue (slices (splitSign s).2).tail.flatten)) := by
    intro m hm
    by_cases hminus : '-' ∈ (splitSign s).2
    · rw [imp_iff_right hminus]
      have hsplit := splitSign_of_minus hm hminus
      rw [Sliced, hsplit] at hparts
      rw [hsplit] at hflatten hminus ⊢
      dsimp only at hparts hflatten hminus ⊢
      rw [← hflatten] at hm hminus
      have hsame := assembled_eq_number_iff_of_minus hm hparts hminus
      rwa [hflatten] at hsame
    · rw [← hflatten] at hminus
      have hsame := assembled_eq_number_iff hminus
      rw [hflatten] at hsame hminus
      rw [number_eq_applySign hminus, applySign_inj, hsame]
      exact (and_iff_left fun hmem => absurd hmem hminus).symm
  constructor
  · intro hn
    obtain ⟨hcompact, hminus⟩ := (hexact _ hn).mp hn.eq_number
    exact ⟨⟨_, hn⟩, hcompact, hminus⟩
  · rintro ⟨⟨m, hm⟩, hcompact, hminus⟩
    rw [(hexact m hm).mpr ⟨hcompact, hminus⟩, ← hm.eq_number]
    exact hm

end Legible

end DhallSyntax.Numeral
