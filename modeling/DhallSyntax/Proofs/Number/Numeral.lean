import DhallSyntax.Number.Numeral
import DhallSyntax.Proofs.Text.CharClass

/-!
The digits of whole numbers. Main statements: `readSliced?_run`, the digits of a base have the value
of their places although they are read in slices; `readSigned?_write`, an integer of any size is
read back from its decimal text.
-/

namespace DhallSyntax.Numeral

/-! ## Digits -/

theorem digitChar_sub {c : Char} (h : c.isDigit = true) :
    c.toNat - 48 < 10 ∧ Nat.digitChar (c.toNat - 48) = c := by
  have h := Char.isDigit_iff_toNat.mp h
  simp only [Char.reduceToNat] at h
  have hlt : c.toNat - 48 < 10 := by omega
  refine ⟨hlt, Char.toNat_inj.mp ?_⟩
  rw [Nat.toNat_digitChar_of_lt_ten hlt]
  omega

/-- What holds of the ten digit characters holds of every digit. -/
theorem forall_digit {P : Char → Prop} (h : ∀ d < 10, P (Nat.digitChar d)) {c : Char}
    (hc : c.isDigit = true) : P c := by
  obtain ⟨hlt, he⟩ := digitChar_sub hc
  exact he ▸ h _ hlt

theorem digitValue?_digitChar : ∀ d < 10, digitValue? (Nat.digitChar d) = some d := by
  decide

theorem digit_value {c : Char} (h : c.isDigit = true) :
    ∃ d < 10, digitValue? c = some d := by
  obtain ⟨hlt, he⟩ := digitChar_sub h
  exact ⟨c.toNat - 48, hlt, by rw [← digitValue?_digitChar _ hlt, he]⟩

theorem digit_not_sign {c : Char} (h : c.isDigit = true) : c ≠ '+' ∧ c ≠ '-' :=
  forall_digit (P := fun c => c ≠ '+' ∧ c ≠ '-') (by decide) h

/-! ## Values of digits -/

theorem positional_foldl (base value : Nat) (s : List Char) :
    s.foldl (fun value c => value * base + (digitValue? c).getD 0) value =
      value * base ^ s.length + positional base s := by
  induction s generalizing value with
  | nil => simp [positional]
  | cons c s ih =>
    rw [positional, List.foldl_cons, List.foldl_cons, ih, ih (0 * base + _), List.length_cons,
      Nat.pow_succ, Nat.add_mul, Nat.zero_mul, Nat.zero_add, Nat.mul_assoc,
      Nat.mul_comm base, Nat.add_assoc]

theorem positional_append (base : Nat) (s t : List Char) :
    positional base (s ++ t) = positional base s * base ^ t.length + positional base t := by
  rw [positional, List.foldl_append, positional_foldl]
  rfl

theorem positional_zeros {base : Nat} (n : Nat) (s : List Char) :
    positional base (List.replicate n '0' ++ s) = positional base s := by
  have hz : positional base (List.replicate n '0') = 0 := by
    induction n with
    | zero => rfl
    | succ n ih =>
      rw [List.replicate_succ', positional_append, ih, Nat.zero_mul, Nat.zero_add]
      exact Nat.zero_mul base
  rw [positional_append, hz, Nat.zero_mul, Nat.zero_add]

theorem digitValue?_hexDigitChar : ∀ d < 16, digitValue? (Nat.digitChar d) = some d := by
  decide

theorem positional_toDigits {base : Nat} (hlow : 1 < base) (hhigh : base ≤ 16) (n : Nat) :
    positional base (Nat.toDigits base n) = n := by
  induction n using Nat.strongRecOn with
  | ind n ih =>
    have hd : ∀ d < base, positional base [Nat.digitChar d] = d := by
      intro d hd
      simp [positional, digitValue?_hexDigitChar d (Nat.lt_of_lt_of_le hd hhigh)]
    rw [Nat.toDigits_eq_if hlow]
    split
    · rename_i h
      exact hd n h
    · have hless : n / base < n := Nat.div_lt_self (by omega) hlow
      rw [positional_append, ih _ hless, hd _ (Nat.mod_lt n (by omega)), List.length_singleton,
        Nat.pow_one, Nat.div_add_mod']

theorem positional_digitsOf (n : Nat) : positional 10 (digitsOf n) = n :=
  positional_toDigits (by decide) (by decide) n

theorem digitsOf_isDigit (n : Nat) : ∀ c ∈ digitsOf n, c.isDigit = true :=
  fun _ h => Nat.isDigit_of_mem_toDigits (by decide) (by decide) h

theorem digitsOf_ne_nil (n : Nat) : digitsOf n ≠ [] := Nat.toDigits_ne_nil

/-! ## Digits of a base -/

/-- A character is a digit of a base. -/
def IsDigitIn (base : Nat) (c : Char) : Prop := ∃ d < base, digitValue? c = some d

/-- The code points of the blanks. -/
def blankCodes : List Nat :=
  [9, 10, 11, 12, 13, 32, 0x85, 0xa0, 0x1680, 0x2000, 0x2001, 0x2002, 0x2003, 0x2004, 0x2005,
   0x2006, 0x2007, 0x2008, 0x2009, 0x200a, 0x2028, 0x2029, 0x202f, 0x205f, 0x3000]

theorem mem_blankCodes {c : Char} (h : isBlank c = true) : c.toNat ∈ blankCodes := by
  simp only [isBlank, isAsciiBlank, isWideBlank, Bool.or_eq_true, Bool.and_eq_true, beq_iff_eq,
    decide_eq_true_eq, CharClass.le_iff_toNat, ← Char.toNat_inj, Char.reduceToNat,
    List.contains_iff_mem, List.mem_cons, List.not_mem_nil, or_false] at h
  simp only [blankCodes, List.mem_cons, List.not_mem_nil, or_false]
  omega

namespace IsDigitIn

variable {base : Nat} {c : Char}

theorem not_blank (h : IsDigitIn base c) : isBlank c = false := by
  obtain ⟨d, -, hd⟩ := h
  refine Bool.eq_false_iff.mpr fun hblank => ?_
  have hall : ∀ n ∈ blankCodes, digitValue? (Char.ofNat n) = none := by decide +kernel
  have hnone := hall _ (mem_blankCodes hblank)
  rw [Char.ofNat_toNat, hd] at hnone
  cases hnone

theorem ne_of_none {mark : Char} (hmark : digitValue? mark = none) (h : IsDigitIn base c) :
    c ≠ mark := by
  obtain ⟨d, -, hd⟩ := h
  rintro rfl
  rw [hd] at hmark
  cases hmark

end IsDigitIn

/-- A letter has the same value in both cases. -/
theorem digitValue?_toLower (c : Char) : digitValue? c.toLower = digitValue? c := by
  by_cases h : 65 ≤ c.toNat ∧ c.toNat ≤ 90
  · have hall : ∀ n < 26, digitValue? (Char.ofNat (65 + n)).toLower =
        digitValue? (Char.ofNat (65 + n)) := by decide
    have hc := hall (c.toNat - 65) (by omega)
    rwa [show 65 + (c.toNat - 65) = c.toNat by omega, Char.ofNat_toNat] at hc
  · have hupper : ¬ (c.val ≥ 'A'.val ∧ c.val ≤ 'Z'.val) := by
      simp only [ge_iff_le, UInt32.le_iff_toNat_le]
      exact h
    have hlower : c.toLower = c := dif_neg hupper
    rw [hlower]

/-! ## Reading digits -/

variable {s : List Char} {base : Nat}

theorem separated?_run (h : ∀ c ∈ s, IsDigitIn base c) (value : Nat) (afterDigit : Bool)
    (hs : s ≠ [] ∨ afterDigit = true) :
    separated? base value afterDigit s = some (value * base ^ s.length + positional base s) := by
  induction s generalizing value afterDigit with
  | nil =>
    have ha : afterDigit = true := hs.resolve_left (by simp)
    simp [separated?, ha, positional]
  | cons c s ih =>
    have hc := h c List.mem_cons_self
    have hunderscore : (c == '_') = false := beq_false_of_ne (hc.ne_of_none (by decide))
    obtain ⟨d, hd, hv⟩ := hc
    rw [separated?, hunderscore, if_neg Bool.false_ne_true, hv]
    dsimp only
    rw [if_pos hd, ih (fun c hc => h c (List.mem_cons_of_mem _ hc)) _ true (.inr rfl)]
    have hp := positional_foldl base value (c :: s)
    rw [List.foldl_cons, hv, positional_foldl] at hp
    exact congrArg some hp

theorem takeWhile_digits {t : List Char} (h : ∀ c ∈ s, c.isDigit = true)
    (ht : ∀ c ∈ t.head?, c.isDigit = false) :
    (s ++ t).takeWhile Char.isDigit = s ∧ (s ++ t).dropWhile Char.isDigit = t := by
  rw [List.takeWhile_append_of_pos h, List.dropWhile_append_of_pos h]
  cases t with
  | nil => simp
  | cons c t => simp [ht c rfl]

theorem dropWhile_eq_self {p : Char → Bool} (h : ∀ c ∈ s, p c = false) : s.dropWhile p = s := by
  cases s with
  | nil => rfl
  | cons c s => rw [List.dropWhile_cons, h c List.mem_cons_self, if_neg Bool.false_ne_true]

theorem trim_eq_self (h : ∀ c ∈ s, isBlank c = false) : trim s = s := by
  rw [trim, dropWhile_eq_self h, dropWhile_eq_self (by simpa using h), List.reverse_reverse]

theorem splitSign_run (h : ∀ c ∈ s, IsDigitIn base c) : splitSign s = (false, s) := by
  cases s with
  | nil => rfl
  | cons c s =>
    have hc := h c List.mem_cons_self
    have hplus : c ≠ '+' := hc.ne_of_none (by decide)
    have hminus : c ≠ '-' := hc.ne_of_none (by decide)
    simp [splitSign, hplus, hminus]

/-- The letter that marks a base is no digit of it. -/
theorem dropMark_run (h : ∀ c ∈ s, IsDigitIn base c) : dropMark base s = s := by
  have hall : ∀ b m, marker? b = some m → ∃ d ≥ b, digitValue? m = some d := by
    intro b m hm
    unfold marker? at hm
    split at hm <;> cases hm
    · exact ⟨33, by decide, by decide⟩
    · exact ⟨24, by decide, by decide⟩
    · exact ⟨11, by decide, by decide⟩
  unfold dropMark
  split
  next c d rest =>
    split
    next hmark =>
      simp only [Bool.and_eq_true, beq_iff_eq] at hmark
      obtain ⟨n, hn, hvalue⟩ := hall base _ hmark.2
      obtain ⟨m, hm, hd⟩ := h d (by simp)
      rw [digitValue?_toLower, hd] at hvalue
      cases hvalue
      omega
    next => rfl
  next => rfl

theorem read?_run (h : ∀ c ∈ s, IsDigitIn base c) (hs : s ≠ []) :
    read? base s = some (positional base s : Int) := by
  have ht : trim s = s := trim_eq_self fun c hc => (h c hc).not_blank
  rw [read?, ht, splitSign_run h]
  dsimp only
  rw [dropMark_run h, separated?_run h 0 false (.inl hs)]
  simp [applySign]

theorem readIn?_run (hlow : 2 ≤ base) (hhigh : base ≤ 36) (h : ∀ c ∈ s, IsDigitIn base c)
    (hs : s ≠ []) : readIn? base s = some (positional base s : Int) := by
  have hzero : base ≠ 0 := by omega
  have hbounds : ¬ (base < 2 ∨ 36 < base) := by omega
  rw [readIn?, if_neg hzero, if_neg (by simpa using hbounds), read?_run h hs]

/-! ## Slices -/

theorem slices_flatten (s : List Char) : (slices s).flatten = s := by
  fun_induction slices s with
  | case1 => rfl
  | case2 c rest ih => rw [List.flatten_cons, ih, List.take_append_drop]

theorem slices_ne_nil (s : List Char) : ∀ slice ∈ slices s, slice ≠ [] := by
  fun_induction slices s with
  | case1 => exact fun _ h => nomatch h
  | case2 c rest ih =>
    intro slice h
    obtain rfl | h := List.mem_cons.mp h
    · simp [sliceLength]
    · exact ih slice h

theorem slices_short (hne : s ≠ []) (h : s.length ≤ sliceLength) : slices s = [s] := by
  cases s with
  | nil => exact absurd rfl hne
  | cons c rest => rw [slices, List.take_of_length_le h, List.drop_of_length_le h, slices]

theorem readSliced?_short (hne : s ≠ []) (h : s.length ≤ sliceLength) :
    readSliced? base s = readIn? base s := by
  simp [readSliced?, slices_short hne h]

/-- Shifting the value by the length of each slice puts the slices together. -/
theorem foldlM_slices {parts : List (List Char)} (hlow : 2 ≤ base) (hhigh : base ≤ 36)
    (h : ∀ part ∈ parts, part ≠ []) (hd : ∀ c ∈ parts.flatten, IsDigitIn base c) (value : Int) :
    parts.foldlM (fun value slice =>
        (readIn? base slice).map fun n => value * (base : Int) ^ slice.length + n) value =
      some (value * base ^ parts.flatten.length + positional base parts.flatten) := by
  induction parts generalizing value with
  | nil => simp [positional]
  | cons part parts ih =>
    have hpart : ∀ c ∈ part, IsDigitIn base c := fun c hc => hd c (by simp [hc])
    have hread := readIn?_run hlow hhigh hpart (h part List.mem_cons_self)
    rw [List.foldlM_cons, hread, Option.map_some, Option.bind_eq_bind, Option.bind_some,
      ih (fun p hp => h p (List.mem_cons_of_mem _ hp)) fun c hc => hd c (by simp_all),
      List.flatten_cons, positional_append, List.length_append]
    push_cast
    rw [Int.pow_add]
    congr 1
    grind

/-- The digits of a base have the value of their places, however many they are. -/
theorem readSliced?_run (hlow : 2 ≤ base) (hhigh : base ≤ 36) (h : ∀ c ∈ s, IsDigitIn base c) :
    readSliced? base s = some (positional base s : Int) := by
  have hf := foldlM_slices hlow hhigh (slices_ne_nil s) (by rwa [slices_flatten]) 0
  rw [slices_flatten] at hf
  simpa [readSliced?] using hf

theorem readSliced?_digits (h : ∀ c ∈ s, c.isDigit = true) :
    readSliced? 10 s = some (positional 10 s : Int) :=
  readSliced?_run (by decide) (by decide) fun c hc => digit_value (h c hc)

/-- An integer is read back from its text. -/
theorem readSigned?_write (n : Int) : readSigned? (write n).toList = some n := by
  have hread := readSliced?_digits (digitsOf_isDigit n.natAbs)
  rw [positional_digitsOf] at hread
  rw [write, String.toList_ofList, readSigned?]
  obtain h | h := Int.lt_or_le n 0
  · have hsign : splitSign ('-' :: digitsOf n.natAbs) = (true, digitsOf n.natAbs) := rfl
    rw [if_pos h, hsign]
    dsimp only
    rw [hread]
    exact congrArg some (show -(n.natAbs : Int) = n by omega)
  · rw [if_neg (by omega), splitSign_run fun c hc => digit_value (digitsOf_isDigit n.natAbs c hc)]
    dsimp only
    rw [hread]
    exact congrArg some (show (n.natAbs : Int) = n by omega)

end DhallSyntax.Numeral
