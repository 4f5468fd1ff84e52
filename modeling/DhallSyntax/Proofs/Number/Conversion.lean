import DhallSyntax.Proofs.Number.Numeral
import Mathlib.Data.List.Induction
import Mathlib.Data.Nat.Digits.Defs

/-!
Whole numbers of any size against their texts. Both ways the digits are taken in slices, from the
left when they are read and from the right when they are written. Main statements:

* `writeSliced_eq_write`: the slices of a number make up its decimal notation;
* `conversions_exact`: an integer is written as its canonical numeral and read back from it, and
  the digits of any base have the value of their places.
-/

namespace DhallSyntax.Numeral

variable {s : List Char}

/-! ## Values by place -/

/-- The value of decimal digits by their places, the last of which counts ones. -/
def placeValue (digits : List Char) : Nat :=
  Nat.ofDigits 10 (digits.reverse.map fun c => c.toNat - '0'.toNat)

theorem placeValue_append_singleton (s : List Char) (c : Char) :
    placeValue (s ++ [c]) = (c.toNat - '0'.toNat) + 10 * placeValue s := by
  simp [placeValue, Nat.ofDigits_cons]

theorem positional_singleton {c : Char} (h : c.isDigit = true) :
    positional 10 [c] = c.toNat - '0'.toNat :=
  forall_digit (P := fun c => positional 10 [c] = c.toNat - '0'.toNat) (by decide) h

/-- What is added up from the left is the value by places. -/
theorem positional_eq_placeValue {s : List Char} (h : ∀ c ∈ s, c.isDigit = true) :
    positional 10 s = placeValue s := by
  induction s using List.reverseRecOn with
  | nil => rfl
  | append_singleton s c ih =>
    obtain ⟨hs, hc⟩ := List.forall_mem_append.mp h
    rw [positional_append, placeValue_append_singleton, ih hs,
      positional_singleton (hc c List.mem_cons_self), List.length_singleton]
    omega

/-! ## Digits of any base -/

/-- A character stands for a digit: it is a decimal digit of some script, or a letter in either
case, of which the first one counts ten. -/
inductive StandsFor : Char → Nat → Prop where
  | decimal {c : Char} {z d : Nat} : z ∈ digitZeros → d < 10 → c.toNat = z + d → StandsFor c d
  | lower {c : Char} {k : Nat} : k < 26 → c.toNat = 'a'.toNat + k → StandsFor c (k + 10)
  | upper {c : Char} {k : Nat} : k < 26 → c.toNat = 'A'.toNat + k → StandsFor c (k + 10)

/-- The digits of the scripts do not overlap. -/
theorem digitZeros_apart :
    ∀ z ∈ digitZeros, ∀ w ∈ digitZeros, z = w ∨ z + 10 ≤ w ∨ w + 10 ≤ z := by
  decide +kernel

theorem decimalDigit?_of_mem {c : Char} {z d : Nat} (hz : z ∈ digitZeros) (hd : d < 10)
    (hc : c.toNat = z + d) : decimalDigit? c = some d := by
  rw [decimalDigit?]
  cases hfind : digitZeros.find? fun z => z ≤ c.toNat && c.toNat < z + 10 with
  | none =>
    have hmiss := List.find?_eq_none.mp hfind z hz
    simp only [Bool.and_eq_true, decide_eq_true_eq] at hmiss
    omega
  | some w =>
    have hhit := List.find?_some hfind
    simp only [Bool.and_eq_true, decide_eq_true_eq] at hhit
    have hwz : w = z := by
      have := digitZeros_apart z hz w (List.mem_of_find?_eq_some hfind)
      omega
    rw [Option.map_some, hwz, hc, Nat.add_sub_cancel_left]

theorem StandsFor.digitValue? {c : Char} {d : Nat} (h : StandsFor c d) :
    digitValue? c = some d := by
  -- The letters of a case are few enough to look at each of them.
  have hat : ∀ n, c.toNat = n → c = Char.ofNat n := fun n hn => hn ▸ (Char.ofNat_toNat c).symm
  cases h with
  | @decimal z d hz hd hc =>
    have hsides : ∀ z ∈ digitZeros, z + 10 ≤ 'A'.toNat ∨ 'z'.toNat < z := by decide
    have hbetween : ∀ a b : Char, 'A'.toNat ≤ a.toNat → b.toNat ≤ 'z'.toNat →
        ¬ (a ≤ c ∧ c ≤ b) := fun a b ha hb ⟨hlow, hhigh⟩ => by
      have hlow : a.toNat ≤ c.toNat := hlow
      have hhigh : c.toNat ≤ b.toNat := hhigh
      have := hsides z hz
      omega
    rw [Numeral.digitValue?,
      if_neg (by simpa using hbetween 'a' 'z' (by decide) (by decide)),
      if_neg (by simpa using hbetween 'A' 'Z' (by decide) (by decide))]
    exact decimalDigit?_of_mem hz hd hc
  | @lower k hk hc =>
    have hall : ∀ k < 26, Numeral.digitValue? (Char.ofNat ('a'.toNat + k)) = some (k + 10) := by
      decide +kernel
    rw [hat _ hc]
    exact hall k hk
  | @upper k hk hc =>
    have hall : ∀ k < 26, Numeral.digitValue? (Char.ofNat ('A'.toNat + k)) = some (k + 10) := by
      decide +kernel
    rw [hat _ hc]
    exact hall k hk

/-- A digit of a base, as it is written. -/
structure DigitIn (base : Nat) where
  char : Char
  value : Nat
  value_lt : value < base
  standsFor : StandsFor char value

namespace DigitIn

variable {base : Nat}

theorem isDigitIn (digits : List (DigitIn base)) : ∀ c ∈ digits.map char, IsDigitIn base c := by
  intro c hc
  obtain ⟨d, -, rfl⟩ := List.mem_map.mp hc
  exact ⟨d.value, d.value_lt, d.standsFor.digitValue?⟩

theorem positional_eq (digits : List (DigitIn base)) :
    positional base (digits.map char) = Nat.ofDigits base (digits.map value).reverse := by
  induction digits using List.reverseRecOn with
  | nil => rfl
  | append_singleton digits d ih =>
    have hlast : positional base [d.char] = d.value := by
      simp [positional, d.standsFor.digitValue?]
    rw [List.map_append, List.map_append, List.reverse_append, positional_append, ih]
    simp only [List.map_cons, List.map_nil, hlast, List.length_singleton, Nat.pow_one,
      List.reverse_singleton, List.singleton_append, Nat.ofDigits_cons]
    rw [Nat.mul_comm, Nat.add_comm]

end DigitIn

/-! ## Decimal notation -/

/-- Decimal digits without leading zeros. Zero is a digit by itself. -/
structure IsNotation (s : List Char) : Prop where
  digits : ∀ c ∈ s, c.isDigit = true
  ne_nil : s ≠ []
  leading : s.head? = some '0' → s = ['0']

theorem digitsOf_lt {n : Nat} (h : n < 10) : digitsOf n = [n.digitChar] :=
  Nat.toDigits_of_lt_base h

theorem head?_append_left {t : List Char} (h : s ≠ []) : (s ++ t).head? = s.head? := by
  obtain ⟨c, s, rfl⟩ := List.exists_cons_of_ne_nil h
  rfl

/-- The last digit is the one that counts ones. -/
theorem digitsOf_append {n d : Nat} (hn : 0 < n) (hd : d < 10) :
    digitsOf (10 * n + d) = digitsOf n ++ [d.digitChar] := by
  rw [← digitsOf_lt hd]
  exact (Nat.toDigits_append_toDigits (by decide) hn hd).symm

theorem head?_digitsOf {n : Nat} (h : 0 < n) : (digitsOf n).head? ≠ some '0' := by
  induction n using Nat.strongRecOn with
  | ind n ih =>
    by_cases hlt : n < 10
    · have hall : ∀ d < 10, 0 < d → [d.digitChar].head? ≠ some '0' := by decide
      rw [digitsOf_lt hlt]
      exact hall n hlt h
    · have hsplit := digitsOf_append (show 0 < n / 10 by omega) (Nat.mod_lt n (by decide))
      rw [Nat.div_add_mod] at hsplit
      rw [hsplit, head?_append_left (digitsOf_ne_nil _)]
      exact ih (n / 10) (by omega) (by omega)

theorem isNotation_digitsOf (n : Nat) : IsNotation (digitsOf n) where
  digits := digitsOf_isDigit n
  ne_nil := digitsOf_ne_nil n
  leading h := by
    obtain rfl | hn := Nat.eq_zero_or_pos n
    · rfl
    · exact absurd h (head?_digitsOf hn)

theorem positional_pos (h : IsNotation s) (hne : s ≠ ['0']) : 0 < positional 10 s := by
  obtain ⟨hdigits, hnil, hleading⟩ := h
  obtain ⟨c, t, rfl⟩ := List.exists_cons_of_ne_nil hnil
  have hc : c ≠ '0' := by
    rintro rfl
    exact hne (hleading rfl)
  have hall : ∀ d < 10, Nat.digitChar d ≠ '0' → 0 < positional 10 [Nat.digitChar d] := by decide
  have hfirst : c ≠ '0' → 0 < positional 10 [c] :=
    forall_digit (P := fun c => c ≠ '0' → 0 < positional 10 [c]) hall
      (hdigits c List.mem_cons_self)
  have happend := positional_append 10 [c] t
  rw [List.singleton_append] at happend
  have hpos := Nat.mul_pos (hfirst hc) (Nat.pow_pos (n := t.length) (by decide : 0 < 10))
  omega

/-- A number has one notation only. -/
theorem digitsOf_positional (h : IsNotation s) : digitsOf (positional 10 s) = s := by
  induction s using List.reverseRecOn with
  | nil => exact absurd rfl h.ne_nil
  | append_singleton t c ih =>
    obtain ⟨ht, hc⟩ := List.forall_mem_append.mp h.digits
    have hlast : ∃ d < 10, c = d.digitChar ∧ positional 10 [c] = d := by
      have hall : ∀ d < 10, ∃ e < 10, d.digitChar = Nat.digitChar e ∧
          positional 10 [d.digitChar] = e := by decide
      exact forall_digit (P := fun c => ∃ d < 10, c = d.digitChar ∧ positional 10 [c] = d) hall
        (hc c List.mem_cons_self)
    obtain ⟨d, hd, rfl, hvalue⟩ := hlast
    rw [positional_append, List.length_singleton, Nat.pow_one, hvalue, Nat.mul_comm]
    by_cases hnil : t = []
    · subst hnil
      rw [positional, List.foldl_nil, Nat.mul_zero, Nat.zero_add]
      exact digitsOf_lt hd
    · -- The digits in front of the last one have no leading zero either, and are not zero.
      have hzero : t.head? ≠ some '0' := by
        intro hhead
        have hlength := congrArg List.length (h.leading (by rw [head?_append_left hnil, hhead]))
        rw [List.length_append] at hlength
        exact hnil (List.eq_nil_of_length_eq_zero (Nat.succ.inj hlength))
      have hfront : IsNotation t := ⟨ht, hnil, fun hhead => absurd hhead hzero⟩
      have hpos := positional_pos hfront (by rintro rfl; exact hzero rfl)
      rw [digitsOf_append hpos hd, ih hfront]

/-! ## Slices of a number -/

theorem padded_isDigit (width n : Nat) : ∀ c ∈ padded width n, c.isDigit = true := by
  intro c hc
  obtain hc | hc := List.mem_append.mp hc
  · rw [List.eq_of_mem_replicate hc]
    rfl
  · exact digitsOf_isDigit n c hc

theorem length_padded {width n : Nat} (hwidth : 0 < width) (h : n < 10 ^ width) :
    (padded width n).length = width := by
  have hle : (digitsOf n).length ≤ width :=
    (Nat.length_toDigits_le_iff (by decide) hwidth).mpr h
  rw [padded, List.length_append, List.length_replicate]
  omega

theorem positional_padded (width n : Nat) : positional 10 (padded width n) = n := by
  rw [padded, positional_zeros, positional_digitsOf]

/-- Put together, the slices are a notation of the number: the one in front has no leading zeros,
and all others have as many digits as a slice has. -/
theorem digitSlices_notation (n : Nat) :
    IsNotation (digitSlices n).reverse.flatten ∧
      positional 10 (digitSlices n).reverse.flatten = n := by
  have hbase : 0 < 10 ^ sliceLength := Nat.pow_pos (by decide)
  fun_induction digitSlices n with
  | case1 n h =>
    rw [List.reverse_singleton, List.flatten_singleton]
    exact ⟨isNotation_digitsOf n, positional_digitsOf n⟩
  | case2 n h ih =>
    obtain ⟨⟨hdigits, hnil, hleading⟩, hvalue⟩ := ih
    rw [List.reverse_cons, List.flatten_append, List.flatten_singleton]
    refine ⟨⟨?_, List.append_ne_nil_of_left_ne_nil hnil _, fun hhead => ?_⟩, ?_⟩
    · exact List.forall_mem_append.mpr ⟨hdigits, padded_isDigit _ _⟩
    · -- More than one slice is written only of numbers that are large enough.
      rw [head?_append_left hnil] at hhead
      have hzero : n / 10 ^ sliceLength = 0 := by
        rw [← hvalue, hleading hhead]
        rfl
      exact absurd (Nat.div_pos (Nat.le_of_not_lt h) hbase) (by omega)
    · rw [positional_append, hvalue, positional_padded,
        length_padded (by decide) (Nat.mod_lt n hbase), Nat.div_add_mod']

theorem digitSlices_flatten (n : Nat) : (digitSlices n).reverse.flatten = digitsOf n := by
  obtain ⟨hwritten, hvalue⟩ := digitSlices_notation n
  rw [← digitsOf_positional hwritten, hvalue]

/-- Slice by slice an integer is written as in one piece. -/
theorem writeSliced_eq_write (n : Int) : writeSliced n = write n := by
  rw [writeSliced, digitSlices_flatten, write]

theorem readSigned?_writeSliced (n : Int) : readSigned? (writeSliced n).toList = some n := by
  rw [writeSliced_eq_write, readSigned?_write]

/-! ## Canonical numerals -/

/-- The canonical numeral of an integer: a notation, behind a minus if it is negative. -/
inductive IsCanonical : Int → List Char → Prop where
  | natural {s : List Char} : IsNotation s → IsCanonical (placeValue s) s
  | negative {s : List Char} : IsNotation s → s ≠ ['0'] → IsCanonical (-placeValue s) ('-' :: s)

theorem isCanonical_write (n : Int) : IsCanonical n (write n).toList := by
  have hwritten := isNotation_digitsOf n.natAbs
  have hvalue : placeValue (digitsOf n.natAbs) = n.natAbs := by
    rw [← positional_eq_placeValue hwritten.digits, positional_digitsOf]
  rw [write, String.toList_ofList]
  split
  · have hne : digitsOf n.natAbs ≠ ['0'] := by
      intro hzero
      rw [hzero] at hvalue
      have : placeValue ['0'] = 0 := by decide
      omega
    have h := IsCanonical.negative hwritten hne
    rwa [hvalue, show -(n.natAbs : Int) = n by omega] at h
  · have h := IsCanonical.natural hwritten
    rwa [hvalue, show (n.natAbs : Int) = n by omega] at h

/-- A canonical numeral is the text of the integer that it stands for. -/
theorem IsCanonical.eq_write {n : Int} (h : IsCanonical n s) : s = (write n).toList := by
  cases h with
  | natural hs =>
    have hvalue := positional_eq_placeValue hs.digits
    rw [write, if_neg (by omega), String.toList_ofList, Int.natAbs_natCast, ← hvalue,
      digitsOf_positional hs]
  | @negative t hs hne =>
    have hvalue := positional_eq_placeValue hs.digits
    have hpos := positional_pos hs hne
    rw [write, if_pos (by omega), String.toList_ofList, Int.natAbs_neg, Int.natAbs_natCast,
      ← hvalue, digitsOf_positional hs]

/-! ## Conversions -/

/-- Whole numbers of any size are converted exactly. An integer is written as its canonical numeral
and read back from it; a canonical numeral is written again as it was read; and digits of any base,
with any leading zeros, are read as the value of their places. -/
theorem conversions_exact :
    (∀ n : Int, IsCanonical n (writeSliced n).toList ∧
      readSigned? (writeSliced n).toList = some n) ∧
    (∀ (n : Int) (s : List Char), IsCanonical n s →
      ∃ m, readSigned? s = some m ∧ (writeSliced m).toList = s) ∧
    ∀ base, 2 ≤ base → base ≤ 36 → ∀ digits : List (DigitIn base),
      readSliced? base (digits.map DigitIn.char) =
        some ((Nat.ofDigits base (digits.map DigitIn.value).reverse : Nat) : Int) := by
  refine ⟨fun n => ⟨?_, readSigned?_writeSliced n⟩, fun n s hs => ⟨n, ?_, ?_⟩,
    fun base hlow hhigh digits => ?_⟩
  · rw [writeSliced_eq_write]
    exact isCanonical_write n
  · rw [hs.eq_write, readSigned?_write]
  · rw [writeSliced_eq_write, hs.eq_write]
  · rw [readSliced?_run hlow hhigh (DigitIn.isDigitIn digits), DigitIn.positional_eq]

/-- The canonical numeral `-120`, and `0fF` among the digits of base 16. -/
theorem conversions_exact_negative_hex :
    IsCanonical (-120) ['-', '1', '2', '0'] ∧
    (∃ m, readSigned? ['-', '1', '2', '0'] = some m ∧
      (writeSliced m).toList = ['-', '1', '2', '0']) ∧
    readSliced? 16 ['0', 'f', 'F'] = some 255 := by
  have hcanonical : IsCanonical (-120) ['-', '1', '2', '0'] :=
    IsCanonical.negative (s := ['1', '2', '0']) ⟨by simp, by decide, by decide⟩ (by decide)
  obtain ⟨-, hread, hdigits⟩ := conversions_exact
  exact ⟨hcanonical, hread _ _ hcanonical, hdigits 16 (by decide) (by decide)
    [⟨'0', 0, by decide, .decimal (z := 48) (by decide) (by decide) (by decide)⟩,
      ⟨'f', 15, by decide, .lower (k := 5) (by decide) (by decide)⟩,
      ⟨'F', 15, by decide, .upper (k := 5) (by decide) (by decide)⟩]⟩

end DhallSyntax.Numeral
