import DhallSyntax.Number.Numeral
import Mathlib.Data.Int.ModEq
import Mathlib.Tactic.Ring
import Mathlib.Tactic.LinearCombination
import Mathlib.Tactic.Linarith

/-!
Numbers put together from pieces that hold other characters than digits. A piece shifts what is in
front of it by all of its characters, where the value of the number shifts it by the digits only.
Main statements:

* `Piece.wide_eq_narrow_iff`: the two agree if and only if nothing but digits is behind a digit
  other than zero;
* `Piece.opposite_iff`: where a minus counts for the first piece alone, the others have to be zero
  as well.
-/

namespace DhallSyntax.Numeral

/-- A piece of a number: how many digits it has, how many other characters, and the value of the
digits. -/
structure Piece where
  digits : Nat
  gaps : Nat
  value : Nat
  value_lt : value < 10 ^ digits

namespace Piece

/-- What pieces make of a value in front of them if all of their characters shift it. -/
def wide (value : Nat) (pieces : List Piece) : Nat :=
  pieces.foldl (fun value p => value * 10 ^ (p.digits + p.gaps) + p.value) value

/-- What pieces make of a value in front of them if their digits alone shift it. -/
def narrow (value : Nat) (pieces : List Piece) : Nat :=
  pieces.foldl (fun value p => value * 10 ^ p.digits + p.value) value

def digitCount (pieces : List Piece) : Nat := (pieces.map digits).sum

def gapCount (pieces : List Piece) : Nat := (pieces.map gaps).sum

variable {p : Piece} {pieces : List Piece} {value : Nat}

@[simp] theorem wide_nil : wide value [] = value := rfl

@[simp] theorem narrow_nil : narrow value [] = value := rfl

theorem wide_cons :
    wide value (p :: pieces) = wide (value * 10 ^ (p.digits + p.gaps) + p.value) pieces := rfl

theorem narrow_cons :
    narrow value (p :: pieces) = narrow (value * 10 ^ p.digits + p.value) pieces := rfl

@[simp] theorem digitCount_nil : digitCount [] = 0 := rfl

@[simp] theorem digitCount_cons : digitCount (p :: pieces) = p.digits + digitCount pieces := by
  simp [digitCount]

@[simp] theorem gapCount_nil : gapCount [] = 0 := rfl

@[simp] theorem gapCount_cons : gapCount (p :: pieces) = p.gaps + gapCount pieces := by
  simp [gapCount]

theorem wide_eq (value : Nat) (pieces : List Piece) :
    wide value pieces = value * 10 ^ (digitCount pieces + gapCount pieces) + wide 0 pieces := by
  induction pieces generalizing value with
  | nil => simp
  | cons p pieces ih =>
    rw [wide_cons, wide_cons, ih, ih (0 * _ + _), digitCount_cons, gapCount_cons]
    ring

theorem narrow_eq (value : Nat) (pieces : List Piece) :
    narrow value pieces = value * 10 ^ digitCount pieces + narrow 0 pieces := by
  induction pieces generalizing value with
  | nil => simp
  | cons p pieces ih =>
    rw [narrow_cons, narrow_cons, ih, ih (0 * _ + _), digitCount_cons]
    ring

theorem wide_zero_cons : wide 0 (p :: pieces) =
    p.value * 10 ^ (digitCount pieces + gapCount pieces) + wide 0 pieces := by
  rw [wide_cons, wide_eq, Nat.zero_mul, Nat.zero_add]

theorem narrow_zero_cons :
    narrow 0 (p :: pieces) = p.value * 10 ^ digitCount pieces + narrow 0 pieces := by
  rw [narrow_cons, narrow_eq, Nat.zero_mul, Nat.zero_add]

/-! ## Shifting by more than the digits -/

theorem narrow_le_wide {value' : Nat} (h : value ≤ value') :
    narrow value pieces ≤ wide value' pieces := by
  induction pieces generalizing value value' with
  | nil => exact h
  | cons p pieces ih =>
    have hpow : 10 ^ p.digits ≤ 10 ^ (p.digits + p.gaps) :=
      Nat.pow_le_pow_right (by decide) (Nat.le_add_right _ _)
    exact ih (Nat.add_le_add_right (Nat.mul_le_mul h hpow) _)

theorem narrow_lt_wide {value' : Nat} (h : value < value') :
    narrow value pieces < wide value' pieces := by
  have hle : narrow (value + 1) pieces ≤ wide value' pieces := narrow_le_wide h
  have hpos : 0 < 10 ^ digitCount pieces := Nat.pow_pos (by decide)
  rw [narrow_eq] at hle ⊢
  rw [Nat.add_mul] at hle
  omega

/-- Shifting by all characters does no harm as long as there is nothing to be shifted. -/
theorem wide_eq_narrow_iff (value : Nat) (pieces : List Piece) :
    wide value pieces = narrow value pieces ↔
      ∀ front back, pieces = front ++ back → 0 < narrow value front → ∀ p ∈ back, p.gaps = 0 := by
  induction pieces generalizing value with
  | nil =>
    refine iff_of_true rfl fun front back h _ p hp => ?_
    obtain ⟨-, rfl⟩ := List.append_eq_nil_iff.mp h.symm
    cases hp
  | cons p pieces ih =>
    have hsplit : (∀ front back, p :: pieces = front ++ back → 0 < narrow value front →
        ∀ q ∈ back, q.gaps = 0) ↔ (0 < value → p.gaps = 0) ∧
        ∀ front back, pieces = front ++ back →
          0 < narrow (value * 10 ^ p.digits + p.value) front → ∀ q ∈ back, q.gaps = 0 := by
      constructor
      · intro h
        refine ⟨fun hpos => h [] _ rfl hpos p List.mem_cons_self, fun front back hcut => ?_⟩
        exact h (p :: front) back (congrArg (p :: ·) hcut)
      · rintro ⟨hp, h⟩ front back hcut hpos
        cases front with
        | nil =>
          obtain rfl : p :: pieces = back := hcut
          refine List.forall_mem_cons.mpr ⟨hp hpos, h [] pieces rfl ?_⟩
          exact Nat.add_pos_left (Nat.mul_pos hpos (Nat.pow_pos (by decide))) _
        | cons q front =>
          obtain ⟨rfl, rfl⟩ := List.cons.inj hcut
          exact h front back rfl hpos
    rw [hsplit, wide_cons, narrow_cons]
    by_cases hp : 0 < value → p.gaps = 0
    · have hshift : value * 10 ^ (p.digits + p.gaps) = value * 10 ^ p.digits := by
        obtain rfl | hpos := Nat.eq_zero_or_pos value
        · rw [Nat.zero_mul, Nat.zero_mul]
        · rw [hp hpos, Nat.add_zero]
      rw [hshift, ih]
      exact (and_iff_right hp).symm
    · refine iff_of_false (Nat.ne_of_gt (narrow_lt_wide ?_)) fun h => hp h.1
      obtain ⟨hpos, hgaps⟩ := Classical.not_imp.mp hp
      have hpow : 10 ^ p.digits < 10 ^ (p.digits + p.gaps) :=
        Nat.pow_lt_pow_right (by decide) (by omega)
      exact Nat.add_lt_add_right (Nat.mul_lt_mul_of_pos_left hpow hpos) _

/-! ## A minus that counts for the first piece alone -/

theorem narrow_lt (pieces : List Piece) : narrow 0 pieces < 10 ^ digitCount pieces := by
  induction pieces with
  | nil => exact Nat.one_pos
  | cons p pieces ih =>
    have hstep := Nat.mul_le_mul_right (10 ^ digitCount pieces) p.value_lt
    rw [Nat.succ_mul, ← Nat.pow_add] at hstep
    rw [narrow_zero_cons, digitCount_cons]
    omega

theorem wide_cons_lt (h : wide 0 pieces < 10 ^ (digitCount pieces + gapCount pieces)) :
    wide 0 (p :: pieces) < 10 ^ (p.digits + (digitCount pieces + gapCount pieces)) := by
  have hstep := Nat.mul_le_mul_right (10 ^ (digitCount pieces + gapCount pieces)) p.value_lt
  rw [Nat.succ_mul, ← Nat.pow_add] at hstep
  rw [wide_zero_cons]
  omega

theorem wide_lt (pieces : List Piece) :
    wide 0 pieces < 10 ^ (digitCount pieces + gapCount pieces) := by
  induction pieces with
  | nil => exact Nat.one_pos
  | cons p pieces ih =>
    refine Nat.lt_of_lt_of_le (wide_cons_lt ih) (Nat.pow_le_pow_right (by decide) ?_)
    rw [digitCount_cons, gapCount_cons]
    omega

/-- The gaps of the first piece do not make the number any larger. -/
theorem wide_add_narrow_lt (p : Piece) (pieces : List Piece) :
    wide 0 (p :: pieces) + narrow 0 (p :: pieces) <
      (10 ^ gapCount pieces + 1) * 10 ^ digitCount (p :: pieces) := by
  have hwide := wide_cons_lt (p := p) (wide_lt pieces)
  rw [← Nat.add_assoc, ← digitCount_cons] at hwide
  rw [Nat.succ_mul, ← Nat.pow_add, Nat.add_comm (gapCount pieces)]
  exact Nat.add_lt_add hwide (narrow_lt _)

/-- Up to multiples of `10 ^ k + 1` a number is twice a power of ten or the negative of one. -/
def Twice (k : Nat) (c : Int) : Prop :=
  ∃ r, c ≡ 2 * 10 ^ r [ZMOD 10 ^ k + 1] ∨ c ≡ -(2 * 10 ^ r) [ZMOD 10 ^ k + 1]

section Residues

variable {k : Nat} {c : Int}

/-- The `k`-th power of ten changes the sign only. -/
theorem pow_add_modEq (k r : Nat) : (10 : Int) ^ (r + k) ≡ -10 ^ r [ZMOD 10 ^ k + 1] :=
  Int.modEq_iff_dvd.mpr ⟨-10 ^ r, by ring⟩

theorem Twice.shift (h : Twice k c) (d a : Nat) : Twice k (c * 10 ^ d - a * (10 ^ k + 1)) := by
  have hmod : c * 10 ^ d - a * (10 ^ k + 1) ≡ c * 10 ^ d [ZMOD 10 ^ k + 1] :=
    Int.modEq_iff_dvd.mpr ⟨a, by ring⟩
  obtain ⟨r, h | h⟩ := h
  · refine ⟨r + d, .inl (hmod.trans ?_)⟩
    have := h.mul_right (10 ^ d)
    rwa [Int.mul_assoc, ← Int.pow_add] at this
  · refine ⟨r + d, .inr (hmod.trans ?_)⟩
    have := h.mul_right (10 ^ d)
    rwa [Int.neg_mul, Int.mul_assoc, ← Int.pow_add] at this

/-- The power can be taken to be smaller than the `k`-th. -/
theorem Twice.exists_lt (hk : 0 < k) (h : Twice k c) :
    ∃ r < k, c ≡ 2 * 10 ^ r [ZMOD 10 ^ k + 1] ∨ c ≡ -(2 * 10 ^ r) [ZMOD 10 ^ k + 1] := by
  obtain ⟨r, h⟩ := h
  induction r using Nat.strongRecOn with
  | ind r ih =>
    by_cases hr : r < k
    · exact ⟨r, hr, h⟩
    · have hpow := (pow_add_modEq k (r - k)).mul_left 2
      rw [Nat.sub_add_cancel (Nat.le_of_not_lt hr), Int.mul_neg] at hpow
      refine ih (r - k) (by omega) ?_
      obtain h | h := h
      · exact .inr (h.trans hpow)
      · refine .inl (h.trans ?_)
        have := hpow.neg
        rwa [Int.neg_neg] at this

/-- Among the small numbers only twice the powers of ten themselves are left. -/
theorem Twice.eq_of_le {j : Nat} (h : Twice k c) (hj : j < k) (hc : 0 ≤ c) (hle : c ≤ 10 ^ j) :
    ∃ r, c = 2 * 10 ^ r := by
  obtain ⟨r, hr, h⟩ := h.exists_lt (Nat.zero_lt_of_lt hj)
  have hpow : ∀ i < k, (10 : Int) * 10 ^ i ≤ 10 ^ k ∧ (0 : Int) < 10 ^ i := by
    intro i hi
    have hle : 10 ^ (i + 1) ≤ 10 ^ k := Nat.pow_le_pow_right (by decide) hi
    have hpos : 0 < 10 ^ i := Nat.pow_pos (by decide)
    rw [Nat.pow_succ] at hle
    exact ⟨by exact_mod_cast (by omega : 10 * 10 ^ i ≤ 10 ^ k), by exact_mod_cast hpos⟩
  obtain ⟨hjle, hjpos⟩ := hpow j hj
  obtain ⟨hrle, hrpos⟩ := hpow r hr
  obtain h | h := h
  · refine ⟨r, ?_⟩
    rwa [Int.ModEq, Int.emod_eq_of_lt hc (by omega), Int.emod_eq_of_lt (by omega) (by omega)] at h
  · have hadd := h.add_right (10 ^ k + 1)
    have hsum : c + (10 ^ k + 1) ≡ c [ZMOD 10 ^ k + 1] := Int.add_modEq_right
    have heq := hsum.symm.trans hadd
    rw [Int.ModEq, Int.emod_eq_of_lt hc (by omega), Int.emod_eq_of_lt (by omega) (by omega)] at heq
    omega

end Residues

/-- What both ways of shifting make of pieces with gaps does not add up to a shifted number of the
kind `Twice`. The number that is left behind the first piece is of the kind again; if there are gaps
in that piece, the number has to be small, so that it is of the kind for fewer gaps as well. -/
theorem wide_add_narrow_ne {c : Int} (hgaps : 0 < gapCount pieces)
    (hc : Twice (gapCount pieces) c) :
    (wide 0 pieces : Int) + narrow 0 pieces ≠ c * 10 ^ digitCount pieces := by
  induction pieces generalizing c with
  | nil => exact absurd hgaps (Nat.lt_irrefl 0)
  | cons p pieces ih =>
    intro hsum
    have hrest : (wide 0 pieces : Int) + narrow 0 pieces =
        (c * 10 ^ p.digits - p.value * (10 ^ gapCount pieces + 1)) * 10 ^ digitCount pieces := by
      rw [wide_zero_cons, narrow_zero_cons, digitCount_cons, Int.pow_add] at hsum
      push_cast at hsum
      linear_combination hsum
    by_cases hp : p.gaps = 0
    · rw [gapCount_cons, hp, Nat.zero_add] at hgaps hc
      exact ih hgaps (hc.shift _ _) hrest
    · have hpos : (0 : Int) < 10 ^ digitCount (p :: pieces) := by positivity
      have hnonneg : 0 ≤ c := by
        refine nonneg_of_mul_nonneg_left ?_ hpos
        rw [← hsum]
        positivity
      have hsmall : c < 10 ^ gapCount pieces + 1 := by
        refine lt_of_mul_lt_mul_right ?_ hpos.le
        rw [← hsum]
        exact_mod_cast wide_add_narrow_lt p pieces
      have hfewer : gapCount pieces < gapCount (p :: pieces) := by
        rw [gapCount_cons]
        omega
      obtain ⟨r, rfl⟩ := hc.eq_of_le hfewer hnonneg (Int.lt_add_one_iff.mp hsmall)
      refine ih ?_ (Twice.shift ⟨r, .inl rfl⟩ _ _) hrest
      -- Twice a power of ten is more than one.
      by_contra hnone
      rw [Nat.eq_zero_of_not_pos hnone] at hsmall
      have hpos : (0 : Int) < 10 ^ r := by positivity
      omega

/-- If a minus counts for the value in front only, that value is negated and shifted by all
characters of the pieces, and what is in the pieces is added. The result is the negative of what the
digits make together only if there is nothing in the pieces. -/
theorem opposite_iff (value : Nat) (pieces : List Piece) :
    -(value : Int) * 10 ^ (digitCount pieces + gapCount pieces) + wide 0 pieces =
        -(narrow value pieces : Int) ↔
      wide value pieces = narrow value pieces ∧ narrow 0 pieces = 0 := by
  have hwide := wide_lt pieces
  have hnarrow := narrow_lt pieces
  rw [wide_eq value, narrow_eq value]
  have hshifts : 10 ^ digitCount pieces ≤ 10 ^ (digitCount pieces + gapCount pieces) :=
    Nat.pow_le_pow_right (by decide) (Nat.le_add_right _ _)
  have hmul := Nat.mul_le_mul_left value hshifts
  constructor
  · intro h
    have hsum : value * 10 ^ (digitCount pieces + gapCount pieces) =
        value * 10 ^ digitCount pieces + (wide 0 pieces + narrow 0 pieces) := by
      push_cast at h
      zify
      linear_combination -h
    suffices hnothing : wide 0 pieces + narrow 0 pieces = 0 by omega
    obtain hgaps | hgaps := Nat.eq_zero_or_pos (gapCount pieces)
    · rw [hgaps, Nat.add_zero] at hsum
      omega
    · have hten : 10 * 10 ^ digitCount pieces ≤ 10 ^ (digitCount pieces + gapCount pieces) := by
        rw [Nat.mul_comm, ← Nat.pow_succ]
        exact Nat.pow_le_pow_right (by decide) (by omega)
      obtain rfl | rfl | htwo : value = 0 ∨ value = 1 ∨ 2 ≤ value := by omega
      · omega
      · have hkind : Twice (gapCount pieces) (10 ^ gapCount pieces - 1) :=
          ⟨0, .inr (Int.modEq_iff_dvd.mpr ⟨-1, by ring⟩)⟩
        refine absurd ?_ (wide_add_narrow_ne hgaps hkind)
        zify at hsum
        rw [Int.pow_add] at hsum
        linear_combination -hsum
      · obtain ⟨more, rfl⟩ := Nat.exists_eq_add_of_le htwo
        have hmore := Nat.mul_le_mul_left more hshifts
        rw [Nat.add_mul, Nat.add_mul] at hsum
        omega
  · rintro ⟨hsame, hzero⟩
    rw [hzero] at hsame ⊢
    obtain ⟨hnone, hshift⟩ : wide 0 pieces = 0 ∧ value * 10 ^ digitCount pieces =
        value * 10 ^ (digitCount pieces + gapCount pieces) := by omega
    rw [hnone, hshift]
    push_cast
    ring

end Piece

end DhallSyntax.Numeral
