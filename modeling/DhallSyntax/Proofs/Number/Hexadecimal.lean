import DhallSyntax.Proofs.Number.Numeral
import DhallSyntax.Text.Quoted
import Mathlib.Data.List.Basic

/-!
Hexadecimal codes. Main statement: `hexDigits_spec`, a number below a power of sixteen is the value
of as many digits, in capitals as well.
-/

namespace DhallSyntax

open Numeral (positional positional_zeros positional_toDigits digitValue?)

theorem exists_digit_of_mem_toDigits {base : Nat} (hbase : 1 < base) {n : Nat} {c : Char}
    (hc : c ∈ Nat.toDigits base n) : ∃ d < base, c = Nat.digitChar d := by
  induction n using Nat.strongRecOn with
  | ind n ih =>
    rw [Nat.toDigits_eq_if hbase] at hc
    split at hc
    · rename_i h
      exact ⟨n, h, List.mem_singleton.mp hc⟩
    · obtain hc | hc := List.mem_append.mp hc
      · exact ih _ (Nat.div_lt_self (by omega) hbase) hc
      · exact ⟨n % base, Nat.mod_lt n (by omega), List.mem_singleton.mp hc⟩

/-- A character is a hexadecimal digit, and so is its capital, with the same value. -/
def IsHexDigit (c : Char) : Prop :=
  CharClass.hexDigit c = true ∧ CharClass.hexDigit c.toUpper = true ∧
    digitValue? c.toUpper = digitValue? c

instance (c : Char) : Decidable (IsHexDigit c) := inferInstanceAs (Decidable (_ ∧ _))

theorem isHexDigit_of_mem {width n : Nat} {c : Char} (hc : c ∈ (hexDigits width n).toList) :
    IsHexDigit c := by
  have hall : ∀ d < 16, IsHexDigit (Nat.digitChar d) := by decide
  rw [hexDigits, String.toList_ofList] at hc
  obtain hc | hc := List.mem_append.mp hc
  · rw [List.eq_of_mem_replicate hc]
    decide
  · obtain ⟨d, hd, rfl⟩ := exists_digit_of_mem_toDigits (by decide) hc
    exact hall d hd

/-- A number below a power of sixteen is the value of as many digits. -/
theorem hexDigits_spec {width n : Nat} (hwidth : 0 < width) (h : n < 16 ^ width) :
    (hexDigits width n).toList.length = width ∧
      (hexDigits width n).toList.all CharClass.hexDigit = true ∧
      positional 16 (hexDigits width n).toList = n := by
  refine ⟨?_, List.all_eq_true.mpr fun c hc => (isHexDigit_of_mem hc).1, ?_⟩
  · have hlength := (Nat.length_toDigits_le_iff (by decide) hwidth).mpr h
    rw [hexDigits, String.toList_ofList, List.length_append, List.length_replicate]
    omega
  · rw [hexDigits, String.toList_ofList, positional_zeros,
      positional_toDigits (by decide) (by decide)]

theorem positional_map_toUpper {s : List Char} (h : ∀ c ∈ s, IsHexDigit c) :
    positional 16 (s.map Char.toUpper) = positional 16 s := by
  rw [positional, List.foldl_map]
  exact List.foldl_ext _ _ _ fun value c hc => by rw [(h c hc).2.2]

/-- The same in capitals. -/
theorem hexDigits_capitals {width n : Nat} (hwidth : 0 < width) (h : n < 16 ^ width) :
    ((hexDigits width n).toList.map Char.toUpper).length = width ∧
      ((hexDigits width n).toList.map Char.toUpper).all CharClass.hexDigit = true ∧
      positional 16 ((hexDigits width n).toList.map Char.toUpper) = n := by
  obtain ⟨hlength, -, hvalue⟩ := hexDigits_spec hwidth h
  refine ⟨by rw [List.length_map, hlength], ?_, ?_⟩
  · rw [List.all_map]
    exact List.all_eq_true.mpr fun c hc => (isHexDigit_of_mem hc).2.1
  · rw [positional_map_toUpper fun c hc => isHexDigit_of_mem hc, hvalue]

end DhallSyntax
