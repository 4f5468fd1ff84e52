import DhallSyntax.Grammar.Literal
import DhallSyntax.Proofs.Number.Numeral
import DhallSyntax.Proofs.Reading.First

/-!
What may follow the `u` of a unicode escape. Main statements:

* `UnicodeEscape.begins_brace` and `UnicodeEscape.begins_four`: whether a scalar value is written at
  the beginning of a text can be seen from its runs of hexadecimal digits;
* `readBy_unicodeEscape_four` and `readBy_unicodeEscape_braced`: a scalar value is read back from its
  digits.
-/

namespace DhallSyntax

open Grammar CharClass
open Numeral (positional)

variable {rules : RuleReader} {s t run : List Char} {c : Char}

/-- The text begins with the rest of a unicode escape: four hexadecimal digits of a scalar value, or
such digits in braces, at most six of them behind leading zeros. -/
inductive UnicodeEscape.Begins : List Char → Prop where
  | four {run : List Char} (rest : List Char) : run.length = 4 →
      (∀ d ∈ run, hexDigit d = true) → (positional 16 run).isValidChar → Begins (run ++ rest)
  | braced {run : List Char} (rest : List Char) : run ≠ [] → (∀ d ∈ run, hexDigit d = true) →
      (run.dropWhile (· == '0')).length ≤ 6 → (positional 16 run).isValidChar →
      Begins ('{' :: (run ++ '}' :: rest))

namespace UnicodeEscape

theorem hexDigit_brace : hexDigit '{' = false ∧ hexDigit '}' = false := by
  decide

/-- Digits do not begin with a brace. -/
theorem head?_digits (hne : run ≠ []) (hdigits : ∀ d ∈ run, hexDigit d = true) (t : List Char) :
    (run ++ t).head?.any (fun d => !hexDigit d) = false := by
  obtain ⟨d, run, rfl⟩ := List.exists_cons_of_ne_nil hne
  have hd := hdigits d List.mem_cons_self
  simp [hd]

/-- In braces the digits are all that stand there, and the closing brace follows them. -/
theorem begins_brace : Begins ('{' :: t) ↔ t.takeWhile hexDigit ≠ [] ∧
    ['}'] <+: t.dropWhile hexDigit ∧
    ((t.takeWhile hexDigit).dropWhile (· == '0')).length ≤ 6 ∧
    (positional 16 (t.takeWhile hexDigit)).isValidChar := by
  constructor
  · intro h
    generalize hs : '{' :: t = s at h
    cases h with
    | @four run rest hlength hdigits hvalid =>
      have hhead := head?_digits (List.ne_nil_of_length_eq_add_one hlength) hdigits rest
      rw [← hs] at hhead
      cases hhead
    | @braced run rest hne hdigits hshort hvalid =>
      obtain ⟨-, rfl⟩ := List.cons.inj hs
      obtain ⟨htake, hdrop⟩ := takeWhile_append_stop (t := '}' :: rest) hdigits hexDigit_brace.2
      rw [htake, hdrop]
      exact ⟨hne, ⟨rest, rfl⟩, hshort, hvalid⟩
  · rintro ⟨hne, ⟨rest, hrest⟩, hshort, hvalid⟩
    have ht : t = t.takeWhile hexDigit ++ '}' :: rest := by
      rw [show '}' :: rest = _ from hrest, List.takeWhile_append_dropWhile]
    rw [ht]
    exact .braced rest hne (fun d hd => List.all_eq_true.mp List.all_takeWhile d hd) hshort hvalid

/-- Without a brace the first four characters are the digits. -/
theorem begins_four (hs : s.head? ≠ some '{') : Begins s ↔ (s.take 4).length = 4 ∧
    (∀ d ∈ s.take 4, hexDigit d = true) ∧ (positional 16 (s.take 4)).isValidChar := by
  constructor
  · intro h
    cases h with
    | @four run rest hlength hdigits hvalid =>
      rw [List.take_left' hlength]
      exact ⟨hlength, hdigits, hvalid⟩
    | braced => exact absurd rfl hs
  · rintro ⟨hlength, hdigits, hvalid⟩
    rw [← List.take_append_drop 4 s]
    exact .four _ hlength hdigits hvalid

end UnicodeEscape

/-! ## Reading scalar values -/

/-- Hexadecimal digits, in either case, for a character. A character is a scalar value, so not all
digits are for one. -/
structure HexCode (run : List Char) (c : Char) : Prop where
  digits : ∀ d ∈ run, hexDigit d = true
  value : positional 16 run = c.toNat

theorem isValidChar_toNat (c : Char) : c.toNat.isValidChar := c.valid

theorem notScalar_iff {code : Nat} :
    (0x10ffff < code || (0xd800 ≤ code && code ≤ 0xdfff)) = true ↔ ¬ code.isValidChar := by
  simp only [Nat.isValidChar, Bool.or_eq_true, Bool.and_eq_true, decide_eq_true_eq]
  omega

theorem scalar_eq {code : Nat} (h : code.isValidChar) (length : Nat) :
    scalar code length = Pure.pure (Char.ofNat code) :=
  if_neg fun hnot => notScalar_iff.mp hnot h

theorem HexCode.readBy_scalar (h : HexCode run c) (length : Nat) :
    (scalar (positional 16 run) length).readBy rules t = .value c t := by
  rw [h.value, scalar_eq (isValidChar_toNat c), Char.ofNat_toNat, readBy_pure]

theorem readBy_unicodeEscape_four (h : HexCode run c) (hlength : run.length = 4)
    (t : List Char) : unicodeEscape.readBy rules (run ++ t) = .value c t := by
  have hhead := UnicodeEscape.head?_digits (List.ne_nil_of_length_eq_add_one hlength) h.digits t
  have hbrace : (accept "\x7b").readBy rules (run ++ t) = .value false (run ++ t) :=
    readBy_accept_of_head "\x7b" (by decide) hhead
  have hall : run.all hexDigit = true := List.all_eq_true.mpr h.digits
  simp only [unicodeEscape, readBy_bind, hbrace, Bool.false_eq_true, if_false,
    Reading.bind_value, readBy_look, List.take_left' hlength, hlength, beq_self_eq_true, hall,
    Bool.and_self, if_true, readBy_advance, List.drop_left' hlength, h.readBy_scalar]

theorem readBy_unicodeEscape_braced (h : HexCode run c) (hne : run ≠ [])
    (hshort : (run.dropWhile (· == '0')).length ≤ 6) (t : List Char) :
    unicodeEscape.readBy rules ('{' :: (run ++ '}' :: t)) = .value c t := by
  obtain ⟨htake, hdrop⟩ := takeWhile_append_stop (t := '}' :: t) h.digits
    UnicodeEscape.hexDigit_brace.2
  have hopen : (accept "\x7b").readBy rules ('{' :: (run ++ '}' :: t)) =
      .value true (run ++ '}' :: t) := rfl
  have hclose : (accept "\x7d").readBy rules ('}' :: t) = .value true t := rfl
  have hempty : run.isEmpty = false := List.isEmpty_eq_false_iff.mpr hne
  simp only [unicodeEscape, readBy_bind, hopen, Reading.bind_value, if_true, readBy_takeWhile,
    htake, hdrop, hempty, Bool.false_eq_true, if_false, hclose, if_neg (Nat.not_lt.mpr hshort),
    h.readBy_scalar]

/-! ## Leading zeros -/

namespace Numeral

theorem positional_cons (base : Nat) (c : Char) (s : List Char) :
    positional base (c :: s) = positional base [c] * base ^ s.length + positional base s :=
  positional_append base [c] s

theorem positional_dropWhile_zero (base : Nat) (s : List Char) :
    positional base (s.dropWhile (· == '0')) = positional base s := by
  induction s with
  | nil => rfl
  | cons c s ih =>
    rw [List.dropWhile_cons]
    split
    · rename_i hc
      obtain rfl := eq_of_beq hc
      have hzero : positional base ['0'] = 0 := by
        simp [positional, show digitValue? '0' = some 0 from rfl]
      rw [positional_cons, hzero, Nat.zero_mul, Nat.zero_add, ih]
    · rfl

theorem positional_hexDigit_pos {c : Char} (h : hexDigit c = true) (hzero : c ≠ '0') :
    0 < positional 16 [c] := by
  have hall : ∀ n < 103, hexDigit (Char.ofNat n) = true → Char.ofNat n ≠ '0' →
      0 < positional 16 [Char.ofNat n] := by decide
  have hlt := hexDigit_iff.mp h
  rw [← Char.ofNat_toNat c] at h hzero ⊢
  exact hall c.toNat (by omega) h hzero

/-- A number below a power of the base has no more digits behind leading zeros. -/
theorem length_dropWhile_zero_le {s : List Char} {n : Nat} (h : ∀ d ∈ s, hexDigit d = true)
    (hlt : positional 16 s < 16 ^ n) : (s.dropWhile (· == '0')).length ≤ n := by
  rw [← positional_dropWhile_zero] at hlt
  have hhead := List.head?_dropWhile_not (· == '0') s
  cases hs : s.dropWhile (· == '0') with
  | nil => exact Nat.zero_le n
  | cons c t =>
    rw [hs] at hlt hhead
    have hc : hexDigit c = true :=
      h c ((List.dropWhile_sublist _).subset (hs ▸ List.mem_cons_self))
    have hpos := positional_hexDigit_pos hc (by simpa using hhead)
    have hpower : 16 ^ t.length < 16 ^ n := by
      rw [positional_cons] at hlt
      exact Nat.lt_of_le_of_lt (Nat.le_add_right_of_le (Nat.le_mul_of_pos_left _ hpos)) hlt
    exact (Nat.pow_lt_pow_iff_right (by decide)).mp hpower

end Numeral

/-- So have the digits of a character. -/
theorem HexCode.short (h : HexCode run c) : (run.dropWhile (· == '0')).length ≤ 6 := by
  refine Numeral.length_dropWhile_zero_le h.digits ?_
  rw [h.value]
  have hvalid := isValidChar_toNat c
  simp only [Nat.isValidChar] at hvalid
  omega

end DhallSyntax
