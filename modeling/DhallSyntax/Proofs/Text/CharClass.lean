import DhallSyntax.Text.CharClass

/-!
Character classes as intervals of code points, on which `omega` decides how they lie to each other.
-/

namespace DhallSyntax.CharClass

theorem le_iff_toNat {a b : Char} : a ≤ b ↔ a.toNat ≤ b.toNat := by
  rw [Char.le_def, UInt32.le_iff_toNat_le]
  rfl

theorem digit_iff {c : Char} : digit c = true ↔ 48 ≤ c.toNat ∧ c.toNat ≤ 57 := by
  simp only [digit, Bool.and_eq_true, decide_eq_true_eq, le_iff_toNat, Char.reduceToNat]

theorem alpha_iff {c : Char} :
    alpha c = true ↔ 65 ≤ c.toNat ∧ c.toNat ≤ 90 ∨ 97 ≤ c.toNat ∧ c.toNat ≤ 122 := by
  simp only [alpha, Bool.or_eq_true, Bool.and_eq_true, decide_eq_true_eq, le_iff_toNat,
    Char.reduceToNat]

theorem hexDigit_iff {c : Char} :
    hexDigit c = true ↔ 48 ≤ c.toNat ∧ c.toNat ≤ 57 ∨ 65 ≤ c.toNat ∧ c.toNat ≤ 70 ∨
      97 ≤ c.toNat ∧ c.toNat ≤ 102 := by
  simp only [hexDigit, Bool.or_eq_true, Bool.and_eq_true, decide_eq_true_eq, digit_iff,
    le_iff_toNat, Char.reduceToNat]
  omega

theorem printableAscii_iff {c : Char} :
    printableAscii c = true ↔ 32 ≤ c.toNat ∧ c.toNat ≤ 126 := by
  simp only [printableAscii, Bool.and_eq_true, decide_eq_true_eq, le_iff_toNat, Char.reduceToNat]

theorem printable_iff {c : Char} :
    printable c = true ↔ 32 ≤ c.toNat ∧ c.toNat ≤ 126 ∨ 128 ≤ c.toNat := by
  simp only [printable, nonAscii, Bool.or_eq_true, decide_eq_true_eq, printableAscii_iff,
    le_iff_toNat, Char.reduceToNat]

theorem quotedLabel_iff {c : Char} :
    quotedLabel c = true ↔ 32 ≤ c.toNat ∧ c.toNat ≤ 126 ∧ c.toNat ≠ 96 := by
  simp only [quotedLabel, Bool.and_eq_true, printableAscii_iff, bne_iff_ne, ne_eq,
    ← Char.toNat_inj, Char.reduceToNat, and_assoc]

theorem labelStart_iff {c : Char} :
    labelStart c = true ↔
      65 ≤ c.toNat ∧ c.toNat ≤ 90 ∨ 97 ≤ c.toNat ∧ c.toNat ≤ 122 ∨ c.toNat = 95 := by
  simp only [labelStart, Bool.or_eq_true, alpha_iff, beq_iff_eq, ← Char.toNat_inj,
    Char.reduceToNat, or_assoc]

theorem labelContinue_iff {c : Char} :
    labelContinue c = true ↔
      65 ≤ c.toNat ∧ c.toNat ≤ 90 ∨ 97 ≤ c.toNat ∧ c.toNat ≤ 122 ∨
        48 ≤ c.toNat ∧ c.toNat ≤ 57 ∨ c.toNat = 45 ∨ c.toNat = 47 ∨ c.toNat = 95 := by
  simp only [labelContinue, alphanumeric, Bool.or_eq_true, alpha_iff, digit_iff, beq_iff_eq,
    ← Char.toNat_inj, Char.reduceToNat, or_assoc]

theorem path_iff {c : Char} :
    path c = true ↔ 33 ≤ c.toNat ∧ c.toNat ≤ 126 ∧
      c.toNat ∉ [34, 35, 40, 41, 44, 47, 60, 62, 63, 91, 92, 93, 123, 125] := by
  have hmem : "\"#(),/<>?[\\]\x7b\x7d".toList.contains c = true ↔
      c.toNat ∈ [34, 35, 40, 41, 44, 47, 60, 62, 63, 91, 92, 93, 123, 125] := by
    simp [← Char.toNat_inj]
  simp only [path, Bool.and_eq_true, Bool.not_eq_true', decide_eq_true_eq, le_iff_toNat,
    Char.reduceToNat, and_assoc, ← hmem, Bool.not_eq_true]

/-- What is decided of the characters of a text one by one holds of each of them. -/
theorem forall_mem_of_all {P : Char → Prop} [DecidablePred P] {text : List Char}
    (h : text.all (fun c => decide (P c)) = true) : ∀ c ∈ text, P c :=
  fun c hc => of_decide_eq_true (List.all_eq_true.mp h c hc)

/-- A text that has no character of a class. -/
theorem not_contains {chars : CharClass} {text : List Char}
    (h : text.all (fun c => !chars c) = true) (c : Char) (hc : chars c = true) :
    text.contains c = false := by
  cases ht : text.contains c with
  | false => rfl
  | true =>
    have hn := List.all_eq_true.mp h c (List.contains_iff_mem.mp ht)
    rw [hc] at hn
    cases hn

theorem head?_of_any {chars : CharClass} {s : List Char} (h : s.head?.any chars = true) :
    ∃ c t, s = c :: t ∧ chars c = true := by
  cases s with
  | nil => cases h
  | cons c t => exact ⟨c, t, rfl, h⟩

/-- A text that begins with a character of a class begins with none of a class apart from it. -/
theorem head?_any_disjoint {chars chars' : CharClass}
    (hc : ∀ c, chars c = true → chars' c = false) {s : List Char}
    (h : s.head?.any chars = true) : s.head?.any chars' = false := by
  obtain ⟨c, t, rfl, hs⟩ := head?_of_any h
  exact hc c hs

/-- A text that begins with no character of a class begins with none of some of its characters. -/
theorem head?_any_of_all {text : List Char} {chars : CharClass} (hall : text.all chars = true)
    {s : List Char} (h : s.head?.any chars = false) : s.head?.any text.contains = false := by
  cases s with
  | nil => rfl
  | cons c s =>
    cases hc : text.contains c with
    | false => exact hc
    | true =>
      have hchars := List.all_eq_true.mp hall c (List.contains_iff_mem.mp hc)
      exact absurd (h.symm.trans hchars) (by decide)

theorem quotedLabel_of_labelContinue {c : Char} (h : labelContinue c = true) :
    quotedLabel c = true := by
  rw [labelContinue_iff] at h
  rw [quotedLabel_iff]
  omega

end DhallSyntax.CharClass
