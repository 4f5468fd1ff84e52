import DhallSyntax.Proofs.Number.Conversion
import DhallSyntax.Proofs.Text.Pattern
import DhallSyntax.Proofs.Yaml.Plain
import DhallSyntax.Yaml.Value

/-!
YAML scalars that are single words: numbers, the word for nothing, and the keys of objects. Main
statements: `scalarValue_write`, an integer that has not too many digits is read back from its
digits; `allowsPlain_word` and `plainText_word`, a word is written as it is.
-/

namespace DhallSyntax.Yaml

open Numeral (digitsOf digitsOf_isDigit isNotation_digitsOf IsDigitIn digit_value)

variable {s rest : List Char} {c : Char}

/-! ## Words -/

/-- The characters of words. -/
def isWordChar : CharClass := fun c => CharClass.alphanumeric c || c == '_'

theorem isWordChar_iff : isWordChar c = true ↔
    48 ≤ c.toNat ∧ c.toNat ≤ 57 ∨ 65 ≤ c.toNat ∧ c.toNat ≤ 90 ∨ 97 ≤ c.toNat ∧ c.toNat ≤ 122 ∨
      c.toNat = 95 := by
  simp only [isWordChar, CharClass.alphanumeric, Bool.or_eq_true, CharClass.alpha_iff,
    CharClass.digit_iff, beq_iff_eq, ← Char.toNat_inj, Char.reduceToNat]
  omega

/-- A character with no meaning of its own anywhere in a plain scalar. -/
def IsMute (c : Char) : Prop :=
  isOrdinary c = true ∧ isBlankOrBreak c = false ∧ c ≠ ':' ∧ c ≠ '#'

theorem isMute_of_word (h : isWordChar c = true) : IsMute c := by
  have hc := isWordChar_iff.mp h
  simp only [IsMute, isOrdinary, isAsciiShown, isBlankOrBreak, isAnyBreak, isBreak,
    Bool.or_eq_true, Bool.and_eq_true, decide_eq_true_eq, CharClass.le_iff_toNat, Char.reduceToNat,
    Bool.or_eq_false_iff, beq_eq_false_iff_ne, ne_eq, ← Char.toNat_inj, beq_iff_eq]
  omega

theorem isMute_minus : IsMute '-' := by
  refine ⟨rfl, rfl, by decide, by decide⟩

theorem hasInnerMark_mute (h : ∀ c ∈ s, IsMute c) : hasInnerMark s = false := by
  induction s with
  | nil => rfl
  | cons c s ih =>
    unfold hasInnerMark
    rw [ih fun d hd => h d (List.mem_cons_of_mem _ hd), Bool.or_false]
    split
    · exact absurd rfl (h ':' (by simp)).2.2.1
    · exact absurd rfl (h '#' (by simp)).2.2.2
    · rfl

theorem needsDouble_mute (h : ∀ c ∈ s, IsMute c) : needsDouble s = false := by
  have hspace : ' ' ∉ s := fun hs => absurd (h _ hs).2.1 (by decide)
  simp only [needsDouble, neighbours, Bool.or_eq_false_iff, List.any_eq_false, Bool.or_eq_true,
    Bool.and_eq_true, beq_iff_eq]
  refine ⟨fun c hc => by simp [(h c hc).1], ?_⟩
  rintro ⟨a, b⟩ hab (⟨rfl, -⟩ | ⟨-, rfl⟩)
  · exact hspace (List.of_mem_zip hab).1
  · exact hspace (List.mem_of_mem_tail (List.of_mem_zip hab).2)

theorem allowsPlain_mute (h : ∀ c ∈ s, IsMute c) (hdocument : hasDocumentMark s = false)
    (hlead : hasLeadingMark s = false) : allowsPlain s = true := by
  have hspace : ' ' ∉ s := fun hs => absurd (h _ hs).2.1 (by decide)
  have hbreak : s.any isBreak = false := by
    rw [List.any_eq_false]
    exact fun c hc => by simp [(isBlankOrBreak_eq_false.mp (h c hc).2.1).2.2.2]
  have hhead : s.head? ≠ some ' ' := fun hs => hspace (List.mem_of_head? hs)
  have hlast : s.getLast? ≠ some ' ' := fun hs => hspace (List.mem_of_getLast? hs)
  simp [allowsPlain, hdocument, hlead, hasInnerMark_mute h, hbreak, needsDouble_mute h, hhead,
    hlast]

theorem allowsPlain_word (hne : s ≠ []) (h : ∀ c ∈ s, isWordChar c = true) :
    allowsPlain s = true := by
  obtain ⟨c, s, rfl⟩ := List.exists_cons_of_ne_nil hne
  have hc := h c List.mem_cons_self
  have hmark : c ≠ '-' ∧ c ≠ '.' ∧ c ≠ '?' ∧ c ≠ ':' := by
    refine ⟨?_, ?_, ?_, ?_⟩ <;> rintro rfl <;> cases hc
  refine allowsPlain_mute (fun c hc => isMute_of_word (h c hc)) ?_ ?_
  · simp [hasDocumentMark, List.isPrefixOf, hmark.1.symm, hmark.2.1.symm]
  · have hlist : "#,[]\x7b\x7d&*!|>'\"%@`".toList.contains c = false :=
      CharClass.not_contains (by decide) c hc
    simp only [hasLeadingMark, hlist]
    simp [hmark]

/-- A minus in front of a word. -/
theorem allowsPlain_minus (hne : s ≠ []) (h : ∀ c ∈ s, isWordChar c = true) :
    allowsPlain ('-' :: s) = true := by
  obtain ⟨c, s, rfl⟩ := List.exists_cons_of_ne_nil hne
  have hc := h c List.mem_cons_self
  have hmark : c ≠ '-' ∧ c ≠ '\x00' := by constructor <;> rintro rfl <;> cases hc
  refine allowsPlain_mute ?_ ?_ ?_
  · intro d hd
    obtain rfl | hd := List.mem_cons.mp hd
    · exact isMute_minus
    · exact isMute_of_word (h d hd)
  · simp [hasDocumentMark, List.isPrefixOf, hmark.1.symm]
  · simp [hasLeadingMark, isBlankNext, hmark.2, (isMute_of_word hc).2.1]

/-- A text without spaces and line breaks is not folded. -/
theorem plainText_solid {indent column : Nat} {previous : Option Char}
    (h : ∀ c ∈ s, isBlankOrBreak c = false) : plainText indent previous column s = s := by
  induction s generalizing previous column with
  | nil => rfl
  | cons c s ih =>
    have hc := isBlankOrBreak_eq_false.mp (h c List.mem_cons_self)
    have hrest := @ih (column + 1) (some c) fun d hd => h d (List.mem_cons_of_mem _ hd)
    simp only [plainText] at hrest
    simp [plainText, flowText, hc.1, hc.2.2.2, hrest]

/-! ## Types -/

theorem ofPlain_null : ScalarType.ofPlain "null".toList = .null := by decide +kernel

theorem ne_nil_of_text (h : ScalarType.ofPlain s = .text) : s ≠ [] := by
  rintro rfl
  have hnull : ScalarType.ofPlain [] = .null := by decide +kernel
  rw [hnull] at h
  cases h

/-- The digits of a number, behind a minus if it is negative. -/
theorem write_eq (n : Int) : ∃ sign, (sign = [] ∨ sign = ['-']) ∧
    (Numeral.write n).toList = sign ++ digitsOf n.natAbs := by
  rw [Numeral.write, String.toList_ofList]
  split
  · exact ⟨['-'], .inr rfl, rfl⟩
  · exact ⟨[], .inl rfl, rfl⟩

theorem isWordChar_of_digit (h : c.isDigit = true) : isWordChar c = true :=
  Numeral.forall_digit (P := fun c => isWordChar c = true) (by decide) h

theorem write_ne_nil (n : Int) : (Numeral.write n).toList ≠ [] := by
  obtain ⟨sign, -, h⟩ := write_eq n
  rw [h]
  exact List.append_ne_nil_of_right_ne_nil _ (Numeral.digitsOf_ne_nil _)

theorem isMute_write (n : Int) : ∀ c ∈ (Numeral.write n).toList, IsMute c := by
  have hdigits : ∀ c ∈ digitsOf n.natAbs, IsMute c := fun c hc =>
    isMute_of_word (isWordChar_of_digit (digitsOf_isDigit _ c hc))
  obtain ⟨sign, rfl | rfl, h⟩ := write_eq n
  · rwa [h]
  · rw [h]
    exact List.forall_mem_cons.mpr ⟨isMute_minus, hdigits⟩

theorem allowsPlain_write (n : Int) : allowsPlain (Numeral.write n).toList = true := by
  have hdigits : ∀ c ∈ digitsOf n.natAbs, isWordChar c = true := fun c hc =>
    isWordChar_of_digit (digitsOf_isDigit _ c hc)
  have hne := Numeral.digitsOf_ne_nil n.natAbs
  obtain ⟨sign, rfl | rfl, h⟩ := write_eq n
  · rw [h]
    exact allowsPlain_word hne hdigits
  · rw [h]
    exact allowsPlain_minus hne hdigits

namespace ScalarType

open Pattern

/-- No word for a truth value begins like a number. -/
theorem not_matches_bool (h : c.isDigit = true ∨ c = '-') : ¬ Matches boolPattern (c :: s) := by
  intro hmatch
  obtain ⟨w, hw, hs⟩ := matches_words.mp hmatch
  have hall : ∀ w ∈ ["yes", "no", "true", "false", "on", "off"].flatMap inThreeCases,
      w.toList.head?.all CharClass.alpha = true := by decide +kernel
  have hc := hall w hw
  rw [← hs] at hc
  have hc : CharClass.alpha c = true := hc
  obtain h | rfl := h
  · have := CharClass.alpha_iff.mp hc
    have := Char.isDigit_iff_toNat.mp h
    simp only [Char.reduceToNat] at this
    omega
  · cases hc

/-- All forms of fractions have a point. -/
theorem mem_of_matches_float (h : Matches floatPattern s) : '.' ∈ s := by
  obtain ⟨p, hp, h⟩ := matches_oneOf.mp h
  simp only [List.mem_cons, List.not_mem_nil, or_false] at hp
  obtain rfl | rfl | rfl | rfl | rfl := hp
  · exact mem_of_matches_sequence (by simp) h
  · exact mem_of_matches_sequence (by simp) h
  · exact mem_of_matches_sequence (by simp) h
  · exact mem_of_matches_sequence (by simp) h
  · obtain ⟨t, u, rfl, ht, -⟩ := matches_seq.mp h
    rw [matches_char.mp ht]
    simp

theorem matches_int {sign digits : List Char} (hsign : sign = [] ∨ sign = ['-'])
    (h : Numeral.IsNotation digits) : Matches intPattern (sign ++ digits) := by
  refine matches_oneOf.mpr ⟨_, List.mem_cons_of_mem _ (List.mem_cons_of_mem _ List.mem_cons_self),
    .seq ?_ ?_⟩
  · obtain rfl | rfl := hsign
    · exact .right .empty
    · exact .left (.one rfl)
  · obtain ⟨hdigits, hne, hleading⟩ := h
    obtain ⟨c, rest, rfl⟩ := List.exists_cons_of_ne_nil hne
    by_cases hc : c = '0'
    · obtain rfl : rest = [] := by simpa [hc] using hleading
      exact .left (hc ▸ .one (beq_self_eq_true c))
    · have hspaced : ∀ d ∈ rest, "0123456789_".toList.contains d = true := fun d hd =>
        Numeral.forall_digit (P := fun d => "0123456789_".toList.contains d = true) (by decide)
          (hdigits d (List.mem_cons_of_mem _ hd))
      have hnonZero : c ≠ '0' → "123456789".toList.contains c = true :=
        Numeral.forall_digit (P := fun c => c ≠ '0' → "123456789".toList.contains c = true)
          (by decide) (hdigits c List.mem_cons_self)
      exact .right (.seq (.one (hnonZero hc)) (matches_many_one hspaced))

end ScalarType

theorem ofPlain_write (n : Int) : ScalarType.ofPlain (Numeral.write n).toList = .int := by
  obtain ⟨sign, hsign, h⟩ := write_eq n
  have hstands := isNotation_digitsOf n.natAbs
  have hhead : ∃ c t, sign ++ digitsOf n.natAbs = c :: t ∧ (c.isDigit = true ∨ c = '-') := by
    obtain ⟨d, digits, hd⟩ := List.exists_cons_of_ne_nil hstands.ne_nil
    obtain rfl | rfl := hsign
    · exact ⟨d, digits, hd, .inl (hstands.digits d (by simp [hd]))⟩
    · exact ⟨'-', _, rfl, .inr rfl⟩
  obtain ⟨c, t, hc, hstart⟩ := hhead
  have hpoint : '.' ∉ sign ++ digitsOf n.natAbs := by
    intro hmem
    obtain hmem | hmem := List.mem_append.mp hmem
    · obtain rfl | rfl := hsign <;> simp at hmem
    · have := hstands.digits _ hmem
      cases this
  have hbool : ScalarType.boolPattern.matchesAll (Numeral.write n).toList = false := by
    refine Bool.eq_false_iff.mpr fun hmatch => ?_
    rw [Pattern.matchesAll_iff, h, hc] at hmatch
    exact ScalarType.not_matches_bool hstart hmatch
  have hfloat : ScalarType.floatPattern.matchesAll (Numeral.write n).toList = false := by
    refine Bool.eq_false_iff.mpr fun hmatch => ?_
    rw [Pattern.matchesAll_iff, h] at hmatch
    exact hpoint (ScalarType.mem_of_matches_float hmatch)
  have hint : ScalarType.intPattern.matchesAll (Numeral.write n).toList = true := by
    rw [Pattern.matchesAll_iff, h]
    exact ScalarType.matches_int hsign hstands
  simp [ScalarType.ofPlain, ScalarType.patterns, hbool, hfloat, hint]

theorem wholeNumber?_digitsOf {n : Nat} (h : (digitsOf n).length ≤ Numeral.conversionLimit) :
    wholeNumber? (digitsOf n) = some (n : Int) := by
  have hstands := isNotation_digitsOf n
  have hdigits : ∀ c ∈ digitsOf n, IsDigitIn 10 c := fun c hc => digit_value (hstands.digits c hc)
  have hcolon : (digitsOf n).contains ':' = false := by
    refine Bool.eq_false_iff.mpr fun hmem => ?_
    have := hstands.digits _ (List.contains_iff_mem.mp hmem)
    cases this
  have hread : Numeral.readLimited? (digitsOf n) = some (n : Int) := by
    have htrim := Numeral.trim_eq_self fun c hc => (hdigits c hc).not_blank
    have hcount := List.countP_le_length (p := fun c => (Numeral.digitValue? c).isSome)
      (l := digitsOf n)
    rw [Numeral.readLimited?, htrim, if_neg (by omega),
      Numeral.read?_run hdigits hstands.ne_nil, Numeral.positional_digitsOf]
  by_cases hzero : digitsOf n = ['0']
  · have hn := Numeral.positional_digitsOf n
    rw [hzero] at hn ⊢
    rw [← hn]
    rfl
  · have hhead : (digitsOf n).head? ≠ some '0' := fun hhead => hzero (hstands.leading hhead)
    unfold wholeNumber?
    split
    · exact absurd ‹_› hzero
    · rename_i heq
      exact absurd (congrArg List.head? heq) hhead
    · rename_i heq
      exact absurd (congrArg List.head? heq) hhead
    · rename_i heq
      exact absurd (congrArg List.head? heq) hhead
    · rw [hcolon, if_neg Bool.false_ne_true, hread]

theorem int?_write {n : Int} (h : (digitsOf n.natAbs).length ≤ Numeral.conversionLimit) :
    int? (Numeral.write n).toList = some n := by
  have hstands := isNotation_digitsOf n.natAbs
  have hdigits : ∀ c ∈ digitsOf n.natAbs, IsDigitIn 10 c := fun c hc =>
    digit_value (hstands.digits c hc)
  have hfilter : (digitsOf n.natAbs).filter (· != '_') = digitsOf n.natAbs :=
    List.filter_eq_self.mpr fun c hc => by simpa using (hdigits c hc).ne_of_none (by decide)
  rw [int?, Numeral.write, String.toList_ofList]
  by_cases hn : n < 0
  · have hunsigned : unsigned ('-' :: digitsOf n.natAbs) = (true, digitsOf n.natAbs) := by
      rw [unsigned, List.filter_cons_of_pos (by decide), hfilter]
      rfl
    simp only [if_pos hn, hunsigned, wholeNumber?_digitsOf h, Option.map_some, Numeral.applySign,
      ↓reduceIte, Option.some.injEq]
    omega
  · have hunsigned : unsigned (digitsOf n.natAbs) = (false, digitsOf n.natAbs) := by
      rw [unsigned, hfilter, Numeral.splitSign_run hdigits]
    simp only [if_neg hn, hunsigned, wholeNumber?_digitsOf h, Option.map_some, Numeral.applySign,
      Bool.false_eq_true, ↓reduceIte, Option.some.injEq]
    omega

/-- An integer that has not too many digits is read back from its digits. -/
theorem scalarValue_write {n : Int} (h : (digitsOf n.natAbs).length ≤ Numeral.conversionLimit) :
    scalarValue .int (Numeral.write n) = .ok (.int n) := by
  simp [scalarValue, int?_write h]

end DhallSyntax.Yaml
