import DhallSyntax.Exchange
import DhallSyntax.Proofs.Number.Numeral

/-!
Scalars in JSON texts. Main statement: `scalar_scalarText`, a scalar is read back from its text
whatever follows, as long as that does not go on with a number.
-/

namespace DhallSyntax.Json

open Numeral (digitsOf positional positional_digitsOf digitsOf_isDigit)

/-! ## Strings -/

theorem hexDigits_four : ∀ n < 0x20, (hexDigits 4 n).toList =
    ['0', '0', Nat.digitChar (n / 16), Nat.digitChar (n % 16)] := by
  decide +kernel

theorem unit?_control (n : Nat) (h : n < 0x20) (rest : List Char) :
    unit? ((hexDigits 4 n).toList ++ rest) = some (n, rest) := by
  have hunit : ∀ n < 0x20,
      ['0', '0', Nat.digitChar (n / 16), Nat.digitChar (n % 16)].all CharClass.hexDigit = true ∧
        positional 16 ['0', '0', Nat.digitChar (n / 16), Nat.digitChar (n % 16)] = n := by
    decide +kernel
  obtain ⟨hall, hvalue⟩ := hunit n h
  rw [hexDigits_four n h]
  exact (if_pos hall).trans (congrArg (fun v => some (v, rest)) hvalue)

theorem codedChar_control {n : Nat} (h : n < 0x20) (rest : List Char) :
    codedChar n rest = (Char.ofNat n, rest) := by
  have hhigh : isHigh n = false := by simp [isHigh]; omega
  have hlow : isLow n = false := by simp [isLow]; omega
  simp [codedChar, hhigh, hlow]

theorem stringStep_plain {c : Char} (hq : c ≠ '"') (hb : c ≠ '\\') (h : ¬ c.toNat < 0x20)
    (rest : List Char) : stringStep (c :: rest) = .ok (some c, rest) := by
  unfold stringStep
  split <;> simp_all

theorem stringStep_letter (letter : Char) {c : Char} (rest : List Char)
    (h : simpleEscapes.lookup letter = some c) :
    stringStep ('\\' :: letter :: rest) = .ok (some c, rest) := by
  have hu : letter ≠ 'u' := by
    rintro rfl
    have hnone : simpleEscapes.lookup 'u' = none := rfl
    rw [hnone] at h
    nomatch h
  unfold stringStep
  simp [h]

/-- A character is read back from what stands for it, and ends no string. -/
theorem stringStep_escape (c : Char) (rest : List Char) :
    stringStep ((escape c).toList ++ rest) = .ok (some c, rest) := by
  unfold escape
  split
  · rename_i h
    simpa [eq_of_beq h] using stringStep_letter '"' rest rfl
  split
  · rename_i h
    simpa [eq_of_beq h] using stringStep_letter '\\' rest rfl
  split
  · rename_i h
    simpa [eq_of_beq h] using stringStep_letter 'n' rest rfl
  split
  · rename_i h
    simpa [eq_of_beq h] using stringStep_letter 'r' rest rfl
  split
  · rename_i h
    simpa [eq_of_beq h] using stringStep_letter 't' rest rfl
  split
  · rename_i h
    simpa [eq_of_beq h] using stringStep_letter 'f' rest rfl
  split
  · rename_i h
    simpa [eq_of_beq h] using stringStep_letter 'b' rest rfl
  split
  · rename_i h
    simp [stringStep, unit?_control _ h, codedChar_control h]
  · simpa using stringStep_plain (by simp_all) (by simp_all) (by assumption) rest

theorem escape_ne_nil (c : Char) : 0 < (escape c).toList.length := by
  have h := stringStep_escape c []
  cases he : (escape c).toList with
  | nil =>
    rw [he] at h
    nomatch h
  | cons a s => exact Nat.succ_pos _

/-- The characters of a text as they stand between the quotes. -/
def escaped (s : List Char) : List Char :=
  s.flatMap fun c => (escape c).toList

theorem length_le_escaped (s : List Char) : s.length ≤ (escaped s).length := by
  induction s with
  | nil => exact Nat.le_refl 0
  | cons c s ih =>
    have hc := escape_ne_nil c
    simp only [escaped, List.flatMap_cons, List.length_append, List.length_cons] at ih ⊢
    omega

theorem toList_stringText (s : String) :
    (stringText s).toList = '"' :: (escaped s.toList ++ ['"']) := by
  simp [stringText, escaped, List.flatMap_map]

theorem stringRest_escaped {bound s : List Char} (read rest : List Char)
    (h : s.length ≤ bound.length) :
    stringRest bound read (escaped s ++ '"' :: rest) =
      .ok (String.ofList (read.reverse ++ s), rest) := by
  induction s generalizing bound read with
  | nil =>
    unfold stringRest
    rw [List.append_nil]
    rfl
  | cons c s ih =>
    cases bound with
    | nil => exact absurd h (Nat.not_succ_le_zero _)
    | cons b bound =>
      unfold stringRest
      rw [escaped, List.flatMap_cons, List.append_assoc, stringStep_escape]
      have hs := ih (c :: read) (Nat.le_of_succ_le_succ h)
      rw [List.reverse_cons, List.append_assoc] at hs
      exact hs

/-- A text is read back from between its quotes. -/
theorem string_escaped (s : String) (rest : List Char) :
    string (escaped s.toList ++ '"' :: rest) = .ok (s, rest) := by
  have hlength : s.toList.length ≤ (escaped s.toList ++ '"' :: rest).length := by
    have := length_le_escaped s.toList
    rw [List.length_append]
    omega
  rw [string, stringRest_escaped [] rest hlength]
  simp

/-! ## Integers -/

/-- A text that does not go on with a number. -/
def Ends (s : List Char) : Prop :=
  ∀ c ∈ s.head?, c.isDigit = false ∧ c ≠ '.' ∧ c ≠ 'e' ∧ c ≠ 'E'

/-- Only zero has a zero for its first digit. -/
theorem digitsOf_eq_cons {n : Nat} (h : 0 < n) :
    ∃ c rest, digitsOf n = c :: rest ∧ c ≠ '0' := by
  induction n using Nat.strongRecOn with
  | ind n ih =>
    rw [digitsOf, Nat.toDigits_eq_if (by decide)]
    split
    · rename_i hn
      have hd : ∀ d < 10, 0 < d → Nat.digitChar d ≠ '0' := by decide
      exact ⟨Nat.digitChar n, [], rfl, hd n hn h⟩
    · obtain ⟨c, rest, hd, hc⟩ := ih (n / 10) (by omega) (by omega)
      rw [← digitsOf, hd]
      exact ⟨c, rest ++ [Nat.digitChar (n % 10)], rfl, hc⟩

theorem wholeDigits_digitsOf (n : Nat) {rest : List Char} (h : Ends rest) :
    wholeDigits (digitsOf n ++ rest) = digitsOf n := by
  obtain rfl | hn := Nat.eq_zero_or_pos n
  · rfl
  · obtain ⟨htake, -⟩ := Numeral.takeWhile_digits (digitsOf_isDigit n) fun c hc => (h c hc).1
    obtain ⟨c, digits, hd, hc⟩ := digitsOf_eq_cons hn
    rw [hd] at htake ⊢
    unfold wholeDigits
    split
    · rename_i heq
      exact absurd (List.cons.inj heq).1 hc
    · exact htake

theorem number_digitsOf (negative : Bool) {n : Nat} {rest : List Char} (h : Ends rest)
    (hn : (digitsOf n).length ≤ Numeral.conversionLimit) :
    number negative (digitsOf n ++ rest) = .ok (.int (Numeral.applySign negative n), rest) := by
  have hfraction : fraction? rest = none := by
    unfold fraction?
    split
    · exact absurd rfl (h '.' rfl).2.1
    · rfl
  have hexponent : exponent? rest = none := by
    unfold exponent?
    split
    · rename_i c rest
      obtain ⟨-, -, he, he'⟩ := h c rfl
      simp [he, he']
    · rfl
  have hne : (digitsOf n).isEmpty = false := by simpa using Numeral.digitsOf_ne_nil n
  simp [number, wholeDigits_digitsOf n h, hne, hfraction, hexponent, hn, positional_digitsOf]

/-! ## Words -/

/-- The scalars that have a text of their own and no fraction. -/
@[simp] def IsPlain : Scalar → Prop
  | .null | .bool _ | .int _ | .text _ => True
  | .float _ | .time _ => False

/-- Only a letter or a minus begins a word. -/
theorem find?_words {c : Char} (h : c = '"' ∨ c.isDigit = true) (s : List Char) :
    (words.find? fun entry => entry.1.toList.isPrefixOf (c :: s)) = none := by
  have hc : c ∉ ['n', 't', 'f', 'N', 'I', '-'] := by
    obtain rfl | h := h
    · decide
    · exact Numeral.forall_digit (P := (· ∉ ['n', 't', 'f', 'N', 'I', '-'])) (by decide) h
  simp only [List.mem_cons, List.not_mem_nil, or_false, not_or] at hc
  simp [words, hc, Ne.symm]

theorem find?_words_minus {c : Char} (h : c.isDigit = true) (s : List Char) :
    (words.find? fun entry => entry.1.toList.isPrefixOf ('-' :: c :: s)) = none := by
  have hc : c ≠ 'I' := Numeral.forall_digit (P := (· ≠ 'I')) (by decide) h
  simp [words, Ne.symm hc]

/-! ## Scalars -/

theorem scalar_digit {c : Char} (h : c.isDigit = true) (s : List Char) :
    scalar (c :: s) = number false (c :: s) := by
  have hc : c ≠ '"' ∧ c ≠ '-' :=
    Numeral.forall_digit (P := fun c => c ≠ '"' ∧ c ≠ '-') (by decide) h
  unfold scalar
  rw [find?_words (.inr h)]
  simp [hc]

theorem scalar_minus {c : Char} (h : c.isDigit = true) (s : List Char) :
    scalar ('-' :: c :: s) = number true (c :: s) := by
  rw [scalar, find?_words_minus h]

theorem scalar_write {n : Int} {rest : List Char} (h : Ends rest)
    (hn : (digitsOf n.natAbs).length ≤ Numeral.conversionLimit) :
    scalar ((Numeral.write n).toList ++ rest) = .ok (.int n, rest) := by
  obtain ⟨c, digits, hd⟩ := List.exists_cons_of_ne_nil (Numeral.digitsOf_ne_nil n.natAbs)
  have hc : c.isDigit = true := digitsOf_isDigit n.natAbs c (by simp [hd])
  rw [Numeral.write, String.toList_ofList]
  split
  · have hnumber := number_digitsOf true h hn
    rw [hd, List.cons_append] at hnumber
    rw [hd, List.cons_append, List.cons_append, scalar_minus hc, hnumber, Numeral.applySign,
      if_pos rfl]
    congr 4
    omega
  · have hnumber := number_digitsOf false h hn
    rw [hd, List.cons_append] at hnumber
    rw [hd, List.cons_append, scalar_digit hc, hnumber, Numeral.applySign,
      if_neg Bool.false_ne_true]
    congr 4
    omega

/-- A scalar is read back from its text. -/
theorem scalar_scalarText {s : Scalar} {rest : List Char} (hs : IsPlain s) (h : Ends rest)
    (hlong : (Document.scalar s).hasLongInteger = false) :
    scalar ((scalarText s).toList ++ rest) = .ok (.scalar s, rest) := by
  cases s with
  | null => rfl
  | bool b => cases b <;> rfl
  | int n =>
    have hn : (digitsOf n.natAbs).length ≤ Numeral.conversionLimit := by
      simpa [Document.hasLongInteger] using hlong
    exact scalar_write h hn
  | text s =>
    rw [scalarText, toList_stringText, List.cons_append, List.append_assoc, scalar,
      find?_words (.inl rfl)]
    dsimp only
    rw [List.singleton_append, string_escaped]
    rfl
  | float f | time t => exact hs.elim

end DhallSyntax.Json
