import DhallSyntax.Number.Decimal
import DhallSyntax.Proofs.Number.Numeral

/-!
The texts of decimals. Main statement: `read?_text`, a decimal is read back from its text with the
same sign, the same digits and the same exponent.
-/

namespace DhallSyntax.Decimal

open Numeral (digitsOf positional positional_digitsOf digitsOf_isDigit forall_digit
  takeWhile_digits digit_not_sign)

variable {s : List Char}

/-! ## Cleaning -/

/-- A character that cleaning leaves as it is. -/
abbrev IsClean (c : Char) : Prop := isBlank c = false ∧ (c != '_') = true ∧ plainDigit c = c

theorem isClean_digit {c : Char} (h : c.isDigit = true) : IsClean c :=
  forall_digit (P := IsClean) (by decide +kernel) h

theorem isClean_of_all (h : s.all (fun c => decide (IsClean c)) = true) : ∀ c ∈ s, IsClean c :=
  fun c hc => of_decide_eq_true (List.all_eq_true.mp h c hc)

theorem cleaned_eq_self (h : ∀ c ∈ s, IsClean c) : cleaned s = s := by
  have hb : ∀ c ∈ s, isBlank c = false := fun c hc => (h c hc).1
  have hf : s.filter (· != '_') = s := List.filter_eq_self.mpr fun c hc => (h c hc).2.1
  rw [cleaned, Numeral.dropWhile_eq_self hb, Numeral.dropWhile_eq_self (by simpa using hb),
    List.reverse_reverse, hf]
  exact (List.map_congr_left fun c hc => (h c hc).2.2).trans (List.map_id s)

/-! ## Digits with a point -/

/-- A point and digits, unless there are none. -/
def pointed (fraction : List Char) : List Char :=
  if fraction.isEmpty then [] else '.' :: fraction

/-- What stands behind the digits, if anything, begins with the letter of the exponent. -/
theorem readParts?_pointed {whole fraction tail : List Char} (hw : ∀ c ∈ whole, c.isDigit = true)
    (hne : whole ≠ []) (hf : ∀ c ∈ fraction, c.isDigit = true)
    (ht : ∀ c ∈ tail.head?, c = 'E') :
    readParts? (whole ++ (pointed fraction ++ tail)) =
      (readExponent? tail).map fun e : Int =>
        (positional 10 (whole ++ fraction), e - fraction.length) := by
  have htail : ∀ c ∈ tail.head?, c.isDigit = false := fun c hc => ht c hc ▸ rfl
  have hpoint : ∀ c ∈ (pointed fraction ++ tail).head?, c.isDigit = false := by
    unfold pointed
    split
    · exact htail
    · rintro c hc
      cases hc
      rfl
  obtain ⟨htake, hdrop⟩ := takeWhile_digits hw hpoint
  have hwhole : whole.isEmpty = false := List.isEmpty_eq_false_iff.mpr hne
  simp only [readParts?, htake, hdrop]
  cases fraction with
  | nil =>
    cases tail with
    | nil => simp [pointed, hwhole, readExponent?]
    | cons c tail =>
      obtain rfl := ht c rfl
      cases hpower : readExponent? ('E' :: tail) <;> simp [pointed, hwhole, hpower]
  | cons c fraction =>
    obtain ⟨htake', hdrop'⟩ := takeWhile_digits hf htail
    rw [List.cons_append] at htake' hdrop'
    cases hpower : readExponent? tail <;> simp [pointed, htake', hdrop', hwhole, hpower]

/-! ## Exponents -/

theorem isClean_sign : IsClean '+' ∧ IsClean '-' ∧ IsClean 'E' := by
  decide +kernel

/-- The exponent with its letter and its sign. -/
def exponentChars (n : Int) : List Char :=
  'E' :: (if n < 0 then '-' else '+') :: digitsOf n.natAbs

theorem readExponent?_signed {sign : Char} {negative : Bool} {digits : List Char}
    (hsign : Numeral.splitSign (sign :: digits) = (negative, digits))
    (hd : ∀ c ∈ digits, c.isDigit = true) (hne : digits ≠ []) :
    readExponent? ('E' :: sign :: digits) =
      some (Numeral.applySign negative (positional 10 digits)) := by
  have hall : digits.all Char.isDigit = true := List.all_eq_true.mpr hd
  have hempty : digits.isEmpty = false := List.isEmpty_eq_false_iff.mpr hne
  rw [readExponent?, hsign]
  dsimp only
  rw [hall, hempty]
  rfl

theorem readExponent?_exponentChars (n : Int) : readExponent? (exponentChars n) = some n := by
  have hd := digitsOf_isDigit n.natAbs
  have hne := Numeral.digitsOf_ne_nil n.natAbs
  unfold exponentChars
  split
  · rw [readExponent?_signed rfl hd hne, positional_digitsOf, Numeral.applySign, if_pos rfl]
    congr 1
    omega
  · rw [readExponent?_signed rfl hd hne, positional_digitsOf, Numeral.applySign,
      if_neg Bool.false_ne_true]
    congr 1
    omega

theorem exponentChars_clean (n : Int) : ∀ c ∈ exponentChars n, IsClean c := by
  obtain ⟨hplus, hminus, he⟩ := isClean_sign
  intro c hc
  obtain rfl | hc := List.mem_cons.mp hc
  · exact he
  obtain rfl | hc := List.mem_cons.mp hc
  · split
    · exact hminus
    · exact hplus
  · exact isClean_digit (digitsOf_isDigit _ c hc)

/-! ## Spellings -/

/-- Digits, a point and digits behind it, and an exponent, which together spell a number. -/
structure Spelling (coefficient : Nat) (exponent : Int) where
  whole : List Char
  fraction : List Char
  tail : List Char
  whole_digits : ∀ c ∈ whole, c.isDigit = true
  whole_ne_nil : whole ≠ []
  fraction_digits : ∀ c ∈ fraction, c.isDigit = true
  tail_head : ∀ c ∈ tail.head?, c = 'E'
  tail_clean : ∀ c ∈ tail, IsClean c
  value : positional 10 (whole ++ fraction) = coefficient
  power : readExponent? tail = some (exponent + fraction.length)

namespace Spelling

variable {coefficient : Nat} {exponent : Int}

def chars (sp : Spelling coefficient exponent) : List Char :=
  sp.whole ++ (pointed sp.fraction ++ sp.tail)

theorem readParts?_chars (sp : Spelling coefficient exponent) :
    readParts? sp.chars = some (coefficient, exponent) := by
  rw [chars, readParts?_pointed sp.whole_digits sp.whole_ne_nil sp.fraction_digits sp.tail_head,
    sp.power, sp.value]
  simp

theorem chars_clean (sp : Spelling coefficient exponent) : ∀ c ∈ sp.chars, IsClean c := by
  have hpoint : ∀ c ∈ pointed sp.fraction, IsClean c := by
    unfold pointed
    split
    · exact fun _ h => nomatch h
    · intro c hc
      obtain rfl | hc := List.mem_cons.mp hc
      · decide +kernel
      · exact isClean_digit (sp.fraction_digits c hc)
  intro c hc
  simp only [chars, List.mem_append] at hc
  obtain hc | hc | hc := hc
  · exact isClean_digit (sp.whole_digits c hc)
  · exact hpoint c hc
  · exact sp.tail_clean c hc

theorem chars_head (sp : Spelling coefficient exponent) :
    ∃ c rest, sp.chars = c :: rest ∧ c.isDigit = true := by
  obtain ⟨c, whole, hw⟩ := List.exists_cons_of_ne_nil sp.whole_ne_nil
  exact ⟨c, whole ++ (pointed sp.fraction ++ sp.tail), by rw [chars, hw]; rfl,
    sp.whole_digits c (by rw [hw]; exact List.mem_cons_self)⟩

/-- Digits with enough zeros in front of them for one before the last places. -/
def padded (places : Nat) (digits : List Char) : List Char :=
  List.replicate (places + 1 - digits.length) '0' ++ digits

theorem padded_isDigit (places : Nat) {digits : List Char} (h : ∀ c ∈ digits, c.isDigit = true) :
    ∀ c ∈ padded places digits, c.isDigit = true := by
  intro c hc
  obtain hc | hc := List.mem_append.mp hc
  · rw [List.eq_of_mem_replicate hc]
    rfl
  · exact h c hc

theorem lt_length_padded (places : Nat) (digits : List Char) :
    places < (padded places digits).length := by
  simp only [padded, List.length_append, List.length_replicate]
  omega

theorem whole_padded_ne_nil (places : Nat) (digits : List Char) :
    (padded places digits).take ((padded places digits).length - places) ≠ [] := by
  have hlength := lt_length_padded places digits
  intro he
  have := congrArg List.length he
  rw [List.length_take, List.length_nil] at this
  omega

theorem length_fraction_padded (places : Nat) (digits : List Char) :
    ((padded places digits).drop ((padded places digits).length - places)).length = places := by
  have hlength := lt_length_padded places digits
  rw [List.length_drop]
  omega

theorem positional_padded (places : Nat) (digits : List Char) :
    positional 10 (padded places digits) = positional 10 digits := by
  rw [padded, Numeral.positional_zeros]

/-- Plain notation: enough zeros in front, and the point where the exponent says. -/
def plain (coefficient : Nat) (exponent : Int) (h : exponent ≤ 0) :
    Spelling coefficient exponent :=
  let text := padded exponent.natAbs (digitsOf coefficient)
  have hdigits := padded_isDigit exponent.natAbs (digitsOf_isDigit coefficient)
  { whole := text.take (text.length - exponent.natAbs)
    fraction := text.drop (text.length - exponent.natAbs)
    tail := []
    whole_digits := fun c hc => hdigits c (List.mem_of_mem_take hc)
    whole_ne_nil := whole_padded_ne_nil _ _
    fraction_digits := fun c hc => hdigits c (List.mem_of_mem_drop hc)
    tail_head := by rintro _ ⟨⟩
    tail_clean := List.forall_mem_nil _
    value := by rw [List.take_append_drop, positional_padded, positional_digitsOf]
    power := by
      rw [readExponent?, length_fraction_padded, Int.ofNat_natAbs_of_nonpos h, Int.add_right_neg] }

/-- Scientific notation: one digit before the point. -/
def scientific (coefficient : Nat) (exponent : Int) : Spelling coefficient exponent where
  whole := (digitsOf coefficient).take 1
  fraction := (digitsOf coefficient).drop 1
  tail := exponentChars (adjusted coefficient exponent)
  whole_digits c hc := digitsOf_isDigit coefficient c (List.mem_of_mem_take hc)
  whole_ne_nil := by simpa using Numeral.digitsOf_ne_nil coefficient
  fraction_digits c hc := digitsOf_isDigit coefficient c (List.mem_of_mem_drop hc)
  tail_head c hc := (Option.some.inj hc).symm
  tail_clean := exponentChars_clean _
  value := by rw [List.take_append_drop, positional_digitsOf]
  power := by
    have hlength := List.length_pos_iff.mpr (Numeral.digitsOf_ne_nil coefficient)
    rw [readExponent?_exponentChars, adjusted, List.length_drop]
    congr 1
    omega

theorem plainText_eq (coefficient : Nat) (exponent : Int) (h : exponent ≤ 0) :
    plainText (digitsOf coefficient) exponent.natAbs =
      String.ofList (plain coefficient exponent h).chars := by
  have hne : ∀ fraction : List Char, fraction.length = exponent.natAbs →
      fraction.isEmpty = decide (exponent.natAbs = 0) := by
    intro fraction hf
    rw [← hf]
    cases fraction <;> simp
  rw [plainText, chars, pointed, plain]
  dsimp only
  rw [hne _ (length_fraction_padded _ _), padded]
  split <;> simp_all

theorem toList_scientificText (digits : List Char) (exponent : Int) :
    (scientificText digits exponent).toList =
      digits.take 1 ++ (pointed (digits.drop 1) ++ exponentChars exponent) := by
  have hsign : (if exponent < 0 then "E-" else "E+").toList =
      ['E', if exponent < 0 then '-' else '+'] := by
    split <;> simp
  rcases digits with _ | ⟨first, _ | ⟨second, rest⟩⟩ <;>
    simp [scientificText, pointed, exponentChars, hsign]

theorem scientificText_eq (coefficient : Nat) (exponent : Int) :
    scientificText (digitsOf coefficient) (adjusted coefficient exponent) =
      String.ofList (scientific coefficient exponent).chars :=
  String.toList_inj.mp <| (toList_scientificText _ _).trans String.toList_ofList.symm

end Spelling

/-! ## Reading -/

theorem toLower_digit {c : Char} (h : c.isDigit = true) : c.toLower = c :=
  forall_digit (P := fun c => c.toLower = c) (by decide) h

theorem read?_signed (negative : Bool) {body : List Char} (hclean : ∀ c ∈ body, IsClean c)
    (hsign : ∀ c ∈ body.head?, c ≠ '+' ∧ c ≠ '-') :
    read? (signText negative ++ String.ofList body) =
      (readSpecial? negative (body.map Char.toLower)).or (readFinite? negative body) := by
  have hsplit : Numeral.splitSign ((signText negative).toList ++ body) = (negative, body) := by
    cases negative with
    | true => rfl
    | false =>
      cases body with
      | nil => rfl
      | cons c body =>
        obtain ⟨hplus, hminus⟩ := hsign c rfl
        simp [signText, Numeral.splitSign, hplus, hminus]
  have hall : ∀ c ∈ (signText negative).toList ++ body, IsClean c := by
    intro c hc
    obtain hc | hc := List.mem_append.mp hc
    · cases negative with
      | true =>
        obtain rfl := List.mem_singleton.mp hc
        exact isClean_sign.2.1
      | false => cases hc
    · exact hclean c hc
  rw [read?, String.toList_append, String.toList_ofList, cleaned_eq_self hall, hsplit]

theorem readSpecial?_digit (negative : Bool) {c : Char} (h : c.isDigit = true) (s : List Char) :
    readSpecial? negative (c :: s) = none := by
  have hc : c ≠ 'i' ∧ c ≠ 'n' ∧ c ≠ 's' :=
    forall_digit (P := fun c => c ≠ 'i' ∧ c ≠ 'n' ∧ c ≠ 's') (by decide) h
  simp [readSpecial?, hc]

theorem Spelling.read?_chars {coefficient : Nat} {exponent : Int}
    (sp : Spelling coefficient exponent) (negative : Bool) :
    read? (signText negative ++ String.ofList sp.chars) =
      ofParts? negative coefficient exponent := by
  obtain ⟨c, rest, hc, hd⟩ := sp.chars_head
  rw [read?_signed negative sp.chars_clean (by rw [hc]; rintro _ ⟨⟩; exact digit_not_sign hd),
    readFinite?, sp.readParts?_chars, hc, List.map_cons, toLower_digit hd,
    readSpecial?_digit negative hd]
  rfl

theorem read?_infinity (negative : Bool) :
    read? (signText negative ++ "Infinity") = some (infinity negative) := by
  have hclean : ∀ c ∈ "Infinity".toList, IsClean c := isClean_of_all (by decide +kernel)
  have hsign : ∀ c ∈ "Infinity".toList.head?, c ≠ '+' ∧ c ≠ '-' := by
    rintro _ ⟨⟩
    decide
  have h := read?_signed negative hclean hsign
  rw [String.ofList_toList] at h
  rw [h]
  rfl

/-- The digits of a payload; zero stands for none. -/
def payloadChars (payload : Nat) : List Char :=
  if payload = 0 then [] else digitsOf payload

theorem payloadChars_isDigit (payload : Nat) : ∀ c ∈ payloadChars payload, c.isDigit = true := by
  unfold payloadChars
  split
  · exact fun _ h => nomatch h
  · exact digitsOf_isDigit payload

theorem positional_payloadChars (payload : Nat) :
    positional 10 (payloadChars payload) = payload := by
  unfold payloadChars
  split
  · rename_i h
    rw [h]
    rfl
  · exact positional_digitsOf payload

theorem nanWord_clean (signaling : Bool) :
    ∀ c ∈ (if signaling then "sNaN" else "NaN").toList, IsClean c := by
  cases signaling <;> exact isClean_of_all (by decide +kernel)

theorem read?_nan (negative signaling : Bool) (payload : Nat) :
    read? (nan negative signaling payload).text = some (nan negative signaling payload) := by
  let body := (if signaling then "sNaN" else "NaN").toList ++ payloadChars payload
  have htext : (nan negative signaling payload).text = signText negative ++ String.ofList body := by
    apply String.toList_inj.mp
    simp only [text, body, payloadChars]
    split <;> split <;> simp
  have hclean : ∀ c ∈ body, IsClean c := by
    intro c hc
    obtain hc | hc := List.mem_append.mp hc
    · exact nanWord_clean signaling c hc
    · exact isClean_digit (payloadChars_isDigit payload c hc)
  have hsign : ∀ c ∈ body.head?, c ≠ '+' ∧ c ≠ '-' := by
    cases signaling <;> rintro _ ⟨⟩ <;> decide
  have hlower : (payloadChars payload).map Char.toLower = payloadChars payload :=
    (List.map_congr_left fun c hc => toLower_digit (payloadChars_isDigit payload c hc)).trans
      (List.map_id _)
  have hdigits : (payloadChars payload).all Char.isDigit = true :=
    List.all_eq_true.mpr (payloadChars_isDigit payload)
  rw [htext, read?_signed negative hclean hsign, List.map_append, hlower]
  cases signaling <;>
    simp [readSpecial?, hdigits, positional_payloadChars]

/-- A decimal is read back from its text, with its sign and every digit. -/
theorem read?_text (d : Decimal) : read? d.text = some d := by
  cases d with
  | @finite negative coefficient exponent bounded =>
    have hparts : ofParts? negative coefficient exponent =
        some (@finite negative coefficient exponent bounded) := dif_pos bounded
    rw [text]
    split
    · rename_i h
      have h : exponent ≤ 0 := by simp_all
      rw [Spelling.plainText_eq coefficient exponent h, Spelling.read?_chars, hparts]
    · rw [Spelling.scientificText_eq coefficient exponent, Spelling.read?_chars, hparts]
  | infinity negative => exact read?_infinity negative
  | nan negative signaling payload => exact read?_nan negative signaling payload

end DhallSyntax.Decimal
