import DhallSyntax.Proofs.Number.Decimal

/-!
The texts of doubles that have digits: a sign or none, digits, and a point with further digits, an
exponent, or both. Main statement: `DoubleText.read?_chars`, such a text is read as the decimal of
its parts, if that is within bounds, and is not read otherwise.
-/

namespace DhallSyntax

/-- A sign in front of a number, if there is one. -/
inductive SignText where
  | none
  | plus
  | minus

namespace SignText

def chars : SignText → List Char
  | none => []
  | plus => ['+']
  | minus => ['-']

/-- Whether it is a minus. -/
def negative : SignText → Bool
  | minus => true
  | _ => false

end SignText

/-- A run of decimal digits. -/
structure DigitRun where
  chars : List Char
  ne_nil : chars ≠ []
  digits : ∀ c ∈ chars, c.isDigit = true

/-- The exponent of a double. -/
structure ExponentText where
  mark : Char
  mark_eq : mark = 'e' ∨ mark = 'E'
  sign : SignText
  run : DigitRun

namespace ExponentText

def chars (e : ExponentText) : List Char :=
  e.mark :: (e.sign.chars ++ e.run.chars)

def value (e : ExponentText) : Int :=
  Numeral.applySign e.sign.negative (Numeral.positional 10 e.run.chars)

end ExponentText

/-- What makes a double of a number without a fraction. -/
inductive DoubleTail where
  | point (fraction : DigitRun) (exponent? : Option ExponentText)
  | scaled (exponent : ExponentText)

namespace DoubleTail

def chars : DoubleTail → List Char
  | point fraction exponent? => '.' :: (fraction.chars ++ exponent?.elim [] ExponentText.chars)
  | scaled exponent => exponent.chars

def fraction : DoubleTail → List Char
  | point fraction _ => fraction.chars
  | scaled _ => []

def power : DoubleTail → Int
  | point _ exponent? => exponent?.elim 0 ExponentText.value
  | scaled exponent => exponent.value

end DoubleTail

structure DoubleText where
  sign : SignText
  whole : DigitRun
  tail : DoubleTail

namespace DoubleText

def chars (d : DoubleText) : List Char :=
  d.sign.chars ++ (d.whole.chars ++ d.tail.chars)

/-- The decimal that is written, if it is within bounds. -/
def value? (d : DoubleText) : Option Decimal :=
  Decimal.ofParts? d.sign.negative (Numeral.positional 10 (d.whole.chars ++ d.tail.fraction))
    (d.tail.power - d.tail.fraction.length)

end DoubleText

open Decimal (IsClean isClean_digit)

/-! ## The characters of a double -/

theorem isClean_marks : IsClean '+' ∧ IsClean '-' ∧ IsClean '.' ∧ IsClean 'e' ∧ IsClean 'E' := by
  decide +kernel

theorem SignText.chars_clean (sign : SignText) : ∀ c ∈ sign.chars, IsClean c := by
  obtain ⟨hplus, hminus, -⟩ := isClean_marks
  cases sign with
  | none => exact fun _ h => nomatch h
  | plus => exact List.forall_mem_singleton.mpr hplus
  | minus => exact List.forall_mem_singleton.mpr hminus

theorem DigitRun.chars_clean (run : DigitRun) : ∀ c ∈ run.chars, IsClean c :=
  fun c hc => isClean_digit (run.digits c hc)

theorem ExponentText.chars_clean (e : ExponentText) : ∀ c ∈ e.chars, IsClean c := by
  obtain ⟨-, -, -, he, hE⟩ := isClean_marks
  refine List.forall_mem_cons.mpr ⟨?_, List.forall_mem_append.mpr
    ⟨e.sign.chars_clean, e.run.chars_clean⟩⟩
  obtain h | h := e.mark_eq
  · exact h ▸ he
  · exact h ▸ hE

theorem DoubleTail.chars_clean (tail : DoubleTail) : ∀ c ∈ tail.chars, IsClean c := by
  obtain ⟨-, -, hpoint, -⟩ := isClean_marks
  cases tail with
  | point fraction exponent? =>
    refine List.forall_mem_cons.mpr ⟨hpoint, List.forall_mem_append.mpr ⟨fraction.chars_clean, ?_⟩⟩
    cases exponent? with
    | none => exact fun _ h => nomatch h
    | some e => exact e.chars_clean
  | scaled e => exact e.chars_clean

theorem DoubleText.chars_clean (d : DoubleText) : ∀ c ∈ d.chars, IsClean c :=
  List.forall_mem_append.mpr ⟨d.sign.chars_clean,
    List.forall_mem_append.mpr ⟨d.whole.chars_clean, d.tail.chars_clean⟩⟩

/-! ## Reading -/

theorem DigitRun.cons (run : DigitRun) :
    ∃ c rest, run.chars = c :: rest ∧ c.isDigit = true := by
  obtain ⟨chars, hne, hd⟩ := run
  obtain ⟨c, rest, rfl⟩ := List.exists_cons_of_ne_nil hne
  exact ⟨c, rest, rfl, hd c List.mem_cons_self⟩

/-- A sign is split off from the digits behind it. -/
theorem SignText.splitSign_chars (sign : SignText) (run : DigitRun) (t : List Char) :
    Numeral.splitSign (sign.chars ++ (run.chars ++ t)) = (sign.negative, run.chars ++ t) := by
  cases sign with
  | plus => rfl
  | minus => rfl
  | none =>
    obtain ⟨c, rest, hc, hd⟩ := run.cons
    obtain ⟨hplus, hminus⟩ := Numeral.digit_not_sign hd
    rw [hc]
    simp [SignText.chars, SignText.negative, Numeral.splitSign, hplus, hminus]

theorem ExponentText.readExponent?_chars (e : ExponentText) :
    Decimal.readExponent? e.chars = some e.value := by
  have hsplit := e.sign.splitSign_chars e.run []
  rw [List.append_nil] at hsplit
  have hmark : (e.mark.toLower == 'e') = true := by
    obtain h | h := e.mark_eq
    · rw [h]; rfl
    · rw [h]; rfl
  have hempty : e.run.chars.isEmpty = false := List.isEmpty_eq_false_iff.mpr e.run.ne_nil
  have hall : e.run.chars.all Char.isDigit = true := List.all_eq_true.mpr e.run.digits
  rw [chars, Decimal.readExponent?, hsplit]
  dsimp only
  rw [hmark, hempty, hall]
  rfl

theorem DoubleTail.head (tail : DoubleTail) : ∀ c ∈ tail.chars.head?, c.isDigit = false := by
  intro c hc
  cases tail with
  | point fraction exponent? => cases hc; rfl
  | scaled e =>
    cases hc
    obtain h | h := e.mark_eq
    · rw [h]; rfl
    · rw [h]; rfl

theorem DoubleText.readParts?_body (d : DoubleText) :
    Decimal.readParts? (d.whole.chars ++ d.tail.chars) =
      some (Numeral.positional 10 (d.whole.chars ++ d.tail.fraction),
        d.tail.power - d.tail.fraction.length) := by
  obtain ⟨htake, hdrop⟩ := Numeral.takeWhile_digits d.whole.digits d.tail.head
  have hwhole : d.whole.chars.isEmpty = false := List.isEmpty_eq_false_iff.mpr d.whole.ne_nil
  simp only [Decimal.readParts?, htake, hdrop, hwhole, Bool.false_and, Bool.false_eq_true]
  cases d.tail with
  | scaled e =>
    obtain h | h := e.mark_eq
    all_goals
      have hpower := e.readExponent?_chars
      rw [ExponentText.chars, h] at hpower
      simp [DoubleTail.chars, ExponentText.chars, h, hpower, DoubleTail.power, DoubleTail.fraction]
  | point fraction exponent? =>
    have hhead : ∀ c ∈ (exponent?.elim [] ExponentText.chars).head?, c.isDigit = false := by
      cases exponent? with
      | none => exact fun _ h => by cases h
      | some e => exact (DoubleTail.scaled e).head
    obtain ⟨htake', hdrop'⟩ := Numeral.takeWhile_digits fraction.digits hhead
    have hpower : Decimal.readExponent? (exponent?.elim [] ExponentText.chars) =
        some (exponent?.elim 0 ExponentText.value) := by
      cases exponent? with
      | none => rfl
      | some e => exact e.readExponent?_chars
    simp [DoubleTail.chars, htake', hdrop', hpower, DoubleTail.power, DoubleTail.fraction]

/-- The text of a double is read as the decimal of its parts. -/
theorem DoubleText.read?_chars (d : DoubleText) :
    Decimal.read? (String.ofList d.chars) = d.value? := by
  obtain ⟨c, rest, hc, hd⟩ := d.whole.cons
  rw [Decimal.read?, String.toList_ofList, Decimal.cleaned_eq_self d.chars_clean, chars,
    d.sign.splitSign_chars]
  dsimp only
  rw [Decimal.readFinite?, d.readParts?_body, hc, List.cons_append, List.map_cons,
    Decimal.toLower_digit hd, Decimal.readSpecial?_digit _ hd, ← hc]
  rfl

end DhallSyntax
