import DhallSyntax.Proofs.Context.Whole
import DhallSyntax.Proofs.Number.Conversion
import DhallSyntax.Proofs.Reading.Leaves

/-!
Sources that are one number, with digit runs of any length. Main statement: `parse_number`, each of
the five forms is parsed to a literal of its own kind that has exactly the value that is written.
-/

namespace DhallSyntax

open Grammar CharClass
open Numeral (applySign)

open Numeral (placeValue positional_eq_placeValue)

/-! ## One number as a whole source -/

variable {settings : Settings}

/-- A sign or a digit opens no form but a number. -/
theorem opens_number (sign : SignText) (run : DigitRun) (t : List Char) :
    (sign.chars ++ (run.chars ++ t)).head?.any literalOpenings.toList.contains = true := by
  cases sign with
  | plus => rfl
  | minus => rfl
  | none =>
    obtain ⟨c, rest, hc, hd⟩ := run.cons
    rw [hc]
    exact Numeral.forall_digit (P := fun c => literalOpenings.toList.contains c = true)
      (by decide) hd

/-- A rule for numbers does not match as a primitive expression where its body does not. -/
theorem steady_number_misses (rule : Rule) {make : rule.Result → Expr} {S : Surroundings}
    {t : List Char} (hfree : S.free t) (hg : rule.body.CallFree) (h : rule.body.read t = .mismatch) :
    Steady S 2 1 (.term (do return make (← call rule))) t none :=
  .miss (.call hfree (.plain hg h))

/-- Where its body matches, it yields the literal of its value. -/
theorem steady_number (rule : Rule) (make : rule.Result → Expr) {S : Surroundings}
    {t u : List Char} {a : rule.Result} (hfree : S.free t) (hg : rule.body.CallFree)
    (h : rule.body.read t = .value a u) :
    Steady S 2 1 (.term (do return make (← call rule))) t (some (make a, u)) :=
  .bind (.call hfree (.plain hg h)) (.plain trivial rfl)

theorem callFree_doubleLiteral : doubleLiteral.CallFree :=
  doesOnly_doubleLiteral ⟨_, rfl⟩

theorem callFree_naturalLiteral : naturalLiteral.CallFree := by
  simp [naturalLiteral, digits]

theorem callFree_integerLiteral : integerLiteral.CallFree := by
  simp [integerLiteral, digits]

theorem read_naturalLiteral_run (run : DigitRun) :
    naturalLiteral.read run.chars = .value (placeValue run.chars) [] := by
  have hdigits : digits.read (run.chars ++ []) = .value run.chars [] := readBy_digits run rfl
  rw [List.append_nil] at hdigits
  simp only [Grammar.read, naturalLiteral, readBy_bind, hdigits, Reading.bind_value, readBy_pure,
    positional_eq_placeValue run.digits]

theorem read_integerLiteral_run {sign : SignText} (hsign : sign ≠ .none) (run : DigitRun) :
    integerLiteral.read (sign.chars ++ run.chars) =
      .value (applySign sign.negative (placeValue run.chars)) [] := by
  have hdigits : digits.read (run.chars ++ []) = .value run.chars [] := readBy_digits run rfl
  rw [List.append_nil] at hdigits
  have hmark : ∃ mark, (expectAny ["+", "-"]).read (sign.chars ++ run.chars) =
      .value mark run.chars ∧ (mark == "-") = sign.negative := by
    cases sign with
    | none => exact absurd rfl hsign
    | plus => exact ⟨"+", rfl, rfl⟩
    | minus => exact ⟨"-", rfl, rfl⟩
  obtain ⟨mark, hmark, hnegative⟩ := hmark
  simp only [Grammar.read] at hmark
  simp only [Grammar.read, integerLiteral, readBy_bind, hmark, hdigits, Reading.bind_value,
    readBy_pure, positional_eq_placeValue run.digits, hnegative]

/-- Digits and nothing else are a natural number. -/
theorem parse_natural (h : settings.Ample) (run : DigitRun) :
    parse settings (String.ofList run.chars) = .ok (.natural (placeValue run.chars)) := by
  have hopen := opens_number .none run []
  have htight := tight_sign .none run []
  have hdouble : doubleLiteral.read (SignText.none.chars ++ (run.chars ++ [])) = .mismatch :=
    readBy_doubleLiteral_number .none run rfl
  simp only [SignText.chars, List.nil_append, List.append_nil] at hopen htight hdouble
  refine parse_literal h hopen htight ?_
  refine .call trivial (.right ?_ (.left ?_))
  · exact steady_number_misses .doubleLiteral trivial callFree_doubleLiteral hdouble
  · exact steady_number .naturalLiteral (fun n => .natural n) trivial
      callFree_naturalLiteral (read_naturalLiteral_run run)

/-- Digits behind a sign are an integer, also where they are zero. -/
theorem parse_integer (h : settings.Ample) {sign : SignText} (hsign : sign ≠ .none)
    (run : DigitRun) :
    parse settings (String.ofList (sign.chars ++ run.chars)) =
      .ok (.integer (applySign sign.negative (placeValue run.chars))) := by
  have hopen := opens_number sign run []
  have htight := tight_sign sign run []
  have hdouble : doubleLiteral.read (sign.chars ++ (run.chars ++ [])) = .mismatch :=
    readBy_doubleLiteral_number sign run rfl
  rw [List.append_nil] at hopen htight hdouble
  have hnatural : naturalLiteral.read (sign.chars ++ run.chars) = .mismatch := by
    refine (Rule.read_eq .naturalLiteral _).symm.trans (Rule.read_of_first _ ?_)
    cases sign with
    | none => exact absurd rfl hsign
    | plus => rfl
    | minus => rfl
  refine parse_literal h hopen htight ?_
  refine .call trivial (.right ?_ (.right ?_ (.left ?_)))
  · exact steady_number_misses .doubleLiteral trivial callFree_doubleLiteral hdouble
  · exact steady_number_misses .naturalLiteral trivial callFree_naturalLiteral hnatural
  · exact steady_number .integerLiteral .integer trivial
      callFree_integerLiteral (read_integerLiteral_run hsign run)

/-- The text of a double that is within bounds is parsed to its decimal. -/
theorem parse_double (h : settings.Ample) {d : DoubleText} {value : Decimal}
    (hvalue : d.value? = some value) :
    parse settings (String.ofList d.chars) = .ok (.double value) := by
  have hopen := opens_number d.sign d.whole d.tail.chars
  have htight := tight_sign d.sign d.whole d.tail.chars
  have hread : doubleLiteral.read (d.chars ++ []) = .value value [] := by
    rw [Grammar.read, readBy_doubleLiteral d rfl, hvalue]
  rw [List.append_nil] at hread
  rw [← DoubleText.chars] at hopen htight
  refine parse_literal h hopen htight ?_
  exact .call trivial (.left (steady_number .doubleLiteral .double trivial
    callFree_doubleLiteral hread))

theorem ExponentText.value_eq (e : ExponentText) :
    e.value = applySign e.sign.negative (placeValue e.run.chars) :=
  congrArg (fun n : Nat => applySign e.sign.negative n) (positional_eq_placeValue e.run.digits)

/-- A double that is within bounds is parsed to the sign, the digits and the exponent that are
written. -/
theorem parse_finite (h : settings.Ample) (d : DoubleText) {s : List Char} {coefficient : Nat}
    {exponent : Int} (hs : d.chars = s)
    (hcoefficient : placeValue (d.whole.chars ++ d.tail.fraction) = coefficient)
    (hexponent : d.tail.power - d.tail.fraction.length = exponent)
    (hb : Decimal.InBounds coefficient exponent) :
    parse settings (String.ofList s) =
      .ok (.double (@Decimal.finite d.sign.negative coefficient exponent hb)) := by
  subst hs
  have hdigits : ∀ c ∈ d.whole.chars ++ d.tail.fraction, c.isDigit = true := by
    refine List.forall_mem_append.mpr ⟨d.whole.digits, ?_⟩
    cases d.tail with
    | point fraction exponent? => exact fraction.digits
    | scaled e => exact fun _ hc => nomatch hc
  refine parse_double h ?_
  rw [DoubleText.value?, positional_eq_placeValue hdigits, hcoefficient, hexponent]
  exact dif_pos hb

/-- Numbers keep their kind and their exact value: digits are a natural number, digits behind a sign
an integer, and whatever has a point or an exponent is a double of the sign, the digits and the
exponent that are written, if the decimal module has room for it. Read in slices of a thousand, the
digits have the same value. -/
theorem parse_number (settings : Settings) (h : settings.Ample) (sign : SignText)
    (a b : DigitRun) (e : ExponentText) :
    let scale : Int := applySign e.sign.negative (placeValue e.run.chars)
    parse settings (String.ofList a.chars) = .ok (.natural (placeValue a.chars)) ∧
    (sign ≠ .none → parse settings (String.ofList (sign.chars ++ a.chars)) =
      .ok (.integer (applySign sign.negative (placeValue a.chars)))) ∧
    (∀ hb : Decimal.InBounds (placeValue (a.chars ++ b.chars)) (0 - b.chars.length),
      parse settings (String.ofList (sign.chars ++ (a.chars ++ '.' :: b.chars))) =
        .ok (.double (@Decimal.finite sign.negative (placeValue (a.chars ++ b.chars)) _ hb))) ∧
    (∀ hb : Decimal.InBounds (placeValue (a.chars ++ b.chars)) (scale - b.chars.length),
      parse settings (String.ofList (sign.chars ++ (a.chars ++ '.' :: (b.chars ++ e.chars)))) =
        .ok (.double (@Decimal.finite sign.negative (placeValue (a.chars ++ b.chars)) _ hb))) ∧
    (∀ hb : Decimal.InBounds (placeValue a.chars) scale,
      parse settings (String.ofList (sign.chars ++ (a.chars ++ e.chars))) =
        .ok (.double (@Decimal.finite sign.negative (placeValue a.chars) _ hb))) ∧
    Numeral.readSliced? 10 a.chars = some (placeValue a.chars : Int) := by
  intro scale
  have hscale : e.value = scale := e.value_eq
  refine ⟨parse_natural h a, fun hsign => parse_integer h hsign a, fun hb => ?_, fun hb => ?_,
    fun hb => ?_, ?_⟩
  · exact parse_finite h ⟨sign, a, .point b none⟩ (by simp [DoubleText.chars, DoubleTail.chars])
      rfl rfl hb
  · exact parse_finite h ⟨sign, a, .point b (some e)⟩ rfl rfl
      (congrArg (· - (b.chars.length : Int)) hscale) hb
  · exact parse_finite h ⟨sign, a, .scaled e⟩ rfl (congrArg placeValue (List.append_nil _))
      ((Int.sub_zero _).trans hscale) hb
  · rw [Numeral.readSliced?_digits a.digits, positional_eq_placeValue a.digits]

/-- The same digits in all five forms, with leading zeros, and a zero that keeps its sign and its
trailing zeros. -/
theorem parse_number_zeros :
    Settings.standard.Ample ∧ SignText.minus ≠ .none ∧
    parse .standard "007" = .ok (.natural 7) ∧
    parse .standard "-007" = .ok (.integer (-7)) ∧
    parse .standard "-007.50" = .ok (.double (@Decimal.finite true 750 (-2) (by decide))) ∧
    parse .standard "-007.50E-03" = .ok (.double (@Decimal.finite true 750 (-5) (by decide))) ∧
    parse .standard "-007E-03" = .ok (.double (@Decimal.finite true 7 (-3) (by decide))) ∧
    parse .standard "-0.00" = .ok (.double (@Decimal.finite true 0 (-2) (by decide))) := by
  have hminus : SignText.minus ≠ .none := nofun
  have hseven := parse_number .standard Settings.ample_standard .minus
    ⟨"007".toList, by decide, List.all_eq_true.mp rfl⟩
    ⟨"50".toList, by decide, List.all_eq_true.mp rfl⟩
    ⟨'E', .inr rfl, .minus, ⟨"03".toList, by decide, List.all_eq_true.mp rfl⟩⟩
  have hzero := parse_number .standard Settings.ample_standard .minus
    ⟨"0".toList, by decide, List.all_eq_true.mp rfl⟩
    ⟨"00".toList, by decide, List.all_eq_true.mp rfl⟩
    ⟨'E', .inr rfl, .minus, ⟨"03".toList, by decide, List.all_eq_true.mp rfl⟩⟩
  obtain ⟨hnatural, hinteger, hpoint, hboth, hexponent, -⟩ := hseven
  obtain ⟨-, -, hsigned, -⟩ := hzero
  exact ⟨Settings.ample_standard, hminus, hnatural, hinteger hminus, hpoint (by decide),
    hboth (by decide), hexponent (by decide), hsigned (by decide)⟩

end DhallSyntax
