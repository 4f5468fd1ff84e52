import DhallSyntax.Proofs.Number.Conversion
import Mathlib.Data.List.Basic
import Mathlib.Data.List.TakeWhile

/-!
Numerals as lenient readers take them: digits with single underscores between them, after at most
one sign and with blanks around it. Main statements:

* `read?_eq_some_iff`: a text is read as a number if and only if it is a numeral of the number;
* `Denotes.eq_number`: a numeral stands for one number only, which its decimal digits make.
-/

namespace DhallSyntax.Numeral

/-- The value of the digits of a number, the last of which counts ones. -/
def valueOf (digits : List Nat) : Nat :=
  Nat.ofDigits 10 digits.reverse

/-- Decimal digits with single underscores between them, and the values of the digits. -/
inductive Grouped : List Char → List Nat → Prop where
  | last (d : DigitIn 10) : Grouped [d.char] [d.value]
  | next (d : DigitIn 10) {s : List Char} {digits : List Nat} :
    Grouped s digits → Grouped (d.char :: s) (d.value :: digits)
  | apart (d : DigitIn 10) {s : List Char} {digits : List Nat} :
    Grouped s digits → Grouped (d.char :: '_' :: s) (d.value :: digits)

/-- Digits after at most one sign, and the number that they stand for. -/
inductive Signed : List Char → Int → Prop where
  | plain {s : List Char} {digits : List Nat} : Grouped s digits → Signed s (valueOf digits)
  | plus {s : List Char} {digits : List Nat} : Grouped s digits → Signed ('+' :: s) (valueOf digits)
  | minus {s : List Char} {digits : List Nat} :
    Grouped s digits → Signed ('-' :: s) (-(valueOf digits : Int))

/-- A numeral with blanks around it, and the number that it stands for. -/
inductive Denotes : List Char → Int → Prop where
  | mk {before s after : List Char} {n : Int} : (∀ c ∈ before, isBlank c = true) → Signed s n →
    (∀ c ∈ after, isBlank c = true) → Denotes (before ++ s ++ after) n

/-! ## Digits and values -/

theorem valueOf_append (digits more : List Nat) :
    valueOf (digits ++ more) = valueOf digits * 10 ^ more.length + valueOf more := by
  rw [valueOf, List.reverse_append, Nat.ofDigits_append, List.length_reverse, Nat.add_comm,
    Nat.mul_comm]
  rfl

theorem valueOf_cons (d : Nat) (digits : List Nat) :
    valueOf (d :: digits) = d * 10 ^ digits.length + valueOf digits := by
  have happend := valueOf_append [d] digits
  rwa [show valueOf [d] = d by simp [valueOf]] at happend

/-- A decimal digit is one of some script. -/
theorem digitIn_of_decimalDigit? {c : Char} {d : Nat} (h : decimalDigit? c = some d) :
    ∃ digit : DigitIn 10, digit.char = c ∧ digit.value = d := by
  obtain ⟨z, hz, rfl⟩ := Option.map_eq_some_iff.mp h
  have hmem := List.mem_of_find?_eq_some hz
  have hin := List.find?_some hz
  simp only [Bool.and_eq_true, decide_eq_true_eq] at hin
  have hlt : c.toNat - z < 10 := by omega
  exact ⟨⟨c, c.toNat - z, hlt, .decimal hmem hlt (by omega)⟩, rfl, rfl⟩

theorem digitIn_of_digitValue? {c : Char} {d : Nat} (h : digitValue? c = some d) (hd : d < 10) :
    ∃ digit : DigitIn 10, digit.char = c ∧ digit.value = d := by
  refine digitIn_of_decimalDigit? ?_
  rw [digitValue?] at h
  split at h
  · cases h
    omega
  · split at h
    · cases h
      omega
    · exact h

theorem DigitIn.decimalDigit? (d : DigitIn 10) : decimalDigit? d.char = some d.value := by
  obtain ⟨c, value, hlt, hstands⟩ := d
  cases hstands with
  | decimal hz hd hc => exact decimalDigit?_of_mem hz hd hc
  | lower | upper => omega

theorem DigitIn.digitValue? {base : Nat} (d : DigitIn base) :
    digitValue? d.char = some d.value :=
  d.standsFor.digitValue?

theorem DigitIn.ne_underscore (d : DigitIn 10) : d.char ≠ '_' := by
  intro h
  have hvalue := d.digitValue?
  rw [h, show Numeral.digitValue? '_' = none by decide] at hvalue
  cases hvalue

/-! ## Groups of digits -/

section Groups

variable {s : List Char} {value n : Nat}

/-- What digits make of a value that they are written behind. -/
def Extends (value : Nat) (s : List Char) (n : Nat) : Prop :=
  ∃ digits, Grouped s digits ∧ n = value * 10 ^ digits.length + valueOf digits

theorem extends_cons_iff {c : Char} :
    Extends value (c :: s) n ↔ ∃ d : DigitIn 10, d.char = c ∧
      (s = [] ∧ n = value * 10 + d.value ∨ Extends (value * 10 + d.value) s n ∨
        ∃ t, s = '_' :: t ∧ Extends (value * 10 + d.value) t n) := by
  have hshift : ∀ (d : DigitIn 10) (digits : List Nat),
      value * 10 ^ (d.value :: digits).length + valueOf (d.value :: digits) =
        (value * 10 + d.value) * 10 ^ digits.length + valueOf digits := by
    intro d digits
    rw [valueOf_cons, List.length_cons, Nat.pow_succ]
    ring
  constructor
  · rintro ⟨digits, hgrouped, rfl⟩
    cases hgrouped with
    | last d => exact ⟨d, rfl, .inl ⟨rfl, by rw [hshift]; simp [valueOf]⟩⟩
    | next d h => exact ⟨d, rfl, .inr (.inl ⟨_, h, hshift d _⟩)⟩
    | apart d h => exact ⟨d, rfl, .inr (.inr ⟨_, rfl, _, h, hshift d _⟩)⟩
  · rintro ⟨d, rfl, ⟨rfl, rfl⟩ | ⟨digits, h, rfl⟩ | ⟨t, rfl, digits, h, rfl⟩⟩
    · exact ⟨_, .last d, by rw [hshift]; simp [valueOf]⟩
    · exact ⟨_, .next d h, (hshift d _).symm⟩
    · exact ⟨_, .apart d h, (hshift d _).symm⟩

/-- A digit is taken behind another one as well as behind an underscore. -/
theorem separated?_digit {c : Char} (hc : c ≠ '_') (afterDigit : Bool) :
    separated? 10 value afterDigit (c :: s) = some n ↔
      ∃ d : DigitIn 10, d.char = c ∧ separated? 10 (value * 10 + d.value) true s = some n := by
  rw [separated?, if_neg (by simpa using hc)]
  constructor
  · intro h
    split at h
    · rename_i d hd
      split at h
      · rename_i hlt
        obtain ⟨digit, rfl, rfl⟩ := digitIn_of_digitValue? hd hlt
        exact ⟨digit, rfl, h⟩
      · cases h
    · cases h
  · rintro ⟨d, rfl, h⟩
    rw [d.digitValue?]
    dsimp only
    rwa [if_pos d.value_lt]

theorem not_extends_nil : ¬ Extends value [] n := by
  rintro ⟨digits, h, -⟩
  cases h

theorem not_extends_underscore : ¬ Extends value ('_' :: s) n := fun h => by
  obtain ⟨d, hd, -⟩ := extends_cons_iff.mp h
  exact d.ne_underscore hd

/-- At the beginning and behind an underscore digits have to follow; behind a digit the text may end
or an underscore may stand. -/
theorem separated?_iff (s : List Char) (value : Nat) :
    (separated? 10 value false s = some n ↔ Extends value s n) ∧
      (separated? 10 value true s = some n ↔
        s = [] ∧ n = value ∨ Extends value s n ∨ ∃ t, s = '_' :: t ∧ Extends value t n) := by
  induction s generalizing value with
  | nil => simp [separated?, not_extends_nil, eq_comm]
  | cons c s ih =>
    by_cases hc : c = '_'
    · subst hc
      have hfalse : separated? 10 value false ('_' :: s) = none := rfl
      have htrue : separated? 10 value true ('_' :: s) = separated? 10 value false s := rfl
      rw [hfalse, htrue, (ih value).1]
      simp [not_extends_underscore]
    · have hdigit : (∃ d : DigitIn 10, d.char = c ∧
          separated? 10 (value * 10 + d.value) true s = some n) ↔ Extends value (c :: s) n := by
        rw [extends_cons_iff]
        exact exists_congr fun d => and_congr_right fun _ => (ih _).2
      rw [separated?_digit hc, separated?_digit hc, hdigit]
      simp [hc]

end Groups

/-! ## Blanks and signs -/

variable {s : List Char} {n : Int}

theorem DigitIn.not_blank (d : DigitIn 10) : isBlank d.char = false :=
  IsDigitIn.not_blank ⟨d.value, d.value_lt, d.digitValue?⟩

theorem DigitIn.not_sign (d : DigitIn 10) : d.char ≠ '+' ∧ d.char ≠ '-' := by
  have hdigit : IsDigitIn 10 d.char := ⟨d.value, d.value_lt, d.digitValue?⟩
  exact ⟨hdigit.ne_of_none (by decide), hdigit.ne_of_none (by decide)⟩

theorem Grouped.head {digits : List Nat} (h : Grouped s digits) :
    ∃ (d : DigitIn 10) (t : List Char), s = d.char :: t := by
  cases h with
  | last d | next d _ | apart d _ => exact ⟨d, _, rfl⟩

theorem Grouped.getLast {digits : List Nat} (h : Grouped s digits) :
    ∃ (t : List Char) (d : DigitIn 10), s = t ++ [d.char] := by
  induction h with
  | last d => exact ⟨[], d, rfl⟩
  | next d _ ih =>
    obtain ⟨t, e, rfl⟩ := ih
    exact ⟨d.char :: t, e, rfl⟩
  | apart d _ ih =>
    obtain ⟨t, e, rfl⟩ := ih
    exact ⟨d.char :: '_' :: t, e, rfl⟩

/-- Blanks are taken off from both sides, up to other characters. -/
theorem trim_between {before after : List Char} {c d : Char} {t u : List Char}
    (hbefore : ∀ c ∈ before, isBlank c = true) (hafter : ∀ c ∈ after, isBlank c = true)
    (hhead : s = c :: t) (hc : isBlank c = false) (hlast : s = u ++ [d]) (hd : isBlank d = false) :
    trim (before ++ s ++ after) = s := by
  have hfront : (before ++ s ++ after).dropWhile isBlank = s ++ after := by
    rw [List.append_assoc, List.dropWhile_append_of_pos hbefore, hhead, List.cons_append,
      List.dropWhile_cons, hc, if_neg Bool.false_ne_true]
  rw [trim, hfront, List.reverse_append,
    List.dropWhile_append_of_pos fun c hc => hafter c (List.mem_reverse.mp hc), hlast,
    List.reverse_append, List.reverse_singleton, List.singleton_append, List.dropWhile_cons, hd,
    if_neg Bool.false_ne_true, List.reverse_cons, List.reverse_reverse]

theorem exists_trim (s : List Char) :
    ∃ before after, s = before ++ trim s ++ after ∧ (∀ c ∈ before, isBlank c = true) ∧
      ∀ c ∈ after, isBlank c = true := by
  let kept := s.dropWhile isBlank
  refine ⟨s.takeWhile isBlank, (kept.reverse.takeWhile isBlank).reverse, ?_,
    fun c hc => List.mem_takeWhile_imp hc,
    fun c hc => List.mem_takeWhile_imp (List.mem_reverse.mp hc)⟩
  rw [trim, List.append_assoc, ← List.reverse_append, List.takeWhile_append_dropWhile,
    List.reverse_reverse, List.takeWhile_append_dropWhile]

/-- A sign is the first character if it is there at all. -/
theorem signed_iff :
    Signed s n ↔ ∃ digits, Grouped (splitSign s).2 digits ∧
      n = applySign (splitSign s).1 (valueOf digits) := by
  constructor
  · intro h
    cases h with
    | plain h =>
      obtain ⟨d, t, rfl⟩ := h.head
      have hsplit : splitSign (d.char :: t) = (false, d.char :: t) := by
        unfold splitSign
        split
        · rename_i heq
          exact absurd (List.cons.inj heq).1 d.not_sign.1
        · rename_i heq
          exact absurd (List.cons.inj heq).1 d.not_sign.2
        · rfl
      rw [hsplit]
      exact ⟨_, h, rfl⟩
    | plus h => exact ⟨_, h, rfl⟩
    | minus h => exact ⟨_, h, rfl⟩
  · rintro ⟨digits, h, rfl⟩
    unfold splitSign at h ⊢
    split at h
    · exact .plus h
    · exact .minus h
    · exact .plain h

/-- A number begins and ends with a sign or digit, not with a blank. -/
theorem Signed.solid (h : Signed s n) :
    ∃ c t u d, s = c :: t ∧ isBlank c = false ∧ s = u ++ [d] ∧ isBlank d = false := by
  cases h with
  | plain h =>
    obtain ⟨c, t, hhead⟩ := h.head
    obtain ⟨u, d, hlast⟩ := h.getLast
    exact ⟨_, t, u, _, hhead, c.not_blank, hlast, d.not_blank⟩
  | plus h | minus h =>
    obtain ⟨u, d, rfl⟩ := h.getLast
    exact ⟨_, _, _ :: u, _, rfl, by decide, rfl, d.not_blank⟩

theorem read?_eq_separated? (s : List Char) :
    read? 10 s = (separated? 10 0 false (splitSign (trim s)).2).map fun m : Nat =>
      applySign (splitSign (trim s)).1 m := by
  have hmark : ∀ s, dropMark 10 s = s := by
    intro s
    unfold dropMark
    split
    · rw [if_neg (by simp [marker?])]
    · rfl
  simp only [read?, hmark]
  cases separated? 10 0 false (splitSign (trim s)).2 <;> rfl

/-- A text is read as a number if and only if it is a numeral of the number. -/
theorem read?_eq_some_iff : read? 10 s = some n ↔ Denotes s n := by
  rw [read?_eq_separated?, Option.map_eq_some_iff]
  have hvalue : ∀ m, separated? 10 0 false (splitSign (trim s)).2 = some m ↔
      ∃ digits, Grouped (splitSign (trim s)).2 digits ∧ m = valueOf digits := by
    intro m
    rw [(separated?_iff _ 0).1, Extends]
    simp only [Nat.zero_mul, Nat.zero_add]
  constructor
  · rintro ⟨m, hm, rfl⟩
    obtain ⟨digits, hgrouped, rfl⟩ := (hvalue m).mp hm
    obtain ⟨before, after, hs, hbefore, hafter⟩ := exists_trim s
    have hdenotes := Denotes.mk hbefore (signed_iff.mpr ⟨digits, hgrouped, rfl⟩) hafter
    rwa [← hs] at hdenotes
  · intro h
    cases h with
    | @mk before t after n hbefore hsigned hafter =>
      obtain ⟨c, t', u, d, hhead, hc, hlast, hd⟩ := hsigned.solid
      have htrim := trim_between hbefore hafter hhead hc hlast hd
      rw [htrim] at hvalue ⊢
      obtain ⟨digits, hgrouped, rfl⟩ := signed_iff.mp hsigned
      exact ⟨valueOf digits, (hvalue _).mpr ⟨digits, hgrouped, rfl⟩, rfl⟩

/-! ## The number of a numeral -/

/-- The values of the decimal digits among the characters of a text. -/
def figures (s : List Char) : List Nat := s.filterMap decimalDigit?

/-- The number that the decimal digits of a text make, negative if there is a minus. -/
def number (s : List Char) : Int :=
  if '-' ∈ s then -(valueOf (figures s) : Int) else valueOf (figures s)

theorem figures_append (s t : List Char) : figures (s ++ t) = figures s ++ figures t :=
  List.filterMap_append

theorem figures_cons_none {c : Char} (h : decimalDigit? c = none) (s : List Char) :
    figures (c :: s) = figures s :=
  List.filterMap_cons_none h

theorem figures_cons_digit (d : DigitIn 10) (s : List Char) :
    figures (d.char :: s) = d.value :: figures s :=
  List.filterMap_cons_some d.decimalDigit?

theorem figures_blank (h : ∀ c ∈ s, isBlank c = true) : figures s = [] := by
  refine List.filterMap_eq_nil_iff.mpr fun c hc => Option.eq_none_iff_forall_ne_some.mpr ?_
  intro d hd
  obtain ⟨digit, rfl, -⟩ := digitIn_of_decimalDigit? hd
  have hblank := h _ hc
  rw [digit.not_blank] at hblank
  cases hblank

theorem Grouped.figures_eq {digits : List Nat} (h : Grouped s digits) : figures s = digits := by
  induction h with
  | last d => exact figures_cons_digit d []
  | next d _ ih => rw [figures_cons_digit, ih]
  | apart d _ ih => rw [figures_cons_digit, figures_cons_none (by decide), ih]

theorem Grouped.no_minus {digits : List Nat} (h : Grouped s digits) : '-' ∉ s := by
  induction h with
  | last d => simpa using d.not_sign.2.symm
  | next d _ ih => exact List.not_mem_cons_of_ne_of_not_mem d.not_sign.2.symm ih
  | apart d _ ih =>
    exact List.not_mem_cons_of_ne_of_not_mem d.not_sign.2.symm
      (List.not_mem_cons_of_ne_of_not_mem (by decide) ih)

theorem Signed.eq_number (h : Signed s n) : n = number s := by
  cases h with
  | plain h => rw [number, if_neg h.no_minus, h.figures_eq]
  | plus h =>
    have hminus := List.not_mem_cons_of_ne_of_not_mem (by decide : '-' ≠ '+') h.no_minus
    rw [number, if_neg hminus, figures_cons_none (by decide), h.figures_eq]
  | minus h =>
    rw [number, if_pos List.mem_cons_self, figures_cons_none (by decide), h.figures_eq]

theorem no_minus_of_blank (h : ∀ c ∈ s, isBlank c = true) : '-' ∉ s := fun hmem =>
  absurd (h _ hmem) (by decide)

/-- A numeral stands for one number only. -/
theorem Denotes.eq_number (h : Denotes s n) : n = number s := by
  cases h with
  | @mk before t after n hbefore hsigned hafter =>
    have hfigures : figures (before ++ t ++ after) = figures t := by
      rw [figures_append, figures_append, figures_blank hbefore, figures_blank hafter,
        List.append_nil, List.nil_append]
    have hminus : '-' ∈ before ++ t ++ after ↔ '-' ∈ t := by
      simp [no_minus_of_blank hbefore, no_minus_of_blank hafter]
    rw [hsigned.eq_number, number, number, hfigures]
    simp only [hminus]

theorem Denotes.not_blank (h : Denotes s n) : ¬ ∀ c ∈ s, isBlank c = true := by
  intro hblank
  cases h with
  | mk _ hsigned _ =>
    obtain ⟨c, t, u, d, rfl, hc, -⟩ := hsigned.solid
    rw [hblank c (by simp)] at hc
    cases hc

/-- In a numeral there is one minus at most, and nothing but blanks in front of it. -/
theorem Denotes.around_minus {t : List Char} (h : Denotes (s ++ '-' :: t) n) :
    (∀ c ∈ s, isBlank c = true) ∧ '-' ∉ t := by
  generalize hwhole : s ++ '-' :: t = whole at h
  cases h with
  | @mk before u after n hbefore hsigned hafter =>
    have hleft := no_minus_of_blank hbefore
    have hright := no_minus_of_blank hafter
    have hmem : '-' ∈ before ++ u ++ after := by simp [← hwhole]
    have hminus : '-' ∈ u := by simpa [hleft, hright] using hmem
    cases hsigned with
    | plain h => exact absurd hminus h.no_minus
    | plus h =>
      exact absurd hminus (List.not_mem_cons_of_ne_of_not_mem (by decide) h.no_minus)
    | @minus u digits h =>
      have hbehind : '-' ∉ u ++ after := by simp [h.no_minus, hright]
      have hcut : before ++ '-' :: (u ++ after) = s ++ '-' :: t := by simp [hwhole]
      obtain ⟨rfl, -, rfl⟩ := (List.append_cons_inj_of_notMem hleft hbehind).mp hcut
      exact ⟨hbefore, hbehind⟩

end DhallSyntax.Numeral
