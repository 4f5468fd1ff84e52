import DhallSyntax.Proofs.Reading.Numbers
import DhallSyntax.Proofs.Seam.Words

/-!
Numbers and names in front of a seam. Main statements:

* `Seam.carries_doubleLiteral`, `Seam.carries_labelExcept`: they are the same with either end;
* `Seam.ready_doubleLiteral`: digits that are no double with the first end are none with the second;
* `Seam.carries_identifier`: an identifier is the same where no index follows.
-/

namespace DhallSyntax

open CharClass Grammar

variable {α β : Type}

theorem Unbroken.append {text text' : List Char} (h : Unbroken text) (h' : Unbroken text') :
    Unbroken (text ++ text') := by
  rw [Unbroken, List.all_append, h, h', Bool.and_self]

theorem CharClass.digit_unbroken : digit.Unbroken := ⟨by decide, by decide⟩

theorem DigitRun.unbroken (run : DigitRun) : Unbroken run.chars :=
  .of_class digit_unbroken run.all_digit

theorem SignText.unbroken (sign : SignText) : Unbroken sign.chars := by
  cases sign <;> decide

theorem ExponentText.unbroken (e : ExponentText) : Unbroken e.chars := by
  have hmark : Unbroken [e.mark] := by
    obtain h | h := e.mark_eq <;> rw [h] <;> decide
  exact hmark.append (e.sign.unbroken.append e.run.unbroken)

theorem DoubleTail.unbroken (tail : DoubleTail) : Unbroken tail.chars := by
  have hpoint : Unbroken ['.'] := by decide
  cases tail with
  | scaled e => exact e.unbroken
  | point fraction exponent? =>
    refine hpoint.append (fraction.unbroken.append ?_)
    cases exponent? with
    | none => exact (by decide : Unbroken [])
    | some e => exact e.unbroken

namespace Seam

variable {T : Seam} {n : Nat} {x y z : List Char}

/-! ## Numbers -/

theorem carries_digits {E : List Char → List Char → Prop} : T.Carries n E digits :=
  carries_takeWhile1 (.inl digit_unbroken) _

theorem carries_sign {E : Bool → List Char → Prop} : T.Carries n E sign :=
  .andThen (carries_takeIf (.inl ⟨by decide, by decide⟩)) fun _ => .pure _

theorem carries_exponent {E : Int → List Char → Prop} : T.Carries n E exponent :=
  .andThen (carries_expectAny (by decide)) fun _ => .andThen carries_sign fun _ =>
    .andThen carries_digits fun _ => .pure _

theorem carries_naturalLiteral {E : Nat → List Char → Prop} : T.Carries n E naturalLiteral :=
  .andThen carries_digits fun _ => .pure _

theorem carries_integerLiteral {E : Int → List Char → Prop} : T.Carries n E integerLiteral :=
  .andThen (carries_expectAny (by decide)) fun _ => .andThen carries_digits fun _ => .pure _

/-- The second end of the text adds no exponent. -/
theorem ready_exponent : T.Ready exponent x := by
  intro n hf
  refine misses_fails (by simp [exponent, sign, digits]) hf ?_
  have hwas := (fails_iff (by simp [exponent, sign, digits]) (by simp [exponent, sign, digits])).mp hf
  cases hnow : exponent.readBy Rule.read (T.now x) with
  | mismatch => rfl
  | abort fault => exact absurd hnow exponent_ne_abort
  | value k t =>
    obtain ⟨e, -, hs⟩ := exponent_eq_value hnow
    obtain ⟨t', ht⟩ := prefix_was e.unbroken ⟨t, hs.symm⟩
    obtain ⟨k', u, hread⟩ := readBy_exponent_text e t'
    rw [ht, hwas] at hread
    cases hread

theorem carries_decimal {E : Decimal → List Char → Prop} (negative : Bool)
    (whole fraction : List Char) (exponent : Int) :
    T.Carries n E (decimal negative whole fraction exponent) := by
  unfold decimal
  dsimp only
  split
  · exact .pure _
  · exact .abort _ _

theorem carries_doubleLiteral {E : Decimal → List Char → Prop} :
    T.Carries n E doubleLiteral := by
  refine Carries.look (fun x a y h _ => ?_) fun entry => ?_
  · apply find?_now (by decide)
    intro entry hentry
    rw [hentry] at h
    obtain ⟨_, z, hword, -⟩ := Lands.bind h
    obtain ⟨rfl, -⟩ := lands_keyword hword
    exact List.prefix_append _ z
  · cases entry with
    | some entry => exact .andThen (carries_keyword _) fun _ => .pure _
    | none =>
      apply Carries.andThen carries_sign
      intro negative
      apply Carries.andThen carries_digits
      intro whole
      apply Carries.andThen (carries_accept (by decide))
      intro point
      apply Carries.ite
      · intro _
        apply Carries.andThen carries_digits
        intro fraction
        exact .andThen (Carries.optional? carries_exponent fun _ _ => ready_exponent)
          fun _ => carries_decimal _ _ _ _
      · exact fun _ => .andThen carries_exponent fun _ => carries_decimal _ _ _ _

/-- Digits that are no double with the first end are none with the second. -/
theorem ready_doubleLiteral (sign : SignText) (run : DigitRun)
    (hy : (T.was y).head?.any digit = false) :
    T.Ready (call .doubleLiteral) (sign.chars ++ (run.chars ++ y)) := by
  obtain ⟨c, rest, hrun, -⟩ := run.cons
  apply Ready.call (by simp [hrun])
  intro n hf
  have hfree : doubleLiteral.CallFree := doesOnly_doubleLiteral ⟨_, rfl⟩
  have hnumber : ∀ t, t.head?.any digit = false →
      doubleLiteral.readBy Rule.read (sign.chars ++ (run.chars ++ t)) =
        (doubleTail sign.negative run.chars).readBy Rule.read t :=
    fun t ht => readBy_doubleLiteral_digits sign run ht
  have hwas := (fails_iff hfree (doesOnly_doubleLiteral (by simp [Fault.isDefect]))).mp hf
  rw [was_append, was_append, hnumber _ hy] at hwas
  refine misses_fails hfree hf ?_
  rw [now_append, now_append]
  refine (hnumber _ (head_was digit_unbroken hy)).trans ?_
  obtain h | ⟨tail, t, ht, -⟩ := doubleTail_cases sign run (T.now y)
  · exact h
  · obtain ⟨t', ht'⟩ := prefix_was tail.unbroken ⟨t, ht.symm⟩
    rw [← ht'] at hwas
    exact absurd hwas (doubleTail_ne_mismatch _ _ tail t')

theorem lands_digits {run : List Char} (h : T.Lands n digits x run y) :
    ∃ r : DigitRun, r.chars = run ∧ x = run ++ y ∧ (T.was y).head?.any digit = false := by
  obtain ⟨hrun, hne⟩ := lands_takeWhile1 h
  obtain ⟨rfl, hall, hy⟩ := lands_takeWhile hrun
  exact ⟨⟨run, hne, fun c hc => digit_eq_isDigit c ▸ hall c hc⟩, rfl, rfl, hy⟩

/-- A natural number is a double with neither end, or with both. -/
theorem leads_natural_double {E : Nat → List Char → Prop} :
    T.Leads n E (T.Ready (call .doubleLiteral)) (call .naturalLiteral) := by
  refine Leads.call .naturalLiteral (.front ?_)
  intro x run y h _
  obtain ⟨r, rfl, rfl, hy⟩ := lands_digits h
  exact ready_doubleLiteral .none r hy

theorem leads_integer_double {E : Int → List Char → Prop} :
    T.Leads n E (T.Ready (call .doubleLiteral)) (call .integerLiteral) := by
  refine Leads.call .integerLiteral ?_
  intro x a y h _
  obtain ⟨mark, z, hmark, h⟩ := Lands.bind h
  obtain ⟨run, w, hrun, -⟩ := Lands.bind h
  obtain ⟨r, rfl, rfl, hy⟩ := lands_digits hrun
  obtain ⟨hm, rfl⟩ := lands_expectAny hmark
  simp only [List.mem_cons, List.not_mem_nil, or_false] at hm
  obtain rfl | rfl := hm
  · exact ready_doubleLiteral .plus r hy
  · exact ready_doubleLiteral .minus r hy

/-! ## Names -/

theorem was_head_any {chars : CharClass} (h : x.head?.any chars = true) :
    (T.was x).head?.any chars = true := by
  obtain ⟨c, t, rfl, hc⟩ := head?_of_any h
  exact hc

theorem now_head_any {chars : CharClass} (h : x.head?.any chars = true) :
    (T.now x).head?.any chars = true := by
  obtain ⟨c, t, rfl, hc⟩ := head?_of_any h
  exact hc

theorem carries_quotedLabel {E : String → List Char → Prop} :
    T.Carries n E Grammar.quotedLabel := by
  apply Carries.andThen (carries_expect (by decide))
  intro _
  apply Carries.bind (F := fun _ z => z ≠ []) (carries_takeWhile (.inr fun _ _ h => h))
  · intro run
    apply Leads.front
    exact leads_expect fun y _ => List.cons_ne_nil _ _
  · exact fun _ => .andThen (carries_expect (by decide)) fun _ => .pure _

theorem carries_labelExcept {excluded : String → Bool} {expected : String}
    {E : String → List Char → Prop} : T.Carries n E (labelExcept excluded expected) := by
  intro x a y h he
  by_cases hs : x.head?.any labelStart = true
  · have hin := leads_word_label (E := fun _ _ => True) _ _ x a y h trivial hs
    obtain ⟨hword, t, ht, hnow⟩ := word_now hin
    have hr := (lands_iff (doesOnly_labelExcept _ _) (doesOnly_labelExcept _ _)).mp h
    refine reads_plain (doesOnly_labelExcept _ _) h ?_
    rw [readBy_labelExcept_word (was_head_any hs)] at hr
    rw [readBy_labelExcept_word (now_head_any hs), hword, hnow]
    split at hr
    · cases hr
    · rename_i hfree
      obtain ⟨rfl, hy⟩ := Reading.value.inj hr
      rw [if_neg hfree, was_injective (ht.symm.trans hy)]
  · have hlt := Shrinks.of_ends (K := fun _ => True) (ends_labelExcept (Rule.softUpTo_leaves _) _ _) x a y h trivial
    obtain ⟨c, t, rfl⟩ := List.exists_cons_of_length_pos (Nat.zero_lt_of_lt hlt)
    obtain ⟨b, z, hb, hl⟩ := Lands.bind h
    obtain ⟨rfl, rfl⟩ := lands_look hb
    apply Same.bind (reads_look rfl rfl)
    have hquote : (List.head? (T.was (c :: t)) == some '\x60') = true := by
      cases hq : (List.head? (T.was (c :: t)) == some '\x60') with
      | true => rfl
      | false =>
        refine absurd (beginsWith_labelExcept excluded expected (T.was (c :: t)) ?_) h.ne_mismatch
        exact Bool.or_eq_false_iff.mpr ⟨Bool.eq_false_iff.mpr hs, hq⟩
    rw [hquote, if_pos rfl] at hl ⊢
    exact carries_quotedLabel _ a y hl he

theorem carries_variableIndex {E : Nat → List Char → Prop} :
    T.Carries n E variableIndex := by
  apply Carries.spaced (.front (leads_token_expect (by decide)))
  apply Carries.andThen (carries_expect (by decide))
  intro _
  apply Carries.spaced (.front (leads_token_takeWhile1 (by decide) _))
  exact .andThen (carries_takeWhile1 (.inl digit_unbroken) _) fun _ => .pure _

/-- An identifier where no index follows. -/
theorem carries_identifier (hlabel : T.Carries n (fun _ _ => True) (call .nonreservedLabel))
    {E : Expr → List Char → Prop} (hE : ∀ a y, E a y → T.Ready variableIndex y) :
    T.Carries n E identifier := by
  intro x a y hl he
  obtain ⟨name, z, hname, h⟩ := Lands.bind hl
  clear hl
  obtain ⟨label, rfl, hland⟩ | ⟨rfl, rfl, hf⟩ := hname.optional?
  · have hreads := hlabel x label z hland trivial
    have hsome : T.Reads (optional? (call .nonreservedLabel)) x (some label) z :=
      .left (.bind hreads (.plain trivial (.refl _) rfl))
    apply Same.bind hsome
    refine Carries.bind (E := E) (F := fun index y => index = none → T.Ready variableIndex y)
      (Carries.optional? (carries_variableIndex.mono fun _ _ _ => trivial) fun x hx => hx rfl)
      (fun index => ?_) (fun _ => .pure _) z a y h he
    exact .pure fun x hx _ => hE _ x hx
  · have hs : z.head?.any labelStart = true := by
      have hlt := Shrinks.of_ends (K := fun _ => True) (ends_builtin (Rule.softUpTo_leaves _)) z a y h trivial
      obtain ⟨c, t, rfl⟩ := List.exists_cons_of_length_pos (Nat.zero_lt_of_lt hlt)
      cases hc : labelStart c with
      | true => exact hc
      | false =>
        refine absurd ?_ h.ne_mismatch
        have hw : (T.was (c :: t)).head?.any labelStart = false := hc
        change builtin.readBy Rule.read _ = _
        simp only [builtin, readBy_bind, readBy_look, Reading.bind_value, hw, Bool.false_and,
          Bool.false_eq_true, if_false, readBy_bareLabel_of_head hw, Reading.bind_mismatch]
    obtain ⟨hword, t, ht, hnow⟩ := word_now (leads_word_builtin (E := fun _ _ => True) z a y h trivial hs)
    have hmisses : T.Misses (call .nonreservedLabel) z := by
      refine Ready.call ?_ (fun k hk => ?_) _ hf
      · rintro rfl
        cases hs
      · have hwas := (fails_iff (doesOnly_labelExcept _ _) (doesOnly_labelExcept _ _)).mp hk
        refine misses_fails (doesOnly_labelExcept _ _) hk ?_
        rw [readBy_labelExcept_word (was_head_any hs)] at hwas
        refine (readBy_labelExcept_word (now_head_any hs) _ _).trans ?_
        rw [hword]
        split at hwas
        · rename_i hx
          rw [if_pos hx]
        · cases hwas
    have hnone : T.Reads (optional? (call .nonreservedLabel)) z none z :=
      .right (.miss hmisses) (.plain trivial (.refl _) rfl)
    apply Same.bind hnone
    have hr := (lands_iff doesOnly_builtin doesOnly_builtin).mp h
    refine reads_plain doesOnly_builtin h ?_
    rw [readBy_builtin_word (was_head_any hs)] at hr
    rw [readBy_builtin_word (now_head_any hs), hword, hnow]
    split at hr
    · rename_i hb
      obtain ⟨rfl, hy⟩ := Reading.value.inj hr
      rw [if_pos hb, was_injective (ht.symm.trans hy)]
    · cases hr

end Seam

end DhallSyntax
