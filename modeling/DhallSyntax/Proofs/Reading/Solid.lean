import DhallSyntax.Proofs.Grammar.Host
import DhallSyntax.Proofs.Reading.Softened
import DhallSyntax.Proofs.Reading.Yields

/-!
Where rules end. Whitespace behind an expression is looked past, but never taken: whatever an
optional part has skipped before it did not match is given back. Main statement:
`Rule.read_solid`, what a rule takes ends with a character that is no whitespace, unless the rule is
that of bindings, which are always followed by a word.
-/

namespace DhallSyntax

/-- The characters that whitespace is made of, comments apart. -/
def CharClass.blank : CharClass := " \t\r\n".toList.contains

theorem CharClass.blank_iff {c : Char} :
    blank c = true ↔ c.toNat = 32 ∨ c.toNat = 9 ∨ c.toNat = 13 ∨ c.toNat = 10 := by
  simp [blank, ← Char.toNat_inj]

open CharClass

/-- A class is told apart from whitespace by its code points. -/
theorem CharClass.not_blank {chars : CharClass}
    (h : ∀ c, chars c = true → c.toNat ≠ 32 ∧ c.toNat ≠ 9 ∧ c.toNat ≠ 13 ∧ c.toNat ≠ 10)
    (c : Char) (hc : chars c = true) : blank c = false := by
  have hne := h c hc
  rw [Bool.eq_false_iff, ne_eq, blank_iff]
  omega

theorem CharClass.digit_not_blank : ∀ c, digit c = true → blank c = false :=
  not_blank fun c hc => by rw [digit_iff] at hc; omega

theorem CharClass.hexDigit_not_blank : ∀ c, hexDigit c = true → blank c = false :=
  not_blank fun c hc => by rw [hexDigit_iff] at hc; omega

theorem CharClass.labelContinue_not_blank : ∀ c, labelContinue c = true → blank c = false :=
  not_blank fun c hc => by rw [labelContinue_iff] at hc; omega

variable {α β σ : Type} {s t u : List Char}

/-- The rest of a text behind a character that is no whitespace. -/
def Solid (s t : List Char) : Prop := ∃ x c, s = x ++ c :: t ∧ blank c = false

namespace Solid

theorem length_lt (h : Solid s t) : t.length < s.length := by
  obtain ⟨x, c, rfl, -⟩ := h
  simp only [List.length_append, List.length_cons]
  omega

theorem of_suffix (h : u <:+ s) (hu : Solid u t) : Solid s t := by
  obtain ⟨y, rfl⟩ := h
  obtain ⟨x, c, rfl, hc⟩ := hu
  exact ⟨y ++ x, c, (List.append_assoc y x _).symm, hc⟩

theorem going_on (h : Solid s u) (hu : t = u ∨ Solid u t) : Solid s t := by
  obtain ⟨x, c, rfl, hc⟩ := h
  obtain rfl | hs := hu
  · exact ⟨x, c, rfl, hc⟩
  · exact hs.of_suffix ⟨x ++ [c], List.append_assoc x [c] u⟩

theorem trans (h : u = s ∨ Solid s u) (hu : t = u ∨ Solid u t) : t = s ∨ Solid s t := by
  obtain rfl | hs := h
  · exact hu
  · exact .inr (hs.going_on hu)

theorem drop {text : List Char} (h : text ≠ []) (hall : ∀ c ∈ text, blank c = false)
    (t : List Char) : Solid (text ++ t) t := by
  refine ⟨text.dropLast, text.getLast h, ?_, hall _ (List.getLast_mem h)⟩
  rw [← List.singleton_append, ← List.append_assoc, List.dropLast_concat_getLast]

end Solid

namespace Grammar

variable {soft : Fault → Bool} {rules : RuleReader}

/-- Whatever a part takes ends with a character that is no whitespace. -/
def Ends (soft : Fault → Bool) (rules : RuleReader) (g : Grammar α) : Prop :=
  ∀ s a t, (g.soften soft).readBy rules s = .value a t → Solid s t

/-- A part takes nothing, or what it takes ends with a character that is no whitespace. -/
def Stays (soft : Fault → Bool) (rules : RuleReader) (g : Grammar α) : Prop :=
  ∀ s a t, (g.soften soft).readBy rules s = .value a t → t = s ∨ Solid s t

theorem Ends.stays {g : Grammar α} (h : g.Ends soft rules) : g.Stays soft rules :=
  fun s a t ha => .inr (h s a t ha)

theorem Ends.bind {first : Grammar β} {next : β → Grammar α} (h : first.Ends soft rules)
    (hn : ∀ b, (next b).Stays soft rules) : (first >>= next).Ends soft rules := by
  intro s a t ha
  obtain ⟨b, u, hb, hnext⟩ := Reading.bind_eq_value.mp ha
  exact (h s b u hb).going_on (hn b u a t hnext)

theorem Stays.bind {first : Grammar β} {next : β → Grammar α} (h : first.Stays soft rules)
    (hn : ∀ b, (next b).Stays soft rules) : (first >>= next).Stays soft rules := by
  intro s a t ha
  obtain ⟨b, u, hb, hnext⟩ := Reading.bind_eq_value.mp ha
  exact Solid.trans (h s b u hb) (hn b u a t hnext)

theorem ends_fail (expectation : String) : (fail expectation : Grammar α).Ends soft rules :=
  fun _ _ _ h => nomatch h

theorem ends_abort (fault : Fault) (back : Nat) :
    (abort fault back : Grammar α).Ends soft rules := by
  intro s a t h
  rw [soften] at h
  split at h <;> cases h

theorem stays_pure (a : α) : (Pure.pure a : Grammar α).Stays soft rules := by
  intro s b t h
  cases h
  exact .inl rfl

theorem stays_look (view : List Char → α) : (look view).Stays soft rules := by
  intro s b t h
  cases h
  exact .inl rfl

theorem Ends.look {view : List Char → β} {next : β → Grammar α}
    (h : ∀ s, (next (view s)).Ends soft rules) : (look view >>= next).Ends soft rules :=
  fun s => h s s

theorem Ends.orElse {first second : Grammar α} (h : first.Ends soft rules)
    (hs : second.Ends soft rules) : (orElse first second).Ends soft rules := by
  intro s a t ha
  obtain ha | ⟨-, ha⟩ := Reading.orElse_eq_value.mp ha
  · exact h s a t ha
  · exact hs s a t ha

theorem Ends.choice {alternatives : List (Grammar α)}
    (h : ∀ g ∈ alternatives, g.Ends soft rules) : (choice alternatives).Ends soft rules := by
  induction alternatives with
  | nil => exact fun _ _ _ h => nomatch h
  | cons g rest ih =>
    obtain ⟨hg, hrest⟩ := List.forall_mem_cons.mp h
    exact hg.orElse (ih hrest)

theorem Ends.map {first : Grammar β} {next : β → Grammar α} (h : first.Ends soft rules)
    (f : β → α) (hf : next = fun b => Pure.pure (f b)) : (first >>= next).Ends soft rules := by
  subst hf
  exact h.bind fun b => stays_pure _

theorem Stays.optional? {part : Grammar α} (h : part.Ends soft rules) :
    (optional? part).Stays soft rules := by
  intro s a t ha
  obtain ha | ⟨-, ha⟩ := Reading.orElse_eq_value.mp ha
  · exact .inr ((h.bind fun b => stays_pure (some b)) s a t ha)
  · cases ha
    exact .inl rfl

theorem Stays.ite {p : Prop} [Decidable p] {g g' : Grammar α} (h : g.Stays soft rules)
    (h' : g'.Stays soft rules) : (if p then g else g').Stays soft rules := by
  split
  · exact h
  · exact h'

theorem Ends.ite {p : Prop} [Decidable p] {g g' : Grammar α} (h : g.Ends soft rules)
    (h' : g'.Ends soft rules) : (if p then g else g').Ends soft rules := by
  split
  · exact h
  · exact h'

theorem Ends.optional? {part : Grammar β} {next : Option β → Grammar α} (h : part.Ends soft rules)
    (hs : ∀ b, (next (some b)).Stays soft rules) (hn : (next none).Ends soft rules) :
    (optional? part >>= next).Ends soft rules := by
  intro s a t ha
  obtain ⟨b?, u, hb, hnext⟩ := Reading.bind_eq_value.mp ha
  obtain hb | ⟨-, hb⟩ := Reading.orElse_eq_value.mp hb
  · obtain ⟨b, v, hpart, hv⟩ := Reading.bind_eq_value.mp hb
    cases hv
    exact (h s b u hpart).going_on (hs b u a t hnext)
  · cases hb
    exact hn s a t hnext

/-! ## Repetitions -/

theorem Stays.foldMany {part : Grammar α} (h : part.Ends soft rules) (f : σ → α → σ) (start : σ) :
    (foldMany part f start).Stays soft rules := by
  have hstep : ∀ state, (foldStep part f state).Stays soft rules := fun state =>
    (Stays.optional? h).bind fun value => by cases value <;> exact stays_pure _
  have hw : ∀ bound state s a t, Reading.iterateWithin
      (fun state s => ((foldStep part f state).soften soft).readBy rules s) bound state s =
        .value a t → t = s ∨ Solid s t := by
    intro bound
    induction bound with
    | nil =>
      intro state s a t ha
      unfold Reading.iterateWithin at ha
      obtain ⟨x, u, hx, hlater⟩ := Reading.bind_eq_value.mp ha
      cases x with
      | inl next => cases hlater
      | inr b => cases hlater; exact hstep state s _ _ hx
    | cons _ bound ih =>
      intro state s a t ha
      unfold Reading.iterateWithin at ha
      obtain ⟨x, u, hx, hlater⟩ := Reading.bind_eq_value.mp ha
      cases x with
      | inl next => exact Solid.trans (hstep state s _ u hx) (ih next u a t hlater)
      | inr b => cases hlater; exact hstep state s _ _ hx
  exact fun s a t ha => hw s start s a t ha

theorem Stays.many {part : Grammar α} (h : part.Ends soft rules) : (many part).Stays soft rules :=
  (Stays.foldMany h _ _).bind fun _ => stays_pure _

/-! ## Literals and runs of characters -/

theorem stays_takeWhile {chars : CharClass} (h : ∀ c, chars c = true → blank c = false) :
    (takeWhile chars).Stays soft rules := by
  intro s a t ha
  have hread : (takeWhile chars).readBy rules s = .value a t := ha
  rw [readBy_takeWhile] at hread
  cases hread
  by_cases hne : s.takeWhile chars = []
  · refine .inl ?_
    have hs := List.takeWhile_append_dropWhile (p := chars) (l := s)
    rw [hne, List.nil_append] at hs
    exact hs
  · refine .inr ?_
    have hsolid := Solid.drop hne (fun c hc => h c (mem_takeWhile hc)) (s.dropWhile chars)
    rwa [List.takeWhile_append_dropWhile] at hsolid

theorem ends_takeWhile1 {chars : CharClass} (h : ∀ c, chars c = true → blank c = false)
    (expected : String) : (takeWhile1 chars expected).Ends soft rules := by
  intro s a t ha
  rw [soften_eq_self (by simp)] at ha
  rw [readBy_takeWhile1] at ha
  split at ha
  · cases ha
  · rename_i hne
    cases ha
    have hsolid := Solid.drop (fun he => hne (List.isEmpty_iff.mpr he))
      (fun c hc => h c (mem_takeWhile hc)) (s.dropWhile chars)
    rwa [List.takeWhile_append_dropWhile] at hsolid

/-- A literal of characters that are no whitespace. -/
abbrev SolidText (literal : String) : Prop :=
  literal.toList ≠ [] ∧ literal.toList.all (fun c => !blank c) = true

theorem SolidText.drop {literal : String} (h : SolidText literal)
    (hs : literal.toList.isPrefixOf s = true) : Solid s (s.drop literal.toList.length) := by
  obtain ⟨t, rfl⟩ := List.isPrefixOf_iff_prefix.mp hs
  rw [List.drop_left]
  refine Solid.drop h.1 (fun c hc => ?_) t
  simpa using List.all_eq_true.mp h.2 c hc

theorem Ends.accept {literal : String} {next : Bool → Grammar α} (hl : SolidText literal)
    (ht : (next true).Stays soft rules) (hf : (next false).Ends soft rules) :
    (accept literal >>= next).Ends soft rules := by
  intro s a t ha
  obtain ⟨b, u, hb, hnext⟩ := Reading.bind_eq_value.mp ha
  have hread : (Grammar.accept literal).readBy rules s = .value b u := hb
  rw [readBy_accept] at hread
  split at hread
  · rename_i hs
    cases hread
    exact (hl.drop hs).going_on (ht _ a t hnext)
  · cases hread
    exact hf _ a t hnext

theorem stays_accept {literal : String} (hl : SolidText literal) :
    (accept literal).Stays soft rules := by
  intro s b t hb
  have hread : (accept literal).readBy rules s = .value b t := hb
  rw [readBy_accept] at hread
  split at hread
  · rename_i hs
    cases hread
    exact .inr (hl.drop hs)
  · cases hread
    exact .inl rfl

theorem ends_expectAny {literals : List String} (h : ∀ l ∈ literals, SolidText l) :
    (expectAny literals).Ends soft rules := by
  intro s a t ha
  rw [soften_eq_self (by simp)] at ha
  induction literals with
  | nil => cases ha
  | cons literal literals ih =>
    obtain ⟨hl, hrest⟩ := List.forall_mem_cons.mp h
    rw [readBy_expectAny_cons] at ha
    split at ha
    · rename_i hs
      cases ha
      exact hl.drop hs
    · exact ih hrest ha

theorem ends_expect {literal : String} (h : SolidText literal) :
    (expect literal).Ends soft rules :=
  (ends_expectAny (List.forall_mem_singleton.mpr h)).bind fun _ => stays_pure ()

theorem ends_keyword {word : String} (h : SolidText word) : (keyword word).Ends soft rules := by
  intro s a t ha
  rw [soften_eq_self (by simp), readBy_keyword] at ha
  split at ha
  · rename_i hs
    cases ha
    exact h.drop (Bool.and_eq_true_iff.mp hs).1
  · cases ha

/-! ## Parts that are known to go on -/

variable (hleaves : ∀ rule s, (rules rule s).Leaves s)

include hleaves in
/-- Whatever comes first, if what goes on takes something. -/
theorem Ends.behind {first : Grammar β} {next : β → Grammar α}
    (hn : ∀ b, (next b).Ends soft rules) : (first >>= next).Ends soft rules := by
  intro s a t ha
  obtain ⟨b, u, hb, hnext⟩ := Reading.bind_eq_value.mp ha
  exact (hn b u a t hnext).of_suffix (readBy_leaves hleaves _ s b u hb)

include hleaves in
/-- A repetition ends as its last step does. -/
theorem Ends.iterate {state : σ} {step : σ → Grammar (σ ⊕ α)}
    (h : ∀ state s a t, ((step state).soften soft).readBy rules s = .value (.inr a) t →
      Solid s t) : (iterate state step).Ends soft rules := by
  have hw : ∀ bound state s a t, Reading.iterateWithin
      (fun state s => ((step state).soften soft).readBy rules s) bound state s = .value a t →
        Solid s t := by
    intro bound
    induction bound with
    | nil =>
      intro state s a t ha
      unfold Reading.iterateWithin at ha
      obtain ⟨x, u, hx, hlater⟩ := Reading.bind_eq_value.mp ha
      cases x with
      | inl next => cases hlater
      | inr b => cases hlater; exact h state s _ _ hx
    | cons _ bound ih =>
      intro state s a t ha
      unfold Reading.iterateWithin at ha
      obtain ⟨x, u, hx, hlater⟩ := Reading.bind_eq_value.mp ha
      cases x with
      | inl next =>
        exact (ih next u a t hlater).of_suffix (readBy_leaves hleaves _ s _ u hx)
      | inr b => cases hlater; exact h state s _ _ hx
  exact fun s a t ha => hw s state s a t ha

/-! ## Literals -/

theorem ends_digits : digits.Ends soft rules := ends_takeWhile1 digit_not_blank _

theorem stays_decimal (negative : Bool) (whole fraction : List Char) (exponent : Int) :
    (decimal negative whole fraction exponent).Stays soft rules := by
  unfold decimal
  dsimp only
  split
  · exact stays_pure _
  · exact (ends_abort _ _).stays

include hleaves in
theorem ends_exponent : exponent.Ends soft rules :=
  .behind hleaves fun _ => .behind hleaves fun _ => ends_digits.bind fun _ => stays_pure _

include hleaves in
theorem ends_doubleLiteral : doubleLiteral.Ends soft rules := by
  have hwords : ∀ entry ∈ specialDoubles, SolidText entry.1 := by decide
  refine .look fun s => ?_
  cases hfind : specialDoubles.find? fun entry => entry.1.toList.isPrefixOf s with
  | some entry =>
    exact (ends_keyword (hwords entry (List.mem_of_find?_eq_some hfind))).bind
      fun _ => stays_pure entry.2
  | none =>
    refine .behind hleaves fun negative => ends_digits.bind fun whole => ?_
    refine (stays_accept ⟨by decide, by decide⟩).bind fun point => .ite ?_ ?_
    · exact ends_digits.stays.bind fun fraction =>
        (Stays.optional? (ends_exponent hleaves)).bind fun _ => stays_decimal _ _ _ _
    · exact (ends_exponent hleaves).stays.bind fun _ => stays_decimal _ _ _ _

/-! ## Labels -/

theorem labelContinue_of_labelStart {c : Char} (h : labelStart c = true) :
    labelContinue c = true := by
  rw [labelStart_iff] at h
  rw [labelContinue_iff]
  omega

theorem ends_bareLabel : bareLabel.Ends soft rules := by
  intro s a t ha
  rw [soften_eq_self (by
    simp only [bareLabel, peek, doesOnly_bind, doesOnly_look, true_and]
    intro c?
    cases c? <;> simp), readBy_bareLabel] at ha
  split at ha
  · rename_i hs
    obtain ⟨c, r, rfl, hc⟩ := head?_of_any hs
    cases ha
    have hrun : (c :: r).takeWhile labelContinue ≠ [] := by
      rw [List.takeWhile_cons_of_pos (labelContinue_of_labelStart hc)]
      exact List.cons_ne_nil _ _
    have hsolid := Solid.drop hrun (fun d hd => labelContinue_not_blank d (mem_takeWhile hd))
      ((c :: r).dropWhile labelContinue)
    rwa [List.takeWhile_append_dropWhile] at hsolid
  · cases ha

include hleaves in
theorem ends_labelExcept (excluded : String → Bool) (expected : String) :
    (labelExcept excluded expected).Ends soft rules := by
  refine .behind hleaves fun c? => .ite ?_ ?_
  · refine .behind hleaves fun _ => .behind hleaves fun text => ?_
    exact (ends_expect ⟨by decide, by decide⟩).bind fun _ => stays_pure _
  · exact .behind hleaves fun word => .behind hleaves fun starts =>
      .ite (ends_fail _) ends_bareLabel

include hleaves in
theorem ends_variableIndex : variableIndex.Ends soft rules :=
  .behind hleaves fun _ => .behind hleaves fun _ => .behind hleaves fun _ =>
    (ends_takeWhile1 digit_not_blank _).bind fun _ => stays_pure _

include hleaves in
theorem ends_builtin : builtin.Ends soft rules :=
  .behind hleaves fun _ => .behind hleaves fun _ =>
    .ite (ends_fail _) (ends_bareLabel.bind fun _ => stays_pure _)

/-! ## Imports -/

theorem path_not_blank : ∀ c, path c = true → blank c = false := by
  refine not_blank fun c hc => ?_
  simp only [path, Bool.and_eq_true, decide_eq_true_eq, le_iff_toNat, Char.reduceToNat] at hc
  omega

theorem takeLength_rest {length : List Char → Nat} {a : String}
    (h : (takeLength length).readBy rules s = .value a t) : t = s.drop (length s) := by
  simp only [takeLength, readBy_bind, readBy_look, readBy_advance, readBy_pure,
    Reading.bind_value, Reading.value.injEq] at h
  rw [← h.2, List.length_take]
  obtain hle | hle := Nat.le_total (length s) s.length
  · rw [Nat.min_eq_left hle]
  · rw [Nat.min_eq_right hle, List.drop_length, List.drop_eq_nil_of_le hle]

theorem solid_drop {n : Nat} (h : ∀ c ∈ s.take n, blank c = false) :
    s.drop n = s ∨ Solid s (s.drop n) := by
  have hs := List.take_append_drop n s
  by_cases hne : s.take n = []
  · refine .inl ?_
    rwa [hne, List.nil_append] at hs
  · have hsolid := Solid.drop hne h (s.drop n)
    rw [hs] at hsolid
    exact .inr hsolid

theorem stays_run {chars : CharClass} (h : ∀ c, chars c = true → blank c = false) :
    (takeLength (Host.runLength chars)).Stays soft rules := by
  intro s a t ha
  obtain rfl := takeLength_rest ha
  refine solid_drop fun c hc => ?_
  obtain hc | rfl | hc := Host.mem_take_runLength hc
  · exact h c hc
  · decide
  · exact hexDigit_not_blank c hc

theorem hostChar_not_blank : ∀ c, Host.hostChar c = true → blank c = false := by
  refine not_blank fun c hc => ?_
  simp only [Host.hostChar, alphanumeric, Bool.or_eq_true, alpha_iff, digit_iff, beq_iff_eq,
    ← Char.toNat_inj, Char.reduceToNat] at hc
  omega

theorem stays_host : host.Stays soft rules := by
  intro s a t ha
  have hread : host.readBy rules s = .value a t := by
    rw [← ha, soften_eq_self]
    simp only [host, doesOnly_bind, doesOnly_look, true_and]
    intro length?
    cases length? <;> simp [takeLength]
  rw [host, readBy_bind, readBy_look, Reading.bind_value] at hread
  cases hlength : Host.length? s with
  | none => simp only [hlength, readBy_fail] at hread; cases hread
  | some n =>
    simp only [hlength] at hread
    obtain rfl := takeLength_rest hread
    cases hb : Host.bracketedLength? s with
    | none =>
      exact solid_drop fun c hc => hostChar_not_blank c (Host.hostChar_of_take hb hlength c hc)
    | some m =>
      obtain ⟨address, r, rfl, rfl⟩ := Host.eq_of_bracketedLength? hb
      rw [Host.length?, hb, Option.some_or, Option.some.injEq] at hlength
      subst hlength
      have hdrop : ('[' :: (address ++ ']' :: r)).drop (address.length + 2) = r := by simp
      rw [hdrop]
      exact .inr ⟨'[' :: address, ']', rfl, by decide⟩

include hleaves in
theorem ends_pathComponent : pathComponent.Ends soft rules := by
  refine .behind hleaves fun _ => .behind hleaves fun quoted => .ite ?_ ?_
  · exact .behind hleaves fun text => (ends_expect ⟨by decide, by decide⟩).bind fun _ =>
      stays_pure _
  · exact (ends_takeWhile1 path_not_blank _).bind fun _ => stays_pure _

theorem userinfoChar_not_blank : ∀ c, Host.userinfoChar c = true → blank c = false := by
  refine not_blank fun c hc => ?_
  simp [Host.userinfoChar, Host.unreserved, Host.subDelimiter, alphanumeric, alpha_iff, digit_iff,
    ← Char.toNat_inj] at hc
  omega

theorem segmentChar_not_blank : ∀ c, Host.segmentChar c = true → blank c = false := by
  intro c hc
  obtain hc | hc := Bool.or_eq_true_iff.mp hc
  · exact userinfoChar_not_blank c hc
  · rw [beq_iff_eq.mp hc]
    decide

theorem queryChar_not_blank : ∀ c, Host.queryChar c = true → blank c = false := by
  intro c hc
  simp only [Host.queryChar, Bool.or_eq_true, beq_iff_eq] at hc
  obtain (hc | rfl) | rfl := hc
  · exact segmentChar_not_blank c hc
  · decide
  · decide

include hleaves in
theorem stays_urlPath : urlPath.Stays soft rules := by
  refine Stays.many fun s a t ha => ?_
  obtain ⟨slash, u, hlook, hnext⟩ := Reading.bind_eq_value.mp ha
  cases hlook
  cases s with
  | nil => cases hnext
  | cons c s =>
    by_cases hc : c = '/'
    · subst hc
      obtain hcomponent | ⟨-, hsegment⟩ := Reading.orElse_eq_value.mp hnext
      · exact ends_pathComponent hleaves _ a t hcomponent
      · exact Solid.going_on ⟨[], '/', rfl, by decide⟩ (stays_run segmentChar_not_blank s a t hsegment)
    · have hslash : ((c :: s).head? == some '/') = false := by simpa using hc
      dsimp only at hnext
      rw [hslash] at hnext
      cases hnext

theorem stays_marked {mark : String} (hm : SolidText mark) {length : List Char → Nat}
    (h : (takeLength length).Stays soft rules) : (marked mark length).Stays soft rules :=
  (stays_accept hm).bind fun _ => .ite (h.bind fun _ => stays_pure _) (stays_pure _)

/-- The last step of a repetition takes something. -/
def LastEnds (soft : Fault → Bool) (rules : RuleReader) (g : Grammar (σ ⊕ α)) : Prop :=
  ∀ s a t, (g.soften soft).readBy rules s = .value (.inr a) t → Solid s t

theorem lastEnds_inl (state : σ) : (Pure.pure (.inl state) : Grammar (σ ⊕ α)).LastEnds soft rules :=
  fun _ _ _ h => nomatch h

theorem lastEnds_fail (expectation : String) :
    (fail expectation : Grammar (σ ⊕ α)).LastEnds soft rules := fun _ _ _ h => nomatch h

theorem LastEnds.ite {p : Prop} [Decidable p] {g g' : Grammar (σ ⊕ α)}
    (h : g.LastEnds soft rules) (h' : g'.LastEnds soft rules) :
    (if p then g else g').LastEnds soft rules := by
  split
  · exact h
  · exact h'

include hleaves in
theorem LastEnds.behind {first : Grammar β} {next : β → Grammar (σ ⊕ α)}
    (hn : ∀ b, (next b).LastEnds soft rules) : (first >>= next).LastEnds soft rules := by
  intro s a t ha
  obtain ⟨b, u, hb, hnext⟩ := Reading.bind_eq_value.mp ha
  exact (hn b u a t hnext).of_suffix (readBy_leaves hleaves _ s b u hb)

/-- A literal that ends the repetition. -/
theorem LastEnds.accept {literal : String} {next : Bool → Grammar (σ ⊕ α)} {a : α}
    (hl : SolidText literal) (ht : next true = Pure.pure (.inr a))
    (hf : (next false).LastEnds soft rules) : (accept literal >>= next).LastEnds soft rules := by
  intro s b t hb
  obtain ⟨x, u, hx, hnext⟩ := Reading.bind_eq_value.mp hb
  have hread : (Grammar.accept literal).readBy rules s = .value x u := hx
  rw [readBy_accept] at hread
  split at hread
  · rename_i hs
    cases hread
    dsimp only at hnext
    rw [ht] at hnext
    cases hnext
    exact hl.drop hs
  · cases hread
    exact hf _ b t hnext

include hleaves in
theorem LastEnds.iterate {state : σ} {step : σ → Grammar (σ ⊕ α)}
    (h : ∀ state, (step state).LastEnds soft rules) :
    (Grammar.iterate state step).Ends soft rules :=
  .iterate hleaves h

include hleaves in
theorem lastEnds_quotedNameStep (name : List Char) :
    (quotedNameStep name).LastEnds soft rules := by
  intro s a t ha
  obtain ⟨closing, u, hlook, hnext⟩ := Reading.bind_eq_value.mp ha
  cases hlook
  dsimp only at hnext
  split at hnext
  · rename_i hclosing
    simp only [Bool.and_eq_true, beq_iff_eq] at hclosing
    obtain ⟨r, rfl⟩ := List.head?_eq_some_iff.mp hclosing.1
    cases hnext
    exact ⟨[], '"', rfl, by decide⟩
  · have hlast : ∀ next : Bool → Grammar (List Char ⊕ String),
        (∀ escaped, (next escaped).LastEnds soft rules) →
        (accept "\\" >>= next).LastEnds soft rules := fun _ hn => LastEnds.behind hleaves hn
    refine hlast _ (fun escaped => ?_) s a t hnext
    refine .ite (.behind hleaves fun c? => ?_) (.behind hleaves fun c? => ?_)
    · split
      · exact .behind hleaves fun _ => lastEnds_inl _
      · exact lastEnds_fail _
    · split
      · exact lastEnds_inl _
      · exact lastEnds_fail _

include hleaves in
theorem lastEnds_doubleQuoteStep (draft : TextDraft) :
    (doubleQuoteStep draft).LastEnds soft rules := by
  refine .accept ⟨by decide, by decide⟩ rfl ?_
  refine .behind hleaves fun interpolated => .ite ?_ ?_
  · exact .behind hleaves fun _ => lastEnds_inl _
  · refine .behind hleaves fun escaped => .ite ?_ ?_
    · exact .behind hleaves fun _ => lastEnds_inl _
    · refine .behind hleaves fun c? => ?_
      split
      · exact lastEnds_inl _
      · exact lastEnds_fail _

include hleaves in
theorem lastEnds_singleQuoteStep (draft : TextDraft) :
    (singleQuoteStep draft).LastEnds soft rules := by
  refine .behind hleaves fun interpolated => .ite ?_ ?_
  · exact .behind hleaves fun _ => lastEnds_inl _
  refine .behind hleaves fun quotes => .ite (lastEnds_inl _) ?_
  refine .behind hleaves fun mark => .ite (lastEnds_inl _) ?_
  refine .accept ⟨by decide, by decide⟩ rfl ?_
  refine .behind hleaves fun lineEnding => .ite (lastEnds_inl _) ?_
  refine .behind hleaves fun c? => ?_
  split
  · exact lastEnds_inl _
  · exact lastEnds_fail _

/-! ## Rules -/

section Rules

variable (hrules : ∀ rule ≠ .letBinding, (call rule).Ends soft rules)

include hleaves hrules in
theorem ends_identifier : identifier.Ends soft rules :=
  .optional? (hrules .nonreservedLabel (by decide))
    (fun _ => (Stays.optional? (ends_variableIndex hleaves)).bind fun _ => stays_pure _)
    (ends_builtin hleaves)

include hleaves hrules in
theorem ends_usingClause : usingClause.Ends soft rules := by
  refine .behind hleaves fun _ => .behind hleaves fun _ => .behind hleaves fun _ =>
    .behind hleaves fun parenthesis => .ite ?_ (hrules .importHashed (by decide))
  refine .behind hleaves fun _ => .behind hleaves fun headers => .behind hleaves fun _ => ?_
  exact (ends_expect ⟨by decide, by decide⟩).bind fun _ => stays_pure _

include hleaves hrules in
theorem ends_httpImport : httpImport.Ends soft rules := by
  have hport : (marked ":" fun s => (s.takeWhile digit).length).Stays soft rules := by
    refine stays_marked ⟨by decide, by decide⟩ fun s a t ha => ?_
    obtain rfl := takeLength_rest ha
    refine solid_drop fun c hc => digit_not_blank c ?_
    rw [← List.prefix_iff_eq_take.mp (List.takeWhile_prefix _)] at hc
    exact mem_takeWhile hc
  have hquery : (marked "?" (Host.runLength Host.queryChar)).Stays soft rules :=
    stays_marked ⟨by decide, by decide⟩ (stays_run queryChar_not_blank)
  have huserinfo : userinfo.Stays soft rules :=
    Stays.optional? (.behind hleaves fun text =>
      .accept ⟨by decide, by decide⟩ (stays_pure text) fun _ _ _ h => nomatch h)
  refine .behind hleaves fun scheme => (ends_expect ⟨by decide, by decide⟩).bind fun _ => ?_
  refine huserinfo.bind fun _ => stays_host.bind fun _ => hport.bind fun _ =>
    (stays_urlPath hleaves).bind fun _ => hquery.bind fun _ => ?_
  refine (Stays.optional? (ends_usingClause hleaves hrules)).bind fun headers => ?_
  cases headers <;> exact stays_pure _

include hleaves in
theorem ends_envImport : envImport.Ends soft rules := by
  refine (ends_expect ⟨by decide, by decide⟩).bind fun _ =>
    (stays_accept ⟨by decide, by decide⟩).bind fun quoted => .ite ?_ ?_
  · exact (LastEnds.iterate hleaves (lastEnds_quotedNameStep hleaves)).stays.bind
      fun _ => stays_pure _
  · refine Stays.bind (Stays.bind (stays_look _) fun c? => ?_) fun _ => stays_pure _
    cases c? with
    | none => exact (ends_fail _).stays
    | some c =>
      refine .ite ((stays_takeWhile ?_).bind fun _ => stays_pure _) (ends_fail _).stays
      refine not_blank fun c hc => ?_
      simp only [alphanumeric, Bool.or_eq_true, alpha_iff, digit_iff, beq_iff_eq, ← Char.toNat_inj,
        Char.reduceToNat] at hc
      omega

include hrules in
theorem ends_importType : importType.Ends soft rules := by
  refine .choice ?_
  simp only [List.forall_mem_cons]
  exact ⟨(ends_keyword ⟨by decide, by decide⟩).bind fun _ => stays_pure _,
    hrules .localImport (by decide), hrules .httpImport (by decide),
    hrules .envImport (by decide), fun _ h => nomatch h⟩

include hleaves hrules in
theorem ends_importHashed : importHashed.Ends soft rules := by
  refine (hrules .importType (by decide)).bind fun kind => ?_
  refine (Stays.optional? (.behind hleaves fun _ => ?_)).bind fun _ => stays_pure _
  refine .behind hleaves fun annotation => .ite (ends_fail _) ?_
  refine (ends_expect ⟨by decide, by decide⟩).bind fun _ =>
    (stays_takeWhile hexDigit_not_blank).bind fun run => .ite (stays_pure _) ?_
  exact (ends_abort _ _).stays

include hleaves hrules in
theorem ends_importClause : importClause.Ends soft rules := by
  refine (hrules .importHashed (by decide)).bind fun hashed => ?_
  refine (Stays.optional? (.behind hleaves fun _ => .behind hleaves fun _ =>
    .behind hleaves fun _ => .choice ?_)).bind fun _ => stays_pure _
  simp only [List.forall_mem_cons]
  exact ⟨(ends_keyword ⟨by decide, by decide⟩).bind fun _ => stays_pure _,
    (ends_keyword ⟨by decide, by decide⟩).bind fun _ => stays_pure _, ends_fail _,
    fun _ h => nomatch h⟩

include hleaves hrules in
theorem ends_operatorExpression : operatorExpression.Ends soft rules := by
  refine (hrules .applicationExpression (by decide)).bind fun first => ?_
  refine (Stays.foldMany (.behind hleaves fun op => ?_) _ _).bind fun _ => stays_pure _
  exact (hrules .applicationExpression (by decide)).bind fun _ => stays_pure _

include hleaves in
theorem ends_projectionLabels : projectionLabels.Ends soft rules := by
  refine .behind hleaves fun _ => .behind hleaves fun comma => ?_
  refine .ite (.behind hleaves fun _ => ?_) ?_
  all_goals
    exact .behind hleaves fun labels =>
      (ends_expect ⟨by decide, by decide⟩).bind fun _ => stays_pure _

include hleaves hrules in
theorem ends_selector : selector.Ends soft rules := by
  refine .behind hleaves fun _ => .behind hleaves fun _ => .behind hleaves fun _ =>
    .behind hleaves fun brace => .ite ?_ (.behind hleaves fun parenthesis => .ite ?_ ?_)
  · exact (ends_projectionLabels hleaves).bind fun _ => stays_pure _
  · refine .behind hleaves fun type => ?_
    exact (ends_expect ⟨by decide, by decide⟩).bind fun _ => stays_pure _
  · exact (hrules .label (by decide)).bind fun _ => stays_pure _

include hleaves hrules in
theorem ends_primitiveExpression : primitiveExpression.Ends soft rules := by
  have hparenthesized : parenthesized.Ends soft rules :=
    .behind hleaves fun _ => .behind hleaves fun value =>
      (ends_expect ⟨by decide, by decide⟩).bind fun _ => stays_pure _
  refine .choice ?_
  simp only [List.forall_mem_cons]
  exact ⟨(hrules .doubleLiteral (by decide)).bind fun _ => stays_pure _,
    (hrules .naturalLiteral (by decide)).bind fun _ => stays_pure _,
    (hrules .integerLiteral (by decide)).bind fun _ => stays_pure _,
    hrules .textLiteral (by decide), hrules .recordExpression (by decide),
    hrules .unionType (by decide), hrules .listLiteral (by decide),
    hrules .identifier (by decide), hparenthesized, fun _ h => nomatch h⟩

include hleaves in
theorem ends_recordExpression : recordExpression.Ends soft rules := by
  have hbrace : ∀ {α : Type} {a : α}, Ends soft rules (do expect "\x7d"; return a) := fun {α a} =>
    (ends_expect ⟨by decide, by decide⟩).bind fun _ => stays_pure a
  have hentries : recordEntries.Ends soft rules :=
    .behind hleaves fun _ => .behind hleaves fun _ =>
      (ends_expect ⟨by decide, by decide⟩).bind fun _ => stays_pure _
  have hrest : Ends soft rules (do
      if ← accept "=" then
        whitespace
        if ← accept "," then whitespace
        expect "\x7d"
        return (Tree.record [] : Expr)
      else if ← accept "\x7d" then
        return .record []
      else
        recordEntries) := by
    refine .behind hleaves fun equals => .ite ?_ ?_
    · refine .behind hleaves fun _ => .behind hleaves fun comma => ?_
      exact .ite (.behind hleaves fun _ => hbrace) hbrace
    · exact .accept ⟨by decide, by decide⟩ (stays_pure _) hentries
  refine .behind hleaves fun _ => .behind hleaves fun _ => .behind hleaves fun comma => ?_
  exact .ite (.behind hleaves fun _ => hrest) hrest

include hleaves in
theorem ends_closed {closing : String} (h : SolidText closing) {first : Grammar β} {f : β → α} :
    Ends soft rules (do let b ← first; expect closing; return f b) :=
  .behind hleaves fun _ => (ends_expect h).bind fun _ => stays_pure _

include hleaves hrules in
/-- What a rule takes ends with a character that is no whitespace, if that holds of the rules in
it. -/
theorem ends_body {rule : Rule} (h : rule ≠ .letBinding) : rule.body.Ends soft rules := by
  have hexpression := hrules .expression (by decide)
  have himport := hrules .importExpression (by decide)
  cases rule with
  | letBinding => exact absurd rfl h
  | doubleLiteral => exact ends_doubleLiteral hleaves
  | naturalLiteral => exact ends_digits.bind fun _ => stays_pure _
  | integerLiteral => exact .behind hleaves fun _ => ends_digits.bind fun _ => stays_pure _
  | label | nonreservedLabel => exact ends_labelExcept hleaves _ _
  | identifier => exact ends_identifier hleaves hrules
  | textLiteral =>
    exact .choice (List.forall_mem_cons.mpr ⟨hrules .doubleQuoteLiteral (by decide),
      List.forall_mem_singleton.mpr (hrules .singleQuoteLiteral (by decide))⟩)
  | doubleQuoteLiteral =>
    exact .behind hleaves fun _ => .iterate hleaves (lastEnds_doubleQuoteStep hleaves)
  | singleQuoteLiteral =>
    exact .behind hleaves fun _ => .behind hleaves fun _ =>
      .iterate hleaves (lastEnds_singleQuoteStep hleaves)
  | importClause => exact ends_importClause hleaves hrules
  | importHashed => exact ends_importHashed hleaves hrules
  | importType => exact ends_importType hrules
  | localImport =>
    exact .behind hleaves fun _ => (ends_pathComponent hleaves).bind fun _ =>
      (Stays.many (ends_pathComponent hleaves)).bind fun _ => stays_pure _
  | httpImport => exact ends_httpImport hleaves hrules
  | envImport => exact ends_envImport hleaves
  | expression =>
    apply Ends.choice
    simp only [List.forall_mem_cons]
    exact ⟨hrules .lambdaExpression (by decide), hrules .ifExpression (by decide),
      hrules .letExpression (by decide), hrules .forallExpression (by decide),
      hrules .arrowExpression (by decide), hrules .mergeExpression (by decide),
      hrules .emptyListExpression (by decide), hrules .toMapExpression (by decide),
      hrules .annotatedExpression (by decide), List.forall_mem_nil _⟩
  | lambdaExpression =>
    exact .behind hleaves fun _ => .behind hleaves fun _ => .behind hleaves fun _ =>
      hexpression.bind fun _ => stays_pure _
  | ifExpression =>
    exact .behind hleaves fun _ => .behind hleaves fun _ => .behind hleaves fun _ =>
      .behind hleaves fun _ => .behind hleaves fun _ => .behind hleaves fun _ =>
      .behind hleaves fun _ => .behind hleaves fun _ => .behind hleaves fun _ =>
      .behind hleaves fun _ => hexpression.bind fun _ => stays_pure _
  | letExpression =>
    exact .behind hleaves fun _ => .behind hleaves fun _ => .behind hleaves fun _ =>
      .behind hleaves fun _ => hexpression.bind fun _ => stays_pure _
  | forallExpression =>
    refine .behind hleaves fun mark => .ite ?_ (.behind hleaves fun _ => ?_)
    all_goals
      exact .behind hleaves fun _ => .behind hleaves fun _ => hexpression.bind fun _ => stays_pure _
  | arrowExpression =>
    exact .behind hleaves fun _ => .behind hleaves fun _ => hexpression.bind fun _ => stays_pure _
  | mergeExpression =>
    exact .behind hleaves fun _ => .behind hleaves fun _ => .behind hleaves fun _ =>
      .behind hleaves fun _ => .behind hleaves fun _ => .behind hleaves fun _ =>
      (hrules .applicationExpression (by decide)).bind fun _ => stays_pure _
  | emptyListExpression =>
    exact .behind hleaves fun _ => .behind hleaves fun _ => .behind hleaves fun _ =>
      .behind hleaves fun _ => .behind hleaves fun _ => .behind hleaves fun _ =>
      himport.bind fun _ => stays_pure _
  | toMapExpression =>
    exact .behind hleaves fun _ => .behind hleaves fun _ => .behind hleaves fun _ =>
      .behind hleaves fun _ => (hrules .applicationExpression (by decide)).bind fun _ =>
      stays_pure _
  | annotatedExpression =>
    refine (hrules .operatorExpression (by decide)).bind fun subject =>
      (Stays.optional? (.behind hleaves fun _ => hexpression)).bind fun type => ?_
    cases type <;> exact stays_pure _
  | operatorExpression => exact ends_operatorExpression hleaves hrules
  | applicationExpression =>
    exact (hrules .firstApplicationExpression (by decide)).bind fun _ =>
      Stays.foldMany (.behind hleaves fun _ => himport) _ _
  | firstApplicationExpression =>
    refine .choice ?_
    simp only [List.forall_mem_cons]
    exact ⟨.behind hleaves fun _ => .behind hleaves fun _ => .behind hleaves fun _ =>
        .behind hleaves fun _ => himport.bind fun _ => stays_pure _,
      .behind hleaves fun _ => .behind hleaves fun _ => himport.bind fun _ => stays_pure _,
      .behind hleaves fun _ => .behind hleaves fun _ => himport.bind fun _ => stays_pure _,
      himport, List.forall_mem_nil _⟩
  | importExpression =>
    exact .choice (List.forall_mem_cons.mpr
      ⟨(hrules .importClause (by decide)).bind fun _ => stays_pure _,
        List.forall_mem_singleton.mpr (hrules .selectorExpression (by decide))⟩)
  | selectorExpression =>
    exact (hrules .primitiveExpression (by decide)).bind fun _ =>
      Stays.foldMany (ends_selector hleaves hrules) _ _
  | primitiveExpression => exact ends_primitiveExpression hleaves hrules
  | recordExpression => exact ends_recordExpression hleaves
  | unionType =>
    refine .behind hleaves fun _ => .behind hleaves fun _ => .behind hleaves fun mark => ?_
    exact .ite (.behind hleaves fun _ => ends_closed hleaves ⟨by decide, by decide⟩)
      (ends_closed hleaves ⟨by decide, by decide⟩)
  | listLiteral =>
    refine .behind hleaves fun _ => .behind hleaves fun _ => .behind hleaves fun comma => ?_
    exact .ite
      (.behind hleaves fun _ => .behind hleaves fun _ =>
        ends_closed hleaves ⟨by decide, by decide⟩)
      (.behind hleaves fun _ => ends_closed hleaves ⟨by decide, by decide⟩)

end Rules

end Grammar

/-- What a rule takes ends with a character that is no whitespace. -/
theorem Rule.softUpTo_solid {soft : Fault → Bool} (n : Nat) {rule : Rule} (h : rule ≠ .letBinding)
    {a : rule.Result} (ha : softUpTo soft n rule s = .value a t) : Solid s t := by
  induction n generalizing rule s t with
  | zero => cases ha
  | succ n ih =>
    have hrules : ∀ rule ≠ .letBinding, (Grammar.call rule).Ends soft (softUpTo soft n) :=
      fun rule h s a t ha => ih h ha
    exact Grammar.ends_body (softUpTo_leaves n) hrules h s a t ha

theorem Rule.read_solid {rule : Rule} (h : rule ≠ .letBinding) {a : rule.Result}
    (ha : rule.read s = .value a t) : Solid s t := by
  obtain ⟨n, hn⟩ := readUpTo_settles_read rule s
  have hread : softUpTo (fun _ => false) n rule s = .value a t := by
    rw [softUpTo_none, ← ha]
    exact hn n (Nat.le_refl n)
  exact softUpTo_solid n h hread

/-- Every rule takes something. -/
theorem Rule.softUpTo_shrinks {soft : Fault → Bool} (n : Nat) {rule : Rule} {a : rule.Result}
    (ha : softUpTo soft n rule s = .value a t) : t.length < s.length := by
  by_cases h : rule = .letBinding
  · subst h
    cases n with
    | zero => cases ha
    | succ n =>
      obtain ⟨_, u, hlet, hnext⟩ := Reading.bind_eq_value.mp ha
      have hkeyword : (Grammar.keyword "let").Ends soft (softUpTo soft n) :=
        Grammar.ends_keyword ⟨by decide, by decide⟩
      have hshort := (hkeyword s () u hlet).length_lt
      have hrest := (Grammar.readBy_leaves (softUpTo_leaves n) _ u a t hnext).length_le
      omega
  · exact (softUpTo_solid n h ha).length_lt

end DhallSyntax
