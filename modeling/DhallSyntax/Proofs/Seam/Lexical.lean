import DhallSyntax.Proofs.Reading.Whitespace
import DhallSyntax.Proofs.Seam.Landing

/-!
Literals, words, runs of characters and whitespace in front of a seam. None of them sees a
difference between the two ends, apart from whitespace that goes up to the seam: what is put there
is no part of a word, and where something is cut off a longer word would have been read. Main
statements:

* `Seam.prefix_was`, `Seam.head_was`: what a text has with the second end it has with the first one;
* `Seam.carries_whitespace`: whitespace in front of some token is the same with either end.
-/

namespace DhallSyntax

open CharClass

variable {α β : Type}

/-- Neither a space nor a line ending is of the class. -/
def CharClass.Unbroken (chars : CharClass) : Prop := chars ' ' = false ∧ chars '\n' = false

/-- A text without spaces and line endings. -/
def Unbroken (text : List Char) : Prop := text.all (fun c => c != ' ' && c != '\n') = true

instance (text : List Char) : Decidable (Unbroken text) := inferInstanceAs (Decidable (_ = _))

theorem Unbroken.of_class {chars : CharClass} {text : List Char} (hc : chars.Unbroken)
    (h : ∀ c ∈ text, chars c = true) : Unbroken text := by
  refine List.all_eq_true.mpr fun c hm => ?_
  have hne : ∀ d, chars d = false → c ≠ d := by
    rintro d hd rfl
    rw [h c hm] at hd
    cases hd
  simp [hne _ hc.1, hne _ hc.2]

namespace Seam

variable {T : Seam} {n : Nat} {x y z : List Char}

/-! ## The beginning of a text -/

/-- What is put at the seam, if anything, begins with a space or a line ending. -/
theorem put_cases (T : Seam) : T.put = [] ∨ ∃ c r, T.put = c :: r ∧ (c = ' ' ∨ c = '\n') :=
  T.apart.imp_right And.right

theorem now_head (h : x ≠ []) : (T.now x).head? = x.head? := Whitespace.head?_append h _

theorem was_head (h : x ≠ []) : (T.was x).head? = x.head? := Whitespace.head?_append h _

/-- What the text with the second end begins with, it begins with with the first end as well. -/
theorem prefix_was {text : List Char} (ht : Unbroken text) (h : text <+: T.now x) :
    text <+: T.was x := by
  have hcommon : x ++ T.common <+: T.now x := ⟨T.put, List.append_assoc x _ _⟩
  have hwas : x ++ T.common <+: T.was x := ⟨T.cut, List.append_assoc x _ _⟩
  obtain h' | ⟨rest, rfl⟩ := List.prefix_or_prefix_of_prefix h hcommon
  · exact h'.trans hwas
  · cases rest with
    | nil => rwa [List.append_nil]
    | cons c rest =>
      obtain ⟨later, hl⟩ := h
      rw [now, ← List.append_assoc x, List.append_assoc (x ++ T.common)] at hl
      have hput := List.append_cancel_left hl
      obtain hn | ⟨d, r, hd, hblank⟩ := T.put_cases
      · rw [hn] at hput
        cases hput
      · rw [hd] at hput
        obtain ⟨rfl, -⟩ := List.cons.inj hput
        have hc := List.all_eq_true.mp ht c (List.mem_append_right _ List.mem_cons_self)
        obtain rfl | rfl := hblank <;> cases hc

theorem isPrefixOf_was {text : List Char} (ht : Unbroken text)
    (h : text.isPrefixOf (T.was x) = false) : text.isPrefixOf (T.now x) = false := by
  rw [← Bool.not_eq_true] at h ⊢
  rw [List.isPrefixOf_iff_prefix] at h ⊢
  exact fun hn => h (prefix_was ht hn)

theorem head_was {chars : CharClass} (hc : chars.Unbroken)
    (h : (T.was x).head?.any chars = false) : (T.now x).head?.any chars = false := by
  cases hn : T.now x with
  | nil => rfl
  | cons c t =>
    cases hcc : chars c with
    | false => exact hcc
    | true =>
      have hp : [c] <+: T.was x :=
        prefix_was (.of_class hc (List.forall_mem_singleton.mpr hcc)) ⟨t, hn.symm⟩
      obtain ⟨t', ht'⟩ := hp
      rw [← ht'] at h
      exact absurd (hcc.symm.trans h) (by decide)

/-! ## Literals -/

/-- What is cut off the front of the text is cut off with either end. -/
theorem eq_append_of_was {w : List Char} (h : T.was x = w ++ T.was y) : x = w ++ y :=
  was_injective (h.trans (was_append w y).symm)

theorem lands_accept {literal : String} {b : Bool} (h : T.Lands n (.accept literal) x b y) :
    b = true ∧ x = literal.toList ++ y ∨
      b = false ∧ y = x ∧ literal.toList.isPrefixOf (T.was x) = false := by
  have hr : (Grammar.accept literal).readBy Rule.read (T.was x) = .value b (T.was y) := h
  rw [Grammar.readBy_accept] at hr
  split at hr
  · rename_i hp
    obtain ⟨t, ht⟩ := List.isPrefixOf_iff_prefix.mp hp
    obtain ⟨rfl, hy⟩ := Reading.value.inj hr
    rw [← ht, List.drop_left] at hy
    exact .inl ⟨rfl, eq_append_of_was (hy ▸ ht.symm)⟩
  · rename_i hp
    obtain ⟨rfl, hy⟩ := Reading.value.inj hr
    exact .inr ⟨rfl, (was_injective hy).symm, Bool.eq_false_iff.mpr hp⟩

theorem isPrefixOf_append (w t : List Char) : w.isPrefixOf (w ++ t) = true :=
  List.isPrefixOf_iff_prefix.mpr (List.prefix_append w t)

theorem carries_accept {E : Bool → List Char → Prop} {literal : String}
    (hl : Unbroken literal.toList) : T.Carries n E (.accept literal) := by
  intro x b y h _
  refine reads_plain (by simp) h ?_
  rw [Grammar.readBy_accept]
  obtain ⟨rfl, rfl⟩ | ⟨rfl, rfl, hp⟩ := lands_accept h
  · rw [now_append, isPrefixOf_append, if_pos rfl, List.drop_left]
  · rw [isPrefixOf_was hl hp, if_neg Bool.false_ne_true]

/-- Some literals of which one is next: the text with the first end begins with it, and with none
of those before it. -/
theorem readBy_expectAny_value {rules : RuleReader} {literals : List String} {s t : List Char}
    {literal : String} (h : (Grammar.expectAny literals).readBy rules s = .value literal t) :
    literal ∈ literals ∧ s = literal.toList ++ t := by
  induction literals with
  | nil => cases h
  | cons first literals ih =>
    rw [Grammar.readBy_expectAny_cons] at h
    split at h
    · rename_i hp
      obtain ⟨r, rfl⟩ := List.isPrefixOf_iff_prefix.mp hp
      rw [List.drop_left] at h
      cases h
      exact ⟨List.mem_cons_self, rfl⟩
    · obtain ⟨hm, hs⟩ := ih h
      exact ⟨List.mem_cons_of_mem _ hm, hs⟩

theorem lands_expectAny {literals : List String} {literal : String}
    (h : T.Lands n (Grammar.expectAny literals) x literal y) :
    literal ∈ literals ∧ x = literal.toList ++ y := by
  obtain ⟨hm, hs⟩ := readBy_expectAny_value ((lands_iff (by simp) (by simp)).mp h)
  exact ⟨hm, eq_append_of_was hs⟩

theorem carries_expectAny {E : String → List Char → Prop} {literals : List String}
    (hl : ∀ literal ∈ literals, Unbroken literal.toList) :
    T.Carries n E (Grammar.expectAny literals) := by
  intro x literal y h _
  refine reads_plain (by simp) h ?_
  obtain ⟨-, rfl⟩ := lands_expectAny h
  have hr := (lands_iff (by simp) (by simp)).mp h
  clear h
  induction literals with
  | nil => cases hr
  | cons first literals ih =>
    rw [Grammar.readBy_expectAny_cons] at hr ⊢
    obtain ⟨hfirst, hrest⟩ := List.forall_mem_cons.mp hl
    cases hp : first.toList.isPrefixOf (T.was (literal.toList ++ y)) with
    | true =>
      rw [hp, if_pos rfl] at hr
      obtain ⟨rfl, -⟩ := Reading.value.inj hr
      rw [now_append, isPrefixOf_append, if_pos rfl, List.drop_left]
    | false =>
      rw [hp, if_neg Bool.false_ne_true] at hr
      rw [isPrefixOf_was hfirst hp, if_neg Bool.false_ne_true]
      exact ih hrest hr

theorem leads_expectAny {E : String → List Char → Prop} {P : List Char → Prop}
    {literals : List String}
    (h : ∀ literal ∈ literals, ∀ y, E literal y → P (literal.toList ++ y)) :
    T.Leads n E P (Grammar.expectAny literals) := by
  intro x literal y hl he
  obtain ⟨hm, rfl⟩ := lands_expectAny hl
  exact h literal hm y he

theorem lands_expect {literal : String} {u : Unit}
    (h : T.Lands n (Grammar.expect literal) x u y) : x = literal.toList ++ y := by
  obtain ⟨l, z, hl, hz⟩ := Lands.bind h
  obtain ⟨-, rfl⟩ := Lands.pure hz
  obtain ⟨hm, rfl⟩ := lands_expectAny hl
  rw [List.mem_singleton.mp hm]

theorem carries_expect {E : Unit → List Char → Prop} {literal : String}
    (hl : Unbroken literal.toList) : T.Carries n E (Grammar.expect literal) :=
  Carries.bind (F := fun _ _ => True) (carries_expectAny (List.forall_mem_singleton.mpr hl))
    (fun _ _ _ _ _ _ => trivial) fun _ => .pure _

theorem leads_expect {E : Unit → List Char → Prop} {P : List Char → Prop} {literal : String}
    (h : ∀ y, E () y → P (literal.toList ++ y)) : T.Leads n E P (Grammar.expect literal) := by
  intro x u y hl he
  obtain rfl := lands_expect hl
  exact h y he

theorem lands_keyword {word : String} {u : Unit} (h : T.Lands n (Grammar.keyword word) x u y) :
    x = word.toList ++ y ∧ (T.was y).head?.any labelContinue = false := by
  have hr := (lands_iff (by simp) (by simp)).mp h
  rw [Grammar.readBy_keyword] at hr
  split at hr
  · rename_i hp
    obtain ⟨hp, hh⟩ := Bool.and_eq_true_iff.mp hp
    obtain ⟨t, ht⟩ := List.isPrefixOf_iff_prefix.mp hp
    obtain ⟨-, hy⟩ := Reading.value.inj hr
    rw [hy] at hh
    rw [← ht, List.drop_left] at hy
    exact ⟨eq_append_of_was (hy ▸ ht.symm), by simpa using hh⟩
  · cases hr

theorem labelContinue_unbroken : labelContinue.Unbroken := ⟨by decide, by decide⟩

theorem carries_keyword {E : Unit → List Char → Prop} (word : String) :
    T.Carries n E (Grammar.keyword word) := by
  intro x u y h _
  refine reads_plain (by simp) h ?_
  obtain ⟨rfl, hy⟩ := lands_keyword h
  rw [Grammar.readBy_keyword, now_append, List.drop_left, isPrefixOf_append,
    head_was labelContinue_unbroken hy]
  rfl

theorem leads_keyword {E : Unit → List Char → Prop} {P : List Char → Prop} {word : String}
    (h : ∀ y, (T.was y).head?.any labelContinue = false → E () y → P (word.toList ++ y)) :
    T.Leads n E P (Grammar.keyword word) := by
  intro x u y hl he
  obtain ⟨rfl, hy⟩ := lands_keyword hl
  exact h y hy he

/-! ## Runs of characters -/

theorem takeWhile_value {rules : RuleReader} {chars : CharClass} {s t run : List Char}
    (h : (Grammar.takeWhile chars).readBy rules s = .value run t) :
    s = run ++ t ∧ (∀ c ∈ run, chars c = true) ∧ t.head?.any chars = false := by
  rw [Grammar.readBy_takeWhile] at h
  cases h
  refine ⟨List.takeWhile_append_dropWhile.symm, fun c hc => Grammar.mem_takeWhile hc, ?_⟩
  have hn := List.head?_dropWhile_not chars s
  cases hd : s.dropWhile chars with
  | nil => rfl
  | cons c t =>
    rw [hd] at hn
    simpa using hn

theorem lands_takeWhile {chars : CharClass} {run : List Char}
    (h : T.Lands n (Grammar.takeWhile chars) x run y) :
    x = run ++ y ∧ (∀ c ∈ run, chars c = true) ∧ (T.was y).head?.any chars = false := by
  obtain ⟨hs, hrun, hstop⟩ := takeWhile_value ((lands_iff (by simp) (by simp)).mp h)
  exact ⟨eq_append_of_was hs, hrun, hstop⟩

/-- A run of characters ends where it did, if its class is no matter of spaces and line endings or
something is left. -/
theorem carries_takeWhile {chars : CharClass} {E : List Char → List Char → Prop}
    (hc : chars.Unbroken ∨ ∀ run y, E run y → y ≠ []) :
    T.Carries n E (Grammar.takeWhile chars) := by
  intro x run y h he
  refine reads_plain (by simp) h ?_
  obtain ⟨rfl, hrun, hstop⟩ := lands_takeWhile h
  have hnow : (T.now y).head?.any chars = false := by
    obtain hc | hne := hc
    · exact head_was hc hstop
    · rwa [now_head (hne run y he), ← was_head (T := T) (hne run y he)]
  obtain ⟨htake, hdrop⟩ := Grammar.takeWhile_append_stop hrun hnow
  rw [Grammar.readBy_takeWhile, now_append, htake, hdrop]

theorem lands_takeWhile1 {chars : CharClass} {expected : String} {run : List Char}
    (h : T.Lands n (Grammar.takeWhile1 chars expected) x run y) :
    T.Lands n (Grammar.takeWhile chars) x run y ∧ run ≠ [] := by
  obtain ⟨w, z, hw, hz⟩ := Lands.bind h
  cases w with
  | nil => cases hz
  | cons c w =>
    obtain ⟨rfl, rfl⟩ := Lands.pure hz
    exact ⟨hw, List.cons_ne_nil c w⟩

theorem carries_takeWhile1 {chars : CharClass} {E : List Char → List Char → Prop}
    (hc : chars.Unbroken ∨ ∀ run y, E run y → y ≠ []) (expected : String) :
    T.Carries n E (Grammar.takeWhile1 chars expected) :=
  Carries.bind (F := E) (carries_takeWhile hc)
    (fun _ => .ite (fun _ => .fail _) fun _ => .pure fun _ h => h)
    fun _ => .ite (fun _ => .fail _) fun _ => .pure _

theorem leads_takeWhile1 {chars : CharClass} {E : List Char → List Char → Prop}
    {P : List Char → Prop} (expected : String)
    (h : ∀ c t, chars c = true → P (c :: t)) :
    T.Leads n E P (Grammar.takeWhile1 chars expected) := by
  intro x run y hl _
  obtain ⟨hrun, hne⟩ := lands_takeWhile1 hl
  obtain ⟨rfl, hall, -⟩ := lands_takeWhile hrun
  obtain ⟨c, t, rfl⟩ := List.exists_cons_of_ne_nil hne
  exact h c (t ++ y) (hall c List.mem_cons_self)

theorem lands_takeIf {chars : CharClass} {r : Option Char}
    (h : T.Lands n (Grammar.takeIf chars) x r y) :
    (∃ c, r = some c ∧ x = c :: y ∧ chars c = true) ∨
      r = none ∧ y = x ∧ (T.was x).head?.any chars = false := by
  have hr := (lands_iff (by simp) (by simp)).mp h
  cases hw : T.was x with
  | nil =>
    rw [hw] at hr
    obtain ⟨rfl, hy⟩ := Reading.value.inj hr
    rw [← hw] at hy
    exact .inr ⟨rfl, (was_injective hy).symm, rfl⟩
  | cons c s =>
    rw [hw, Grammar.readBy_takeIf_cons] at hr
    split at hr
    · rename_i hc
      obtain ⟨rfl, rfl⟩ := Reading.value.inj hr
      exact .inl ⟨c, rfl, eq_append_of_was (w := [c]) hw, hc⟩
    · rename_i hc
      obtain ⟨rfl, hy⟩ := Reading.value.inj hr
      rw [← hw] at hy
      exact .inr ⟨rfl, (was_injective hy).symm, Bool.eq_false_iff.mpr hc⟩

theorem carries_takeIf {chars : CharClass} {E : Option Char → List Char → Prop}
    (hc : chars.Unbroken ∨ ∀ y, ¬ E none y) : T.Carries n E (Grammar.takeIf chars) := by
  intro x r y h he
  refine reads_plain (by simp) h ?_
  obtain ⟨c, rfl, rfl, hcc⟩ | ⟨rfl, rfl, hstop⟩ := lands_takeIf h
  · have hnow : T.now (c :: y) = c :: T.now y := rfl
    rw [hnow, Grammar.readBy_takeIf_cons, if_pos hcc]
  · obtain hc | hn := hc
    · have hstop := head_was hc hstop
      cases hnow : T.now y with
      | nil => rfl
      | cons c s =>
        rw [hnow] at hstop
        have hstop : chars c = false := hstop
        rw [Grammar.readBy_takeIf_cons, hstop, if_neg Bool.false_ne_true]
    · exact absurd he (hn y)

theorem carries_peek {E : Option Char → List Char → Prop} (h : ∀ c y, E c y → y ≠ []) :
    T.Carries n E Grammar.peek := by
  intro x c y hl he
  refine reads_plain (by simp [Grammar.peek]) hl ?_
  obtain ⟨rfl, hy⟩ := Reading.value.inj (show Reading.value _ _ = .value c (T.was y) from hl)
  obtain rfl := was_injective hy
  rw [Grammar.readBy_peek, now_head (h _ _ he), was_head (h _ _ he)]

theorem reads_look {view : List Char → β} {b : β} (hw : view (T.was x) = b)
    (hn : view (T.now x) = b) : T.Reads (.look view) x b x := by
  subst hw
  exact .plain trivial (.refl _) (congrArg (Reading.value · (T.now x)) hn)

/-- What a part needs in front, behind a look at the text. -/
theorem leads_look {view : List Char → β} {E : β → List Char → Prop} {P : List Char → Prop}
    (h : ∀ x, E (view (T.was x)) x → P x) : T.Leads n E P (.look view) := by
  intro x b y hl he
  obtain ⟨rfl, hy⟩ := Reading.value.inj (show Reading.value _ _ = .value b (T.was y) from hl)
  obtain rfl := was_injective hy
  exact h _ he

theorem lands_look {view : List Char → β} {b : β} (h : T.Lands n (.look view) x b y) :
    b = view (T.was x) ∧ y = x := by
  obtain ⟨hb, hy⟩ := Reading.value.inj (show Reading.value _ _ = .value b (T.was y) from h)
  exact ⟨hb.symm, (was_injective hy).symm⟩

/-- A look that sees the same with either end, as long as what follows lands. -/
theorem Carries.look {view : List Char → β} {next : β → Grammar α} {E : α → List Char → Prop}
    (hv : ∀ x a y, T.Lands n (next (view (T.was x))) x a y → E a y →
      view (T.now x) = view (T.was x))
    (hn : ∀ b, T.Carries n E (next b)) : T.Carries n E (.look view >>= next) := by
  intro x a y h he
  obtain ⟨b, z, hb, h⟩ := Lands.bind h
  obtain ⟨rfl, rfl⟩ := lands_look hb
  exact .bind (reads_look rfl (hv z a y h he)) (hn _ z a y h he)

theorem lands_advance {k : Nat} {u : Unit} (h : T.Lands n (.advance k) x u y)
    (hk : k ≤ (T.was x).length) : ∃ w, w.length = k ∧ x = w ++ y := by
  have hd := (Reading.value.inj (show Reading.value _ _ = .value u (T.was y) from h)).2
  refine ⟨(T.was x).take k, List.length_take_of_le hk, ?_⟩
  exact eq_append_of_was (by rw [← hd, List.take_append_drop])

/-- One character ahead that is known. -/
theorem lands_advance_one {c : Char} {u : Unit} (hc : (T.was x).head? = some c)
    (h : T.Lands n (.advance 1) x u y) : x = c :: y := by
  obtain ⟨t, ht⟩ := List.head?_eq_some_iff.mp hc
  obtain ⟨text, htext, rfl⟩ :=
    lands_advance h (by rw [ht]; exact Nat.succ_le_succ (Nat.zero_le _))
  obtain ⟨d, rfl⟩ := List.length_eq_one_iff.mp htext
  rw [List.singleton_append, (List.cons.inj (ht : d :: T.was y = c :: t)).1]

theorem reads_advance (w : List Char) : T.Reads (.advance w.length) (w ++ y) () y := by
  have hdrop : ∀ t, (Grammar.advance w.length).read (w ++ t) = .value () t := by
    intro t
    rw [Grammar.read, Grammar.readBy_advance, List.drop_left]
  refine .plain trivial ?_ (by rw [now_append]; exact hdrop _)
  rw [was_append, hdrop]
  exact .refl _

theorem Shrinks.accept {literal : String} {next : Bool → Grammar α} {K : α → Prop}
    (hl : literal.toList ≠ []) (h : T.Shrinks n K (next false)) :
    T.Shrinks n K (.accept literal >>= next) := by
  intro x a y ha hk
  obtain ⟨b, z, hb, hnext⟩ := ha.bind
  obtain ⟨rfl, rfl⟩ | ⟨rfl, rfl, -⟩ := lands_accept hb
  · have hle := hnext.length_le
    have hpos := List.length_pos_iff.mpr hl
    rw [List.length_append]
    omega
  · exact h _ a y hnext hk

theorem shrinks_expect {literal : String} (hl : literal.toList ≠ []) {K : Unit → Prop} :
    T.Shrinks n K (Grammar.expect literal) := by
  intro x u y h _
  have hpos := List.length_pos_iff.mpr hl
  rw [lands_expect h, List.length_append]
  omega

theorem Shrinks.takeIf {chars : CharClass} {next : Option Char → Grammar α} {K : α → Prop}
    (h : T.Shrinks n K (next none)) : T.Shrinks n K (Grammar.takeIf chars >>= next) := by
  intro x a y ha hk
  obtain ⟨r, z, hr, hnext⟩ := ha.bind
  obtain ⟨c, rfl, rfl, -⟩ | ⟨rfl, rfl, -⟩ := lands_takeIf hr
  · exact Nat.lt_succ_of_le hnext.length_le
  · exact h _ a y hnext hk

/-- The first of some texts that is next is the same with either end, if it is in front of the
seam. -/
theorem find?_now {entries : List β} {text : β → List Char} (hl : ∀ e ∈ entries, Unbroken (text e))
    (h : ∀ e, entries.find? (fun e => (text e).isPrefixOf (T.was x)) = some e → text e <+: x) :
    entries.find? (fun e => (text e).isPrefixOf (T.now x)) =
      entries.find? fun e => (text e).isPrefixOf (T.was x) := by
  induction entries with
  | nil => rfl
  | cons e entries ih =>
    obtain ⟨he, hrest⟩ := List.forall_mem_cons.mp hl
    rw [List.find?_cons, List.find?_cons]
    cases hp : (text e).isPrefixOf (T.was x) with
    | true =>
      obtain ⟨t, rfl⟩ := h e (by rw [List.find?_cons, hp])
      rw [now_append, isPrefixOf_append]
    | false =>
      rw [isPrefixOf_was he hp]
      exact ih hrest fun e' he' => h e' (by rw [List.find?_cons, hp]; exact he')

/-! ## Whitespace -/

/-- Something that is read, and no line ending. -/
def Token (x : List Char) : Prop := ∃ c t, x = c :: t ∧ c ≠ '\r'

theorem Token.ne_nil (h : Token x) : x ≠ [] := by
  obtain ⟨c, t, rfl, -⟩ := h
  exact List.cons_ne_nil c t

theorem token_append {text : List Char} (h : text.head?.any (· != '\r') = true) (x : List Char) :
    Token (text ++ x) := by
  cases text with
  | nil => cases h
  | cons c t => exact ⟨c, t ++ x, rfl, bne_iff_ne.mp h⟩

theorem leads_token_expect {literal : String} (h : literal.toList.head?.any (· != '\r') = true)
    {E : Unit → List Char → Prop} : T.Leads n E Token (Grammar.expect literal) :=
  leads_expect fun y _ => token_append h y

theorem leads_token_expectAny {literals : List String}
    (h : ∀ literal ∈ literals, literal.toList.head?.any (· != '\r') = true)
    {E : String → List Char → Prop} : T.Leads n E Token (Grammar.expectAny literals) :=
  leads_expectAny fun literal hm y _ => token_append (h literal hm) y

theorem leads_token_keyword {word : String} (h : word.toList.head?.any (· != '\r') = true)
    {E : Unit → List Char → Prop} : T.Leads n E Token (Grammar.keyword word) :=
  leads_keyword fun y _ _ => token_append h y

theorem leads_token_takeWhile1 {chars : CharClass} (hc : chars '\r' = false) (expected : String)
    {E : List Char → List Char → Prop} :
    T.Leads n E Token (Grammar.takeWhile1 chars expected) := by
  refine leads_takeWhile1 expected fun c t h => ⟨c, t, rfl, ?_⟩
  rintro rfl
  rw [hc] at h
  cases h

theorem leads_token_call (rule : Rule) (h : rule.first '\r' = false)
    {E : rule.Result → List Char → Prop} : T.Leads n E Token (.call rule) := by
  intro x a y hl _
  obtain ⟨c, t, rfl, hc⟩ := hl.first
  refine ⟨c, t, rfl, ?_⟩
  rintro rfl
  rw [h] at hc
  cases hc

theorem leads_token_accept {literal : String} {next : Bool → Grammar α} {E : α → List Char → Prop}
    (hl : literal.toList.head?.any (· != '\r') = true) (h : T.Leads n E Token (next false)) :
    T.Leads n E Token (.accept literal >>= next) := by
  intro x a y ha he
  obtain ⟨b, z, hb, hnext⟩ := ha.bind
  obtain ⟨rfl, rfl⟩ | ⟨rfl, rfl, -⟩ := lands_accept hb
  · exact token_append hl z
  · exact h _ a y hnext he

end Seam

namespace Whitespace

theorem lineLength_stays {t p : List Char} (h : lineLength (t ++ p) < t.length) (q : List Char) :
    lineLength (t ++ q) = lineLength (t ++ p) := by
  induction t with
  | nil => simp at h
  | cons c t ih =>
    simp only [List.cons_append, lineLength, List.length_cons] at h ⊢
    by_cases hc : (c == '\n') = true
    · rw [if_pos hc, if_pos hc]
    · rw [if_neg hc] at h ⊢
      rw [if_neg hc, ih (by omega)]

/-- A block comment is the text up to the mark that closes it. -/
theorem blockLength?_rest {depth k : Nat} {s : List Char} (h : blockLength? depth s = some k) :
    ∃ text rest, s = text ++ rest ∧ CommentRest depth text ∧ text.length = k := by
  fun_induction blockLength? depth s generalizing k with
  | case1 depth rest ih =>
    obtain ⟨k, hk, rfl⟩ := Option.map_eq_some_iff.mp h
    obtain ⟨text, later, rfl, hc, rfl⟩ := ih hk
    exact ⟨'{' :: '-' :: text, later, rfl, .enter hc, rfl⟩
  | case2 rest =>
    cases h
    exact ⟨['-', '}'], rest, rfl, .last, rfl⟩
  | case3 rest depth ih =>
    obtain ⟨k, hk, rfl⟩ := Option.map_eq_some_iff.mp h
    obtain ⟨text, later, rfl, hc, rfl⟩ := ih hk
    exact ⟨'-' :: '}' :: text, later, rfl, .leave hc, rfl⟩
  | case4 depth c rest ho hc ih =>
    obtain ⟨k, hk, rfl⟩ := Option.map_eq_some_iff.mp h
    obtain ⟨text, later, rfl, hrest, rfl⟩ := ih hk
    have hne : text ≠ [] := by rintro rfl; cases hrest
    have hhead : ∀ d, text.head? = some d → ∃ t, text ++ later = d :: t := by
      intro d hd
      obtain ⟨t, rfl⟩ := List.head?_eq_some_iff.mp hd
      exact ⟨t ++ later, rfl⟩
    refine ⟨c :: text, later, rfl, .char hrest ?_ ?_, rfl⟩
    · rintro ⟨rfl, hd⟩
      obtain ⟨t, ht⟩ := hhead _ hd
      exact ho t rfl ht
    · rintro ⟨rfl, hd⟩
      obtain ⟨t, ht⟩ := hhead _ hd
      exact hc t rfl ht
  | case5 => cases h

/-- A chunk in front of something is the same chunk whatever goes on behind that. -/
theorem chunk_stays {x p : List Char} {k : Nat} (h : chunk (x ++ p) = .whole k) (hk : k < x.length)
    (q : List Char) : chunk (x ++ q) = .whole k := by
  match x with
  | [] => simp at hk
  | [c] =>
    obtain ⟨hpos, -⟩ := chunk_length h
    simp only [List.length_singleton] at hk
    omega
  | c :: d :: t =>
    simp only [List.cons_append, List.length_cons] at h hk ⊢
    by_cases hline : c = '-' ∧ d = '-'
    · obtain ⟨rfl, rfl⟩ := hline
      simp only [chunk, Chunk.whole.injEq] at h ⊢
      rw [lineLength_stays (p := p) (by omega)]
      exact h
    · by_cases hblock : c = '{' ∧ d = '-'
      · obtain ⟨rfl, rfl⟩ := hblock
        simp only [chunk] at h ⊢
        cases hlength : blockLength? 0 (t ++ p) with
        | none => rw [hlength] at h; cases h
        | some m =>
          rw [hlength] at h
          cases h
          obtain ⟨text, rest, ht, hc, rfl⟩ := blockLength?_rest hlength
          have hprefix : text <+: t :=
            List.prefix_of_prefix_length_le ⟨rest, ht.symm⟩ (List.prefix_append t p) (by omega)
          obtain ⟨t', rfl⟩ := hprefix
          rw [List.append_assoc, hc.blockLength?]
      · unfold chunk at h ⊢
        split at h <;> simp_all

end Whitespace

namespace Seam

open Whitespace

variable {T : Seam} {n : Nat} {x y z : List Char}

theorem chunk_now_none (h : Token x) (hc : chunk (T.was x) = .none) :
    chunk (T.now x) = .none := by
  obtain ⟨c, t, rfl, hr⟩ := h
  have htwo : ∀ d s s', chunk (c :: d :: s) = .none → chunk (c :: d :: s') = .none := by
    intro d s s' hn
    unfold chunk at hn ⊢
    split at hn <;> simp_all
    split at hn <;> cases hn
  cases t with
  | cons d t => exact htwo d _ _ hc
  | nil =>
    have hblank : c ≠ ' ' ∧ c ≠ '\t' ∧ c ≠ '\n' := by
      refine ⟨?_, ?_, ?_⟩ <;> rintro rfl <;> cases hc
    change chunk (c :: T.now []) = .none
    cases hnow : T.now [] with
    | nil => simp [chunk, hblank]
    | cons d s =>
      by_cases hd : d = '-'
      · subst hd
        have hprefix : ['-'] <+: T.now [] := ⟨s, hnow.symm⟩
        obtain ⟨s', hs'⟩ := prefix_was (by decide) hprefix
        have hwas : T.was [c] = c :: '-' :: s' := congrArg (c :: ·) hs'.symm
        exact htwo '-' _ _ (hwas ▸ hc)
      · simp [chunk, hblank, hd, hr]

theorem chunk_now_whole {k : Nat} (hc : chunk (T.was x) = .whole k) (hk : k < x.length) :
    chunk (T.now x) = .whole k :=
  chunk_stays hc hk _

/-- Whitespace that lands has no comment in it that is never closed. -/
theorem lands_whitespace {u : Unit} (h : T.Lands n Grammar.whitespace x u y) :
    Grammar.whitespace.readBy Rule.read (T.was x) = .value () (T.was y) := by
  obtain ⟨e, z, he, h⟩ := Lands.bind h
  obtain ⟨rfl, hz⟩ := Reading.value.inj (show Reading.value _ _ = .value e (T.was z) from he)
  obtain ⟨_, v, hv, h⟩ := Lands.bind h
  obtain ⟨-, hv⟩ := Reading.value.inj (show Reading.value _ _ = .value () (T.was v) from hv)
  rw [← hz] at hv
  have hadvance : Grammar.whitespace.readBy Rule.read (T.was x) =
      if (extent (T.was x)).unclosed then .abort (.defect .openComment)
      else .value () (T.was v) := by
    simp only [Grammar.whitespace, Grammar.readBy_bind, Grammar.readBy_look, Reading.bind_value,
      Grammar.readBy_advance, Grammar.readBy_ite, Grammar.readBy_abort, Grammar.readBy_pure, hv]
  split at h
  · obtain ⟨_, _, -, h⟩ := Lands.bind h
    obtain ⟨_, _, -, h⟩ := Lands.bind h
    cases h
  · rename_i hclosed
    obtain ⟨-, rfl⟩ := Lands.pure h
    rw [hadvance, if_neg hclosed]

theorem whitespace_leaves {s t : List Char}
    (h : Grammar.whitespace.readBy Rule.read s = .value () t) : t <:+ s := by
  rw [Grammar.readBy_callFree (by simp [Grammar.whitespace]) _
    (Rule.softUpTo Fault.isDefect 0)] at h
  exact Grammar.readBy_leaves (Rule.softUpTo_leaves 0) _ s () t h

/-- Whitespace in front of some token is the same with either end. -/
theorem read_whitespace_now
    (h : Grammar.whitespace.readBy Rule.read (T.was x) = .value () (T.was y)) (hy : Token y) :
    Grammar.whitespace.readBy Rule.read (T.now x) = .value () (T.now y) := by
  induction hl : x.length using Nat.strongRecOn generalizing x with
  | ind m ih =>
    subst hl
    cases hc : chunk (T.was x) with
    | none =>
      rw [Grammar.readBy_whitespace_tight hc] at h
      obtain rfl := was_injective (Reading.value.inj h).2
      exact Grammar.readBy_whitespace_tight (chunk_now_none hy hc)
    | whole k =>
      obtain ⟨hpos, hle⟩ := chunk_length hc
      rw [Grammar.readBy_whitespace_whole hc] at h
      have hlength := (whitespace_leaves h).length_le
      have hy := List.length_pos_iff.mpr hy.ne_nil
      rw [List.length_drop, was_length, was_length (x := x)] at hlength
      rw [was_length] at hle
      have hk : k < x.length := by omega
      have hdrop : ∀ p, (x ++ p).drop k = x.drop k ++ p := fun p =>
        List.drop_append_of_le_length (Nat.le_of_lt hk)
      rw [was, hdrop] at h
      rw [Grammar.readBy_whitespace_whole (chunk_now_whole hc hk), now, hdrop]
      exact ih _ (by rw [List.length_drop]; omega) h rfl
    | unclosed =>
      rw [Grammar.readBy_whitespace_unclosed hc] at h
      cases h

theorem carries_whitespace {E : Unit → List Char → Prop} (hE : ∀ y, E () y → Token y) :
    T.Carries n E Grammar.whitespace := fun _ _ y h he =>
  reads_plain (by simp [Grammar.whitespace]) h (read_whitespace_now (lands_whitespace h) (hE y he))

/-- Whitespace begins in front of a token with either end, or with neither. -/
theorem starts_now (h : T.Lands n Grammar.whitespace x () y) (hy : Token y) :
    starts (T.now x) = starts (T.was x) := by
  have hr := lands_whitespace h
  cases hc : chunk (T.was x) with
  | none =>
    rw [Grammar.readBy_whitespace_tight hc] at hr
    obtain rfl := was_injective (Reading.value.inj hr).2
    rw [starts, starts, chunk_now_none hy hc, hc]
  | whole k =>
    rw [Grammar.readBy_whitespace_whole hc] at hr
    have hlength := (whitespace_leaves hr).length_le
    have hy := List.length_pos_iff.mpr hy.ne_nil
    obtain ⟨hpos, hle⟩ := chunk_length hc
    rw [List.length_drop, was_length, was_length (x := x)] at hlength
    rw [was_length] at hle
    rw [starts, starts, chunk_now_whole hc (by omega), hc]
  | unclosed =>
    rw [Grammar.readBy_whitespace_unclosed hc] at hr
    cases hr

theorem lands_whitespace1 (h : T.Lands n Grammar.whitespace1 x () y) :
    T.Lands n Grammar.whitespace x () y ∧ starts (T.was x) = true := by
  obtain ⟨b, z, hb, h⟩ := Lands.bind h
  obtain ⟨hbe, hz⟩ := Reading.value.inj (show Reading.value _ _ = .value b (T.was z) from hb)
  obtain rfl := was_injective hz
  split at h
  · rename_i hs
    exact ⟨h, hbe.trans hs⟩
  · cases h

theorem carries_whitespace1 {E : Unit → List Char → Prop} (hE : ∀ y, E () y → Token y) :
    T.Carries n E Grammar.whitespace1 := by
  intro x u y h he
  obtain ⟨hw, hs⟩ := lands_whitespace1 h
  refine reads_plain (by simp [Grammar.whitespace1, Grammar.whitespace]) h ?_
  have hnow := read_whitespace_now (lands_whitespace hw) (hE y he)
  rw [← starts_now hw (hE y he)] at hs
  simp only [Grammar.whitespace1, Grammar.readBy_bind, Grammar.readBy_look, Reading.bind_value, hs,
    if_true, hnow]

/-- Whitespace in front of a part that begins with a token. -/
theorem Carries.spaced {next : Unit → Grammar α} {E : α → List Char → Prop}
    (hl : T.Leads n E Token (next ())) (hn : T.Carries n E (next ())) :
    T.Carries n E (Grammar.whitespace >>= next) :=
  Carries.bind (F := fun _ => Token) (carries_whitespace fun _ h => h) (fun _ => hl) fun _ => hn

theorem Carries.spaced1 {next : Unit → Grammar α} {E : α → List Char → Prop}
    (hl : T.Leads n E Token (next ())) (hn : T.Carries n E (next ())) :
    T.Carries n E (Grammar.whitespace1 >>= next) :=
  Carries.bind (F := fun _ => Token) (carries_whitespace1 fun _ h => h) (fun _ => hl) fun _ => hn

end Seam

end DhallSyntax
