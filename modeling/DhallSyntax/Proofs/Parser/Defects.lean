import DhallSyntax.Proofs.Parser.Events
import DhallSyntax.Proofs.Reading.Escapes

/-!
Where the defects are that end a parse. Main statements:

* `Grammar.Honest.shows`: a part of a grammar that takes what it reports is honest about the place;
* `body_honest`: all rules are.
-/

namespace DhallSyntax

open Whitespace (chunk extent)

variable {α β σ : Type} {settings : Settings} {source : List Char} {n : Nat}

/-! ## Comments that are never closed -/

theorem Whitespace.chunk_of_extent {s : List Char} {n : Nat} (h : extent s = ⟨n, true⟩) :
    chunk (s.drop n) = .unclosed := by
  induction hl : s.length using Nat.strongRecOn generalizing s n with
  | ind k ih =>
    subst hl
    cases hc : chunk s with
    | whole m =>
      obtain ⟨hpos, hle⟩ := chunk_length hc
      rw [extent_whole hc, Extent.mk.injEq] at h
      obtain ⟨rfl, hu⟩ := h
      have hrest := ih _ (by rw [List.length_drop]; omega) (s := s.drop m)
        (n := (extent (s.drop m)).length) (by rw [← hu]) rfl
      rwa [List.drop_drop] at hrest
    | none =>
      cases s with
      | nil => cases h
      | cons c s =>
        rw [extent, extentWithin, hc] at h
        cases h
    | unclosed =>
      cases s with
      | nil => cases hc
      | cons c s =>
        rw [extent, extentWithin, hc] at h
        cases h
        exact hc

/-- A comment that is never closed begins with its opening mark. -/
theorem Whitespace.unclosed_begins {s : List Char} (h : chunk s = .unclosed) :
    ['{', '-'] <+: s := by
  unfold chunk at h
  split at h
  case h_6 rest => exact ⟨rest, rfl⟩
  all_goals cases h

/-! ## What is shown -/

/-- The text shows a defect at an offset. No scalar value is written behind the backslash of an
escape. A comment that is never closed stands behind whole chunks of whitespace, from a place where
the text was looked at. -/
def Defect.ShownAt (source : List Char) (happens : Event → Prop) (offset : Nat) (d : Defect) :
    Prop :=
  match d.kind with
  | .escape => ∃ rest, source.drop offset = '\\' :: 'u' :: rest ∧ ¬ UnicodeEscape.Begins rest
  | .integrity => "sha256:".toList <+: source.drop offset
  | .mismatch => ∃ s, happens (.look s) ∧ s.cursor.offset ≤ offset ∧
      extent (source.drop s.cursor.offset) = ⟨offset - s.cursor.offset, true⟩
  | .nesting | .trailing => True

theorem Defect.ShownAt.mono {happens happens' : Event → Prop} {offset : Nat} {d : Defect}
    (h : d.ShownAt source happens offset) (hmono : ∀ s, happens (.look s) → happens' (.look s)) :
    d.ShownAt source happens' offset := by
  cases d <;> first
    | exact h
    | exact h.imp fun s hs => ⟨hmono s hs.1, hs.2⟩

namespace Grammar

/-- The defects that a part of a grammar reports itself are shown by the text. -/
def Shows (g : Grammar α) : Prop :=
  ∀ (settings : Settings) (source : List Char) (n : Nat) (s u : State) (d : Defect) (back : Nat),
    s.In source →
    g.Passes settings (callWithin Rule.body settings n) s (.halt u (.defect d) back) →
    d.ShownAt source (g.Passes settings (callWithin Rule.body settings n) s)
      (u.cursor.offset - back)

/-- A part of a grammar reports a defect only together with the text that it has taken for it. -/
def Honest {α : Type} : Grammar α → Prop
  | .bind first next => first.Honest ∧ (∀ b, (next b).Honest) ∨ (bind first next).Shows
  | .orElse first second => first.Honest ∧ second.Honest
  | .nested body => body.Honest
  | .iterate _ step => ∀ state, (step state).Honest
  | .abort fault _ => ∀ d, fault ≠ .defect d
  | _ => True

theorem Honest.shows {g : Grammar α} (hg : g.Honest) : g.Shows := by
  intro settings source n s u d back hs h
  generalize he : Event.halt u (.defect d) back = e at h
  induction h with
  | first hp ih =>
    obtain ⟨hfirst, -⟩ | hshows := hg
    · exact (ih hfirst hs he).mono fun _ => .first
    · subst he
      exact hshows _ _ _ _ _ _ _ hs (.first hp)
  | next hr hp ih =>
    obtain ⟨-, hnext⟩ | hshows := hg
    · exact (ih (hnext _) (run_onward hs hr).1 he).mono fun _ => .next hr
    · subst he
      exact hshows _ _ _ _ _ _ _ hs (.next hr hp)
  | left _ ih => exact (ih hg.1 hs he).mono fun _ => .left
  | right hr _ ih =>
    exact (ih hg.2 (hs.moveTo (run_mismatch hs hr).2) he).mono fun _ => .right hr
  | nested ha _ ih => exact (ih hg (hs.withDepth _) he).mono fun _ => .nested ha
  | step _ ih => exact (ih (hg _) hs he).mono fun _ => .step
  | again hr _ ih => exact (ih hg (run_onward hs hr).1 he).mono fun _ => .again hr
  | refused =>
    cases he
    trivial
  | halt =>
    cases he
    exact absurd rfl (hg d)
  | look | call | round | miss => cases he

/-- What a part of a grammar may do allows it to report a fault, or to refuse an expression. -/
theorem Passes.halt_permitted {caller : Caller} {g : Grammar α} {s u : State} {fault : Fault}
    {back : Nat} {P : Deed → Prop} (h : g.Passes settings caller s (.halt u fault back))
    (hg : g.DoesOnly P) : P (.abort fault) ∨ P .nested := by
  generalize he : Event.halt u fault back = e at h
  induction h with
  | first _ ih => exact ih hg.1 he
  | next _ _ ih => exact ih (hg.2 _) he
  | left _ ih => exact ih hg.1 he
  | right _ _ ih => exact ih hg.2 he
  | nested _ _ ih => exact ih hg.2 he
  | step _ ih => exact ih (hg _) he
  | again _ _ ih => exact ih hg he
  | refused => exact .inr hg.1
  | halt =>
    cases he
    exact .inl hg
  | look | call | round | miss => cases he

/-- What does nothing but look at the text and move on does not end the parse. -/
theorem Passes.not_halt {caller : Caller} {g : Grammar α} {s u : State} {fault : Fault}
    {back : Nat} (hg : g.DoesOnly fun _ => False) :
    ¬ g.Passes settings caller s (.halt u fault back) :=
  fun h => (h.halt_permitted hg).elim id id

theorem honest_of_doesOnly {g : Grammar α}
    (h : g.DoesOnly fun deed => ∀ d, deed ≠ .abort (.defect d)) : g.Honest := by
  induction g with
  | bind first next ihf ihn => exact .inl ⟨ihf h.1, fun b => ihn b (h.2 b)⟩
  | orElse first second ihf ihs => exact ⟨ihf h.1, ihs h.2⟩
  | nested body ih => exact ih h.2
  | iterate state step ih => exact fun state => ih state (h state)
  | abort fault back => exact fun d hd => h d (congrArg Deed.abort hd)
  | _ => trivial

/-! ## The three kinds of defects -/

/-- Behind a part that only looks at the text and moves on, the parse is ended by what follows. -/
theorem Passes.halt_behind {caller : Caller} {first : Grammar β} {next : β → Grammar α}
    {s u : State} {fault : Fault} {back : Nat}
    (h : (first >>= next).Passes settings caller s (.halt u fault back))
    (hfirst : first.DoesOnly fun _ => False) :
    ∃ b t, first.run settings caller s = .value b t ∧
      (next b).Passes settings caller t (.halt u fault back) := by
  cases h with
  | first hp => exact (hp.not_halt hfirst).elim
  | next hr hp => exact ⟨_, _, hr, hp⟩

theorem shows_whitespace : whitespace.Shows := by
  intro settings source n s u d back hs h
  have hlook : whitespace.Passes settings (callWithin Rule.body settings n) s (.look s) :=
    .first .look
  obtain ⟨e, t, hr, h⟩ := h.halt_behind trivial
  cases hr
  obtain ⟨_, t, hr, h⟩ := h.halt_behind trivial
  cases hr
  have hle := Whitespace.extent_le s.cursor.rest
  cases hu : (extent s.cursor.rest).unclosed with
  | false =>
    rw [hu] at h
    exact h.direct.elim
  | true =>
    rw [hu] at h
    obtain ⟨length, t, hr, h⟩ := h.halt_behind trivial
    cases hr
    obtain ⟨_, t, hr, h⟩ := h.halt_behind trivial
    cases hr
    cases h.direct
    refine ⟨s, hlook, ?_⟩
    simp only [State.advance, Cursor.advance, List.take_length, List.length_take,
      Nat.min_eq_left hle, Nat.add_sub_cancel, Nat.add_sub_cancel_left]
    refine ⟨Nat.le_add_right _ _, ?_⟩
    rw [← hs.rest_eq, ← hu]

theorem run_accept_true {caller : Caller} {literal : String} {s t : State}
    (h : (accept literal).run settings caller s = .value true t) :
    literal.toList <+: s.cursor.rest ∧ t = s.advance literal.length := by
  rw [Grammar.run] at h
  split at h
  · rename_i hnext
    cases h
    rw [Cursor.isNext, Bool.and_eq_true] at hnext
    exact ⟨List.isPrefixOf_iff_prefix.mp hnext.2, rfl⟩
  · cases h

theorem run_accept_false {caller : Caller} {literal : String} {s t : State}
    (h : (accept literal).run settings caller s = .value false t) :
    t = s ∧ (s.cursor.isBeyond = false → ¬ literal.toList <+: s.cursor.rest) := by
  rw [Grammar.run] at h
  split at h
  · cases h
  · rename_i hnext
    cases h
    refine ⟨rfl, fun hb hp => hnext ?_⟩
    rw [Cursor.isNext, hb, List.isPrefixOf_iff_prefix.mpr hp]
    rfl

/-- Moving over what is there. -/
theorem offset_advance {s : State} {k : Nat} (h : k ≤ s.cursor.rest.length) :
    (s.advance k).cursor.offset = s.cursor.offset + k := by
  simp only [State.advance, Cursor.advance, List.length_take, Nat.min_eq_left h]

theorem offset_accept {caller : Caller} {literal : String} {s t : State}
    (h : (accept literal).run settings caller s = .value true t) :
    t.cursor.offset = s.cursor.offset + literal.length := by
  obtain ⟨hbegins, rfl⟩ := run_accept_true h
  exact offset_advance (String.length_toList ▸ hbegins.length_le)

/-- An integrity hash is faulty from its prefix on. -/
theorem shows_integrityHash : integrityHash.Shows := by
  intro settings source n s u d back hs h
  obtain ⟨isTyped, t, hr, h⟩ := h.halt_behind trivial
  cases hr
  split at h
  · cases h.direct
  · obtain ⟨_, t, hr, h⟩ := h.halt_behind doesOnly_expect
    obtain ⟨hread, ht⟩ := run_value hs hr
    rw [Grammar.read, readBy_expect] at hread
    split at hread
    · rename_i hbegins
      obtain ⟨-, hrest⟩ := (Reading.value.injEq ..).mp hread
      obtain ⟨run, u, hr, h⟩ := h.halt_behind doesOnly_takeWhile
      cases hr
      split at h
      · exact h.direct.elim
      · cases h.direct
        have hbegins := List.isPrefixOf_iff_prefix.mp hbegins
        have hlength := hbegins.length_le
        have hsource := hs.offset_add
        have htarget := ht.offset_add
        rw [← hrest, List.length_drop] at htarget
        have hseven : "sha256:".toList.length = 7 := by decide
        have hplace : t.cursor.offset = s.cursor.offset + 7 := by omega
        show _ <+: source.drop _
        rw [offset_advance (List.takeWhile_prefix _).length_le, hplace,
          Nat.add_right_comm, Nat.add_assoc, Nat.add_sub_cancel, ← hs.rest_eq]
        exact hbegins
    · cases hread

/-- The defect of an escape begins at the backslash, two characters in front of what is read here. -/
theorem scalar_halt {caller : Caller} {code length back : Nat} {s u : State} {d : Defect}
    (h : (scalar code length).Passes settings caller s (.halt u (.defect d) back)) :
    d.kind = .escape ∧ u = s ∧ back = length ∧ ¬ code.isValidChar := by
  unfold scalar at h
  split at h
  · rename_i hnot
    cases h.direct
    exact ⟨rfl, rfl, rfl, notScalar_iff.mp hnot⟩
  · exact h.direct.elim

/-- Behind an opening brace. -/
theorem unicodeEscape_halt_brace {caller : Caller} {s u : State} {d : Defect} {back : Nat}
    {rest : List Char} (hs : s.cursor.isBeyond = false) (hrest : s.cursor.rest = '{' :: rest)
    (h : unicodeEscape.Passes settings caller s (.halt u (.defect d) back)) :
    d.kind = .escape ∧ u.cursor.offset + 2 = s.cursor.offset + back ∧
      ¬ UnicodeEscape.Begins s.cursor.rest := by
  rw [hrest, UnicodeEscape.begins_brace]
  obtain ⟨brace, t, hr, h⟩ := h.halt_behind trivial
  cases brace with
  | false => exact absurd ⟨rest, hrest.symm⟩ ((run_accept_false hr).2 hs)
  | true =>
    rw [if_pos rfl] at h
    have hopen : t.cursor.offset = s.cursor.offset + 1 := offset_accept hr
    have htext : t.cursor.rest = rest := by
      rw [(run_accept_true hr).2]
      exact congrArg (List.drop 1) hrest
    have hb : t.cursor.isBeyond = false := by
      rw [(run_accept_true hr).2]
      exact hs
    obtain ⟨run, v, hr, h⟩ := h.halt_behind doesOnly_takeWhile
    cases hr
    have hrun := offset_advance (s := t) (List.takeWhile_prefix CharClass.hexDigit).length_le
    rw [htext] at h hrun
    split at h
    · rename_i hempty
      rw [List.isEmpty_iff] at hempty
      cases h.direct
      rw [hrun, hopen, hempty]
      exact ⟨rfl, rfl, fun hbegins => hbegins.1 rfl⟩
    · obtain ⟨closed, w, hr, h⟩ := h.halt_behind trivial
      cases closed with
      | true =>
        rw [if_pos rfl] at h
        have hclose : w.cursor.offset = _ + 1 := offset_accept hr
        split at h
        · rename_i hlong
          cases h.direct
          exact ⟨rfl, by omega, fun hbegins => Nat.not_le.mpr hlong hbegins.2.2.1⟩
        · obtain ⟨hkind, rfl, rfl, hvalid⟩ := scalar_halt h
          exact ⟨hkind, by omega, fun hbegins => hvalid hbegins.2.2.2⟩
      | false =>
        obtain ⟨rfl, hnot⟩ := run_accept_false hr
        cases h.direct
        refine ⟨rfl, by omega, fun hbegins => hnot hb ?_⟩
        have hdrop : (t.advance (rest.takeWhile CharClass.hexDigit).length).cursor.rest =
            rest.dropWhile CharClass.hexDigit := by
          rw [← drop_length_takeWhile CharClass.hexDigit rest, ← htext]
          rfl
        rw [hdrop]
        exact hbegins.2.1

/-- Without one. -/
theorem unicodeEscape_halt_four {caller : Caller} {s u : State} {d : Defect} {back : Nat}
    (hrest : s.cursor.rest.head? ≠ some '{')
    (h : unicodeEscape.Passes settings caller s (.halt u (.defect d) back)) :
    d.kind = .escape ∧ u.cursor.offset + 2 = s.cursor.offset + back ∧
      ¬ UnicodeEscape.Begins s.cursor.rest := by
  rw [UnicodeEscape.begins_four hrest]
  obtain ⟨brace, t, hr, h⟩ := h.halt_behind trivial
  cases brace with
  | true =>
    obtain ⟨after, hafter⟩ := (run_accept_true hr).1
    exact absurd (congrArg List.head? hafter).symm hrest
  | false =>
    rw [if_neg Bool.false_ne_true, (run_accept_false hr).1] at h
    obtain ⟨run, v, hr', h⟩ := h.halt_behind trivial
    cases hr'
    split at h
    · rename_i hfour
      obtain ⟨_, w, hr, h⟩ := h.halt_behind trivial
      cases hr
      obtain ⟨hkind, rfl, rfl, hvalid⟩ := scalar_halt h
      have hlength : 4 ≤ s.cursor.rest.length := by
        simp only [Bool.and_eq_true, beq_iff_eq, List.length_take] at hfour
        omega
      rw [offset_advance hlength]
      exact ⟨hkind, rfl, fun hbegins => hvalid hbegins.2.2⟩
    · rename_i hfour
      cases h.direct
      refine ⟨rfl, rfl, fun hbegins => hfour ?_⟩
      rw [hbegins.1, List.all_eq_true.mpr hbegins.2.1]
      rfl

/-- No scalar value is written where a unicode escape ends the parse. -/
theorem unicodeEscape_halt {caller : Caller} {s u : State} {d : Defect} {back : Nat}
    (hs : s.cursor.isBeyond = false)
    (h : unicodeEscape.Passes settings caller s (.halt u (.defect d) back)) :
    d.kind = .escape ∧ u.cursor.offset + 2 = s.cursor.offset + back ∧
      ¬ UnicodeEscape.Begins s.cursor.rest := by
  by_cases hbrace : s.cursor.rest.head? = some '{'
  · obtain ⟨rest, hrest⟩ := List.head?_eq_some_iff.mp hbrace
    exact unicodeEscape_halt_brace hs hrest h
  · exact unicodeEscape_halt_four hbrace h

theorem escapeSequence_halt {caller : Caller} {s u : State} {d : Defect} {back : Nat}
    (hs : s.cursor.isBeyond = false)
    (h : escapeSequence.Passes settings caller s (.halt u (.defect d) back)) :
    d.kind = .escape ∧ u.cursor.offset + 1 = s.cursor.offset + back ∧
      ∃ rest, s.cursor.rest = 'u' :: rest ∧ ¬ UnicodeEscape.Begins rest := by
  obtain ⟨c?, t, hr, h⟩ := h.halt_behind trivial
  cases hr
  cases hc : s.cursor.rest.head? with
  | none =>
    rw [hc] at h
    cases h.direct
  | some c =>
    rw [hc] at h
    dsimp only at h
    split at h
    · obtain ⟨_, t, hr, h⟩ := h.halt_behind trivial
      exact h.direct.elim
    · split at h
      · rename_i hu
        obtain rfl : c = 'u' := eq_of_beq hu
        obtain ⟨rest, hrest⟩ := List.head?_eq_some_iff.mp hc
        obtain ⟨_, t, hr, h⟩ := h.halt_behind trivial
        cases hr
        obtain ⟨hkind, hplace, hnot⟩ := unicodeEscape_halt (s := s.advance 1) hs h
        have hu : (s.advance 1).cursor.offset = s.cursor.offset + 1 :=
          offset_advance (hrest ▸ Nat.succ_le_succ (Nat.zero_le _))
        have hbehind : (s.advance 1).cursor.rest = rest := congrArg (List.drop 1) hrest
        exact ⟨hkind, by omega, rest, hrest, hbehind ▸ hnot⟩
      · cases h.direct

/-- The rest of a step through a text, from behind the backslash of an escape if there is one. -/
theorem shows_escape {next : Char → Grammar α} {rest : Grammar α}
    (hnext : ∀ c, (next c).DoesOnly fun _ => False) (hrest : rest.Honest) :
    (accept "\\" >>= fun escaped =>
      if escaped then escapeSequence >>= next else rest).Shows := by
  intro settings source n s u d back hs h
  obtain ⟨escaped, t, hr, h⟩ := h.halt_behind trivial
  cases escaped with
  | true =>
    rw [if_pos rfl] at h
    obtain ⟨⟨after, hafter⟩, rfl⟩ := run_accept_true hr
    have hescape : escapeSequence.Passes settings (callWithin Rule.body settings n) (s.advance 1)
        (.halt u (.defect d) back) := by
      cases h with
      | first hp => exact hp
      | next _ hp => exact (hp.not_halt (hnext _)).elim
    obtain ⟨hkind, hback, rest', hu, hnot⟩ := escapeSequence_halt (s := s.advance 1) hs.within hescape
    have hrest : (s.advance 1).cursor.rest = after :=
      (congrArg (List.drop 1) hafter).symm
    have htext : source.drop s.cursor.offset = '\\' :: 'u' :: rest' := by
      rw [← hs.rest_eq, ← hafter, ← hrest, ← hu]
      rfl
    have hoffset : u.cursor.offset - back = s.cursor.offset := by
      have hplace : (s.advance 1).cursor.offset = s.cursor.offset + 1 := offset_accept hr
      omega
    rw [Defect.ShownAt, hkind, hoffset]
    exact ⟨rest', htext, hnot⟩
  | false =>
    rw [if_neg Bool.false_ne_true] at h
    have ht := (run_accept_false hr).1
    rw [ht] at h hr
    exact (hrest.shows _ _ _ _ _ _ _ hs h).mono fun _ hp => .next hr hp

/-! ## All rules are honest -/

@[simp] theorem honest_bind {first : Grammar β} {next : β → Grammar α} :
    (first >>= next).Honest ↔
      first.Honest ∧ (∀ b, (next b).Honest) ∨ (first >>= next).Shows := Iff.rfl

@[simp] theorem honest_pure (a : α) : (Pure.pure a : Grammar α).Honest := trivial

@[simp] theorem honest_value (a : α) : (Grammar.pure a).Honest := trivial

@[simp] theorem honest_look (view : List Char → α) : (look view).Honest := trivial

@[simp] theorem honest_accept (literal : String) : (accept literal).Honest := trivial

@[simp] theorem honest_fail (expectation : String) : (fail expectation : Grammar α).Honest :=
  trivial

@[simp] theorem honest_mismatch : (mismatch : Grammar α).Honest := trivial

@[simp] theorem honest_call (rule : Rule) : @Honest (no_index rule.Result) (call rule) := trivial

@[simp] theorem honest_orElse {first second : Grammar α} :
    (orElse first second).Honest ↔ first.Honest ∧ second.Honest := Iff.rfl

@[simp] theorem honest_nested {body : Grammar α} : (nested body).Honest ↔ body.Honest := Iff.rfl

@[simp] theorem honest_iterate {state : σ} {step : σ → Grammar (σ ⊕ α)} :
    (iterate state step).Honest ↔ ∀ state, (step state).Honest := Iff.rfl

@[simp] theorem honest_ite {p : Prop} [Decidable p] {g g' : Grammar α} :
    (if p then g else g').Honest ↔ (p → g.Honest) ∧ (¬ p → g'.Honest) := by
  split <;> simp_all

@[simp] theorem honest_choice {alternatives : List (Grammar α)} :
    (choice alternatives).Honest ↔ ∀ g ∈ alternatives, g.Honest := by
  induction alternatives with
  | nil => simp [choice]
  | cons g rest ih => simp [choice, ih]

@[simp] theorem honest_expectAny (literals : List String) : (expectAny literals).Honest :=
  honest_of_doesOnly doesOnly_expectAny

@[simp] theorem honest_expect (literal : String) : (expect literal).Honest :=
  honest_of_doesOnly doesOnly_expect

@[simp] theorem honest_keyword (word : String) : (keyword word).Honest :=
  honest_of_doesOnly doesOnly_keyword

@[simp] theorem honest_takeWhile1 (chars : CharClass) (expected : String) :
    (takeWhile1 chars expected).Honest :=
  honest_of_doesOnly doesOnly_takeWhile1

@[simp] theorem honest_takeIf (chars : CharClass) : (takeIf chars).Honest :=
  honest_of_doesOnly doesOnly_takeIf

@[simp] theorem honest_optional? {part : Grammar α} (h : part.Honest) :
    (optional? part).Honest :=
  ⟨.inl ⟨h, fun _ => trivial⟩, trivial⟩

@[simp] theorem honest_foldMany {part : Grammar α} (h : part.Honest) (f : σ → α → σ)
    (start : σ) : (foldMany part f start).Honest :=
  fun _ => .inl ⟨honest_optional? h, fun value? => by cases value? <;> trivial⟩

@[simp] theorem honest_many {part : Grammar α} (h : part.Honest) : (many part).Honest := by
  simp [many, h]

@[simp] theorem honest_whitespace : whitespace.Honest := .inr shows_whitespace

@[simp] theorem honest_whitespace1 : whitespace1.Honest := by
  simp [whitespace1]

@[simp] theorem honest_completeExpression : completeExpression.Honest := by
  simp [completeExpression]

theorem honest_interpolation (draft : TextDraft) : (interpolation draft).Honest := by
  simp [interpolation]

theorem honest_doubleQuoteStep (draft : TextDraft) : (doubleQuoteStep draft).Honest := by
  refine .inl ⟨trivial, fun closed => ?_⟩
  dsimp only
  split
  · trivial
  · refine .inl ⟨trivial, fun opened => ?_⟩
    dsimp only
    split
    · exact .inl ⟨honest_interpolation draft, fun _ => trivial⟩
    · refine .inr (shows_escape (fun _ => trivial) ?_)
      exact .inl ⟨honest_takeIf _, fun c? => by cases c? <;> trivial⟩

theorem honest_singleQuoteStep (draft : TextDraft) : (singleQuoteStep draft).Honest := by
  refine .inl ⟨trivial, fun opened => ?_⟩
  dsimp only
  split
  · exact .inl ⟨honest_interpolation draft, fun _ => trivial⟩
  · refine honest_of_doesOnly ?_
    simp only [doesOnly_bind, doesOnly_ite, doesOnly_accept, doesOnly_pure, doesOnly_takeIf,
      implies_true, true_and]
    intro _ _ _ _ _ _ _ _ c?
    cases c? <;> simp

theorem honest_identifier : identifier.Honest := by
  refine .inl ⟨by simp, fun name? => ?_⟩
  cases name? with
  | some name => simp [variableIndex]
  | none => exact honest_of_doesOnly doesOnly_builtin

theorem honest_usingClause : usingClause.Honest := by
  simp [usingClause]

theorem honest_httpImport : httpImport.Honest := by
  refine .inl ⟨honest_of_doesOnly (by simp [scheme]), fun _ => .inl ⟨honest_expect _, fun _ => ?_⟩⟩
  refine .inl ⟨honest_of_doesOnly (by simp [userinfo, takeLength]), fun _ => ?_⟩
  refine .inl ⟨honest_of_doesOnly doesOnly_host, fun _ => ?_⟩
  refine .inl ⟨honest_of_doesOnly (doesOnly_marked _ _), fun _ => ?_⟩
  refine .inl ⟨honest_of_doesOnly doesOnly_urlPath, fun _ => ?_⟩
  refine .inl ⟨honest_of_doesOnly (doesOnly_marked _ _), fun _ => ?_⟩
  refine .inl ⟨honest_optional? honest_usingClause, fun headers? => ?_⟩
  cases headers? <;> trivial

theorem honest_envImport : envImport.Honest :=
  honest_of_doesOnly (by simp [envImport, doesOnly_bashName, doesOnly_quotedNameStep])

theorem honest_colon : colon.Honest := by
  simp [colon]

theorem honest_annotatedExpression : annotatedExpression.Honest := by
  refine .inl ⟨trivial, fun _ => .inl ⟨by simp [honest_colon], fun type? => ?_⟩⟩
  cases type? <;> trivial

theorem honest_binaryOperator : binaryOperator.Honest := by
  refine .inl ⟨honest_whitespace, fun _ => .inl ⟨trivial, fun spelling? => ?_⟩⟩
  cases spelling? with
  | none => trivial
  | some spelling =>
    refine .inl ⟨trivial, fun _ => ?_⟩
    dsimp only
    split
    · exact .inl ⟨honest_whitespace1, fun _ => trivial⟩
    · exact .inl ⟨honest_whitespace, fun _ => trivial⟩

theorem honest_furtherEntries {mark : String} {closing : Char} {entry : Grammar α}
    (h : entry.Honest) : (furtherEntries mark closing entry).Honest := by
  simp [furtherEntries, peek, h]

end Grammar

open Grammar

/-- The rules report defects together with the text that they have taken. -/
theorem body_honest (rule : Rule) : rule.body.Honest := by
  cases rule with
  | doubleLiteral =>
    exact honest_of_doesOnly (doesOnly_doubleLiteral (by simp))
  | naturalLiteral | integerLiteral => simp [Rule.body, naturalLiteral, integerLiteral, digits]
  | label | nonreservedLabel => exact honest_of_doesOnly (doesOnly_labelExcept _ _)
  | identifier => exact honest_identifier
  | textLiteral | doubleQuoteLiteral | singleQuoteLiteral =>
    simp [Rule.body, textLiteral, doubleQuoteLiteral, honest_doubleQuoteStep,
      singleQuoteLiteral, honest_singleQuoteStep]
  | importClause | importHashed | importType =>
    have hhash : integrityHash.Honest := .inr shows_integrityHash
    simp [Rule.body, importClause, importMode, importHashed, hhash, importType]
  | localImport =>
    exact honest_of_doesOnly (by simp [Rule.body, localImport, anchor, doesOnly_pathComponent])
  | httpImport => exact honest_httpImport
  | envImport => exact honest_envImport
  | expression | lambdaExpression | ifExpression | forallExpression | arrowExpression =>
    simp [Rule.body, expression, lambdaExpression, binder, arrow, ifExpression,
      forallExpression, arrowExpression]
  | letExpression | letBinding =>
    simp [Rule.body, letExpression, letBinding, bindingType]
  | mergeExpression | emptyListExpression | toMapExpression | annotatedExpression =>
    simp [Rule.body, mergeExpression, emptyListExpression, toMapExpression, honest_colon,
      honest_annotatedExpression]
  | operatorExpression | applicationExpression | firstApplicationExpression =>
    simp [Rule.body, operatorExpression, operatorTail, honest_binaryOperator,
      applicationExpression, firstApplicationExpression, mergeApplication, someApplication,
      toMapApplication]
  | importExpression | selectorExpression | primitiveExpression =>
    simp [Rule.body, importExpression, selectorExpression, selector, projectionLabels,
      parenthesized, primitiveExpression, peek]
  | recordExpression | unionType | listLiteral =>
    simp [Rule.body, recordExpression, recordEntries, recordEntry, Grammar.unionType,
      unionAlternatives, unionAlternative, listLiteral, honest_furtherEntries, honest_colon, peek]

end DhallSyntax
