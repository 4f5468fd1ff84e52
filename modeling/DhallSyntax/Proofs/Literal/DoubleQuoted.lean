import DhallSyntax.Proofs.Context.Whole
import DhallSyntax.Proofs.Reading.Texts
import Mathlib.Data.List.Chain

/-!
Double-quoted text without interpolations. Main statement: `parse_doubleQuoted`, a sequence of items,
each of which spells one character, is parsed to the text of these characters, and every text is the
text of such a sequence.
-/

namespace DhallSyntax

open Grammar CharClass

/-! ## Items -/

/-- One way to spell a character in a double-quoted text. -/
inductive TextItem where
  /-- A character that stands for itself. -/
  | raw (c : Char) (plain : printable c = true ∧ c ≠ '"' ∧ c ≠ '\\')
  /-- A backslash and a letter. -/
  | letter (letter c : Char) (known : (letter, c) ∈ EscapeTable.text)
  /-- Four hexadecimal digits. -/
  | four (run : List Char) (c : Char) (code : HexCode run c) (length : run.length = 4)
  /-- Any number of hexadecimal digits in braces. -/
  | braced (run : List Char) (c : Char) (code : HexCode run c) (ne_nil : run ≠ [])

namespace TextItem

def chars : TextItem → List Char
  | raw c _ => [c]
  | .letter l _ _ => ['\\', l]
  | four run _ _ _ => '\\' :: 'u' :: run
  | braced run _ _ _ => '\\' :: 'u' :: '{' :: (run ++ ['}'])

/-- The character that is spelled. -/
def char : TextItem → Char
  | raw c _ | letter _ c _ | four _ c _ _ | braced _ c _ _ => c

/-- No dollar that stands for itself is right in front of such a brace. -/
def Apart (items : List TextItem) : Prop :=
  items.IsChain fun i j => ¬ (i.chars = ['$'] ∧ j.chars = ['{'])

theorem chars_ne_nil (i : TextItem) : i.chars ≠ [] := by
  cases i <;> exact List.cons_ne_nil _ _

theorem not_quote (i : TextItem) (t : List Char) : ¬ ['"'] <+: i.chars ++ t := by
  rintro ⟨rest, hrest⟩
  cases i with
  | raw c plain => exact plain.2.1 (List.cons.inj hrest).1.symm
  | letter | four | braced => exact absurd (List.cons.inj hrest).1 (by decide)

/-- A brace stands for itself wherever an item begins with one. -/
theorem chars_of_head? {i : TextItem} {t : List Char} (h : (i.chars ++ t).head? = some '{') :
    i.chars = ['{'] := by
  cases i with
  | raw c plain => exact congrArg (fun c => [c]) (Option.some.inj h)
  | letter | four | braced => exact absurd (Option.some.inj h) (by decide)

/-- In front of an item an interpolation begins only if it is a dollar and a brace follows. -/
theorem not_mark {i : TextItem} {t : List Char} (h : i.chars = ['$'] → t.head? ≠ some '{') :
    ¬ ['$', '{'] <+: i.chars ++ t := by
  rintro ⟨rest, hrest⟩
  cases i with
  | raw c plain =>
    obtain ⟨rfl, ht⟩ := List.cons.inj hrest
    exact h rfl (congrArg List.head? ht).symm
  | letter | four | braced => exact absurd (List.cons.inj hrest).1 (by decide)

end TextItem

/-! ## One step -/

variable {S : Surroundings} {levels depth : Nat} {α σ : Type}

/-- What a step does where the text neither ends nor is interpolated. -/
def textRest (draft : TextDraft) : Grammar (TextDraft ⊕ Expr) := do
  if ← accept "\\" then
    return .inl (draft.add [← escapeSequence])
  else
    match ← takeIf printable with
    | some c => return .inl (draft.add [c])
    | none => fail "a text character or '\"'"

theorem callFree_unicodeEscape : unicodeEscape.CallFree := by
  simp [unicodeEscape, scalar]

theorem callFree_escapeSequence : escapeSequence.CallFree := by
  simp only [escapeSequence, peek, doesOnly_bind, doesOnly_look, true_and]
  intro c?
  cases c? with
  | none => simp
  | some c =>
    dsimp only
    split <;> simp [callFree_unicodeEscape]

theorem callFree_textRest (draft : TextDraft) : (textRest draft).CallFree := by
  simp only [textRest, doesOnly_bind, doesOnly_ite, doesOnly_accept, doesOnly_pure,
    callFree_escapeSequence, doesOnly_takeIf, implies_true, true_and, and_true]
  intro _ _ c?
  cases c? <;> simp

theorem steady_textStep {draft : TextDraft} {s t : List Char} {draft' : TextDraft}
    (hquote : ¬ ['"'] <+: s) (hmark : ¬ ['$', '{'] <+: s)
    (hread : (textRest draft).read s = .value (.inl draft') t) :
    Steady S levels depth (.term (doubleQuoteStep draft)) s (some (.inl draft', t)) :=
  .bind (.plain trivial (readBy_accept_of_not hquote))
    (.bind (.plain trivial (readBy_accept_of_not hmark)) (.plain (callFree_textRest draft) hread))

theorem readBy_escapeSequence_u (rules : RuleReader) (s : List Char) :
    escapeSequence.readBy rules ('u' :: s) = unicodeEscape.readBy rules s := rfl

theorem read_textRest_escape {draft : TextDraft} {s t : List Char} {c : Char}
    (h : escapeSequence.read s = .value c t) :
    (textRest draft).read ('\\' :: s) = .value (.inl (draft.add [c])) t := by
  have hbackslash : (textRest draft).read ('\\' :: s) =
      (escapeSequence.read s).bind fun c t => .value (.inl (draft.add [c])) t := rfl
  rw [hbackslash, h, Reading.bind_value]

namespace TextItem

/-- An item is read as its character, whatever follows it. -/
theorem read_textRest (i : TextItem) (draft : TextDraft) (t : List Char) :
    (textRest draft).read (i.chars ++ t) = .value (.inl (draft.add [i.char])) t := by
  cases i with
  | raw c plain =>
    obtain ⟨hprintable, -, hbackslash⟩ := plain
    have hescape : (accept "\\").read (c :: t) = .value false (c :: t) :=
      readBy_accept_of_not fun hp => hbackslash (List.head_eq_of_cons_eq hp.choose_spec).symm
    simp only [Grammar.read] at hescape
    simp only [Grammar.read, chars, char, List.singleton_append, textRest, readBy_bind, hescape,
      Reading.bind_value, Bool.false_eq_true, if_false, readBy_takeIf_cons, hprintable, if_true,
      readBy_pure]
  | letter l c known =>
    exact read_textRest_escape (readBy_escapeSequence_letter known t)
  | four run c code length =>
    refine read_textRest_escape ((readBy_escapeSequence_u _ _).trans ?_)
    exact readBy_unicodeEscape_four code length t
  | braced run c code ne_nil =>
    have hshape : (braced run c code ne_nil).chars ++ t =
        '\\' :: 'u' :: '{' :: (run ++ '}' :: t) := by
      simp [chars]
    rw [hshape]
    refine read_textRest_escape ((readBy_escapeSequence_u _ _).trans ?_)
    exact readBy_unicodeEscape_braced code ne_nil code.short t

theorem steady (i : TextItem) (draft : TextDraft) {t : List Char}
    (h : i.chars = ['$'] → t.head? ≠ some '{') :
    Steady S levels depth (.term (doubleQuoteStep draft)) (i.chars ++ t)
      (some (.inl (draft.add [i.char]), t)) :=
  steady_textStep (i.not_quote t) (not_mark h) (i.read_textRest draft t)

end TextItem

/-! ## Runs of items -/

/-- Rounds of a loop that stay in it, each of which moves on. -/
inductive Rounds (S : Surroundings) (levels depth : Nat) {α σ : Type}
    (step : σ → Grammar (σ ⊕ α)) : σ → List Char → σ → List Char → Prop where
  | refl {state : σ} {t : List Char} : Rounds S levels depth step state t state t
  | next {state state' state'' : σ} {t u v : List Char} :
      Steady S levels depth (.term (step state)) t (some (.inl state', u)) →
      u.length < t.length → Rounds S levels depth step state' u state'' v →
      Rounds S levels depth step state t state'' v

theorem Rounds.steady {step : σ → Grammar (σ ⊕ α)} {state state' : σ} {t u : List Char}
    {r : Place α} (h : Rounds S levels depth step state t state' u)
    (hrest : Steady S levels depth (.loop step state') u r) :
    Steady S levels depth (.loop step state) t r := by
  induction h with
  | refl => exact hrest
  | next hstep hlt _ ih => exact .next hstep hlt (ih hrest)

namespace TextItem

/-- Item by item the characters are added that are spelled. -/
theorem rounds {items : List TextItem} (hapart : Apart items) (draft : TextDraft) {t : List Char}
    (ht : t.head? ≠ some '{') : Rounds S levels depth doubleQuoteStep draft
      (items.flatMap chars ++ t) (draft.add (items.map char)) t := by
  induction items generalizing draft with
  | nil => exact .refl
  | cons i items ih =>
    have hnext : i.chars = ['$'] → (items.flatMap chars ++ t).head? ≠ some '{' := by
      intro hi
      cases items with
      | nil => exact ht
      | cons j items =>
        rw [List.flatMap_cons, List.append_assoc]
        exact fun hj => (List.isChain_cons_cons.mp hapart).1 ⟨hi, chars_of_head? hj⟩
    have hlength := List.length_pos_iff.mpr i.chars_ne_nil
    have hadd : draft.add ((i :: items).map char) = (draft.add [i.char]).add (items.map char) :=
      (TextDraft.add_add draft [i.char] (items.map char)).symm
    rw [List.flatMap_cons, List.append_assoc, hadd]
    refine .next (i.steady draft hnext) ?_ (ih hapart.tail _)
    simp only [List.length_append]
    omega

/-- Every character can be spelled without a dollar that stands for itself. -/
theorem exists_spelling (c : Char) : ∃ i : TextItem, i.char = c ∧ i.chars ≠ ['$'] := by
  cases hl : Rendering.letter? EscapeTable.text c with
  | some l => exact ⟨.letter l c (mem_of_letter? hl), rfl, by simp [chars]⟩
  | none =>
    have hplain := not_mem_of_letter? hl
    by_cases hp : printable c = true
    · refine ⟨.raw c ⟨hp, ?_, ?_⟩, rfl, ?_⟩
      · rintro rfl
        exact hplain '"' (by decide)
      · rintro rfl
        exact hplain '\\' (by decide)
      · intro hc
        obtain rfl := (List.cons.inj hc).1
        exact hplain '$' (by decide)
    · rw [printable_iff] at hp
      obtain ⟨a, b, d, e, -, hhex, hvalue⟩ := hexDigits_control (n := c.toNat) (by omega)
      exact ⟨.four [a, b, d, e] c ⟨List.all_eq_true.mp hhex, hvalue⟩ rfl, rfl, by simp [chars]⟩

/-- Every text can be spelled. -/
theorem exists_items (text : List Char) :
    ∃ items : List TextItem, Apart items ∧ items.map char = text := by
  induction text with
  | nil => exact ⟨[], .nil, rfl⟩
  | cons c text ih =>
    obtain ⟨i, rfl, hdollar⟩ := exists_spelling c
    obtain ⟨items, hitems, rfl⟩ := ih
    exact ⟨i :: items, hitems.cons fun _ _ h => hdollar h.1, rfl⟩

end TextItem

/-! ## Whole texts -/

variable {settings : Settings}

/-- Items between double quotes, none of which begins an interpolation with the next one, are parsed
to the text of the characters that they spell, and every text is spelled by such items. -/
theorem parse_doubleQuoted (settings : Settings) (h : settings.Ample) :
    (∀ items : List TextItem, TextItem.Apart items →
      parse settings (String.ofList ('"' :: (items.flatMap TextItem.chars ++ ['"']))) =
        .ok (.text [] (String.ofList (items.map TextItem.char)))) ∧
    ∀ text : String, ∃ items : List TextItem, TextItem.Apart items ∧
      items.map TextItem.char = text.toList := by
  refine ⟨fun items hapart => ?_, fun text => TextItem.exists_items text.toList⟩
  have hend : Steady .single 0 1 (.loop doubleQuoteStep
      (TextDraft.empty.add (items.map TextItem.char))) ['"']
        (some (.text [] (String.ofList (items.map TextItem.char)), [])) := by
    rw [← TextDraft.build_add]
    exact .last (.bind (b := true) (.plain trivial rfl) (.plain trivial rfl))
  refine parse_literal h rfl rfl (steady_primitive (by decide) trivial (.left (.call trivial
    (.left (.call trivial ?_)))))
  refine .bind (u := items.flatMap TextItem.chars ++ ['"']) (.plain (by simp) rfl) (.iterate ?_)
  exact (TextItem.rounds hapart .empty (by decide)).steady hend

/-- A dollar that stands for itself in front of a brace that is coded, and one that does not. -/
theorem parse_doubleQuoted_dollar :
    let items : List TextItem :=
      [.raw '$' (by decide),
        .braced "007b".toList '\x7b' ⟨List.all_eq_true.mp rfl, by decide⟩ (by decide),
        .raw '\x7b' (by decide), .letter 'n' '\n' (by decide),
        .four "00E9".toList 'é' ⟨List.all_eq_true.mp rfl, by decide⟩ rfl]
    Settings.standard.Ample ∧ TextItem.Apart items ∧
      parse .standard "\"$\\u\x7b007b\x7d\x7b\\n\\u00E9\"" = .ok (.text [] "$\x7b\x7b\né") := by
  intro items
  have hapart : TextItem.Apart items := by simp [TextItem.Apart, TextItem.chars, items]
  exact ⟨Settings.ample_standard, hapart,
    (parse_doubleQuoted .standard Settings.ample_standard).1 items hapart⟩

end DhallSyntax
