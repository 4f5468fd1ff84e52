import DhallSyntax.Proofs.Yaml.Tokens

/-!
The characters of rendered documents. Main statement: `allowed_of_shaped`, all of them may stand in
a YAML text.
-/

namespace DhallSyntax.Yaml

open Document (Shaped IsFieldKey IsLeaf)
open Lexer (keyWord_of_fieldKey)

/-- Only characters that may stand in a YAML text. -/
def Allowed (s : List Char) : Prop := ∀ c ∈ s, isAllowed c = true

variable {indent column : Nat} {c : Char} {s t : List Char}

@[simp] theorem allowed_append : Allowed (s ++ t) ↔ Allowed s ∧ Allowed t := List.forall_mem_append

@[simp] theorem allowed_cons : Allowed (c :: s) ↔ isAllowed c = true ∧ Allowed s :=
  List.forall_mem_cons

@[simp] theorem allowed_nil : Allowed [] := nofun

@[simp] theorem allowed_replicate (n : Nat) : Allowed (List.replicate n ' ') := fun c hc => by
  rw [List.eq_of_mem_replicate hc]
  decide

@[simp] theorem allowed_newLine (n : Nat) : Allowed (newLine n) :=
  allowed_cons.mpr ⟨by decide, allowed_replicate n⟩

theorem isAllowed_of_ordinary (h : isOrdinary c = true) : isAllowed c = true := by
  simp only [isOrdinary, isAllowed, Bool.or_eq_true, Bool.and_eq_true, decide_eq_true_eq] at h ⊢
  tauto

theorem isAllowed_of_shown (h : isShownInDouble c = true) : isAllowed c = true := by
  simp only [isShownInDouble, isAllowed, Bool.or_eq_true, Bool.and_eq_true] at h ⊢
  tauto

theorem allowed_mute (h : ∀ c ∈ s, IsMute c) : Allowed s := fun c hc =>
  isAllowed_of_ordinary (h c hc).1

/-! ## Texts -/

theorem allowed_flowText {shown : Char → List Char}
    (hshown : ∀ c, isAllowed c = true → Allowed (shown c)) (hs : Allowed s)
    (previous : Option Char) (column : Nat) :
    Allowed (flowText indent shown previous column s) := by
  induction s generalizing previous column with
  | nil => exact allowed_nil
  | cons c s ih =>
    obtain ⟨hc, hs⟩ := allowed_cons.mp hs
    have hmore := ih hs
    rw [flowText]
    split
    · simp only [allowed_append, allowed_cons]
      refine ⟨⟨?_, hc, ?_⟩, hmore _ _⟩
      · split
        · exact allowed_cons.mpr ⟨by decide, allowed_nil⟩
        · exact allowed_nil
      · split
        · exact allowed_nil
        · exact allowed_replicate indent
    · split
      · exact allowed_append.mpr ⟨allowed_newLine indent, hmore _ _⟩
      · exact allowed_append.mpr ⟨hshown c hc, hmore _ _⟩

theorem allowed_singleShown (h : isAllowed c = true) : Allowed (singleShown c) := by
  unfold singleShown
  split <;> simp [h]
  decide

theorem isWordChar_of_hexDigit (h : CharClass.hexDigit c = true) : isWordChar c = true := by
  have := CharClass.hexDigit_iff.mp h
  exact isWordChar_iff.mpr (by omega)

theorem isAllowed_of_word (h : isWordChar c = true) : isAllowed c = true :=
  isAllowed_of_ordinary (isMute_of_word h).1

theorem allowed_hexDigits (width n : Nat) :
    Allowed ((hexDigits width n).toList.map Char.toUpper) := by
  intro c hc
  obtain ⟨d, hd, rfl⟩ := List.mem_map.mp hc
  exact isAllowed_of_word (isWordChar_of_hexDigit (isHexDigit_of_mem hd).2.1)

theorem allowed_doubleEscape (c : Char) : Allowed (doubleEscape c) := by
  have hcode : ∀ letter width, isAllowed letter = true →
      Allowed ('\\' :: letter :: (hexDigits width c.toNat).toList.map Char.toUpper) :=
    fun letter width h => by simp [h, allowed_hexDigits]; decide
  rw [doubleEscape]
  split
  · rename_i letter hletter
    have hall : ∀ entry ∈ escapeLetters, isAllowed entry.2 = true := by decide
    have := hall _ (mem_of_lookup hletter)
    simp [this]
    decide
  · dsimp only
    split
    · exact hcode 'x' 2 (by decide)
    · split
      · exact hcode 'u' 4 (by decide)
      · exact hcode 'U' 8 (by decide)

theorem allowed_lineMark (c : Option Char) : Allowed (lineMark c) := by
  unfold lineMark
  split
  · exact allowed_cons.mpr ⟨by decide, allowed_nil⟩
  · exact allowed_nil

theorem allowed_doubleText (isFirst : Bool) {pending : List Char} (hpending : Allowed pending)
    (column : Nat) (s : List Char) : Allowed (doubleText indent isFirst pending column s) := by
  have hbackslash : isAllowed '\\' = true := by decide
  have hreverse : ∀ {t : List Char}, Allowed t → Allowed t.reverse := fun h c hc =>
    h c (List.mem_reverse.mp hc)
  induction s generalizing isFirst pending column with
  | nil => exact hreverse hpending
  | cons c s ih =>
    cases hc : isShownInDouble c with
    | true =>
      have hallowed := isAllowed_of_shown hc
      rw [doubleText_shown hc]
      split
      · have hone : Allowed [c] := allowed_cons.mpr ⟨hallowed, allowed_nil⟩
        simp [hreverse hpending, hbackslash, allowed_lineMark, ih _ hone]
      · exact ih _ (allowed_cons.mpr ⟨hallowed, hpending⟩) _
    | false =>
      rw [doubleText_escaped hc]
      split <;>
        simp [hreverse hpending, hbackslash, allowed_lineMark, allowed_doubleEscape,
          ih _ allowed_nil]

theorem allowed_of_needsDouble (h : needsDouble s = false) : Allowed s := fun c hc =>
  isAllowed_of_ordinary (isOrdinary_of_needsDouble h c hc)

theorem allowed_scalarText {value : Scalar} (h : IsLeaf value) :
    Allowed (scalarText indent column value) := by
  have hspace : isAllowed ' ' = true := by decide
  cases h with
  | null =>
    have hnull : ∀ c ∈ " null".toList, isAllowed c = true := List.all_eq_true.mp (by decide)
    exact hnull
  | @int n => exact allowed_cons.mpr ⟨hspace, allowed_mute (isMute_write n)⟩
  | @text t =>
    change Allowed (textScalar indent column t)
    delta textScalar
    cases hstyle : styleOf t.toList with
    | plain =>
      have hs := allowed_of_needsDouble (needsDouble_of_allowsPlain (styleOf_plain hstyle).1)
      simp only [hstyle]
      have hshown : ∀ c, isAllowed c = true → Allowed [c] := fun c hc =>
        allowed_cons.mpr ⟨hc, allowed_nil⟩
      exact allowed_cons.mpr ⟨hspace, allowed_flowText hshown hs _ _⟩
    | single =>
      have hs := allowed_of_needsDouble (styleOf_single hstyle)
      have htext : Allowed (flowText indent singleShown none (column + 2) t.toList) :=
        allowed_flowText (fun _ => allowed_singleShown) hs none (column + 2)
      simp only [hstyle, allowed_append, allowed_cons, allowed_nil]
      exact ⟨⟨hspace, by decide, htext⟩, by decide, trivial⟩
    | double =>
      have htext : Allowed (doubleText indent true [] (column + 2) t.toList) :=
        allowed_doubleText true allowed_nil (column + 2) t.toList
      simp only [hstyle, allowed_append, allowed_cons, allowed_nil]
      exact ⟨⟨hspace, by decide, htext⟩, by decide, trivial⟩

/-! ## Documents -/

theorem allowed_keyText {key : Scalar} (h : IsFieldKey key) : Allowed (keyText key) := fun c hc =>
  isAllowed_of_word ((keyWord_of_fieldKey h).word c hc)

theorem allowed_entriesText {entries : List (Scalar × Document)}
    (hkeys : ∀ e ∈ entries, IsFieldKey e.1)
    (hvalues : ∀ e ∈ entries, ∀ k column, Allowed (valueText k column e.2)) :
    Allowed (entriesText indent entries) := by
  induction entries with
  | nil => exact allowed_nil
  | cons e entries ih =>
    obtain ⟨key, value⟩ := e
    have hkey := allowed_keyText (hkeys _ List.mem_cons_self)
    have hvalue := hvalues _ List.mem_cons_self
    have hmore := ih (fun e he => hkeys e (List.mem_cons_of_mem _ he))
      fun e he => hvalues e (List.mem_cons_of_mem _ he)
    have hcolon : isAllowed ':' = true := by decide
    simp only [entriesText, allowed_append, allowed_cons]
    refine ⟨⟨⟨hkey, hcolon, hvalue _ _⟩, ?_⟩, hmore⟩
    split
    · exact allowed_nil
    · exact allowed_newLine indent

theorem allowed_itemsText {items : List Document}
    (hitems : ∀ d ∈ items, ∀ k, Allowed (itemText k d)) : Allowed (itemsText indent items) := by
  induction items with
  | nil => exact allowed_nil
  | cons d items ih =>
    have hitem := hitems _ List.mem_cons_self
    have hmore := ih fun e he => hitems e (List.mem_cons_of_mem _ he)
    have hdash : isAllowed '-' = true := by decide
    simp only [itemsText, allowed_append, allowed_cons]
    refine ⟨⟨⟨hdash, hitem _⟩, ?_⟩, hmore⟩
    split
    · exact allowed_nil
    · exact allowed_newLine indent

theorem allowed_of_shaped {n : Nat} {d : Document} (h : Shaped n d) :
    (∀ k column, Allowed (valueText k column d)) ∧ ∀ k, Allowed (itemText k d) := by
  have hspace : isAllowed ' ' = true := by decide
  induction h with
  | scalar hs => exact ⟨fun _ _ => allowed_scalarText hs, fun _ => allowed_scalarText hs⟩
  | @list _ items _ _ ih =>
    have hitems := fun indent => @allowed_itemsText indent items fun d hd => (ih d hd).2
    cases items with
    | nil =>
      have hempty : ∀ c ∈ " []".toList, isAllowed c = true := List.all_eq_true.mp (by decide)
      exact ⟨fun _ _ => hempty, fun _ => hempty⟩
    | cons d items =>
      exact ⟨fun k _ => allowed_append.mpr ⟨allowed_newLine k, hitems _⟩,
        fun k => allowed_cons.mpr ⟨hspace, hitems _⟩⟩
  | @object _ entries hne hkeys _ _ ih =>
    have hentries := fun indent => @allowed_entriesText indent entries hkeys fun e he => (ih e he).1
    obtain ⟨e, entries, rfl⟩ := List.exists_cons_of_ne_nil hne
    exact ⟨fun k _ => allowed_append.mpr ⟨allowed_newLine _, hentries _⟩,
      fun k => allowed_cons.mpr ⟨hspace, hentries _⟩⟩

end DhallSyntax.Yaml
