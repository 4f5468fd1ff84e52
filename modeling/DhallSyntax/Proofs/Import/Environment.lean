import DhallSyntax.Proofs.Import.Whole

/-!
Names of environment variables in quotes. Main statement: `parse_environmentName`, a source that is
such a name is parsed exactly if the name is made of items and is not empty. Where it is not, `env`
is read as a variable, and the source is refused at the colon behind it.
-/

namespace DhallSyntax

open Grammar CharClass
open Rendering (word)

variable {S : Surroundings} {depth : Nat} {b s t : List Char} {settings : Settings}

/-- Whether a quotation mark stands in a text with no backslash that takes it. -/
def hasBareQuote : List Char → Bool
  | '\\' :: _ :: rest => hasBareQuote rest
  | c :: rest => c == '"' || hasBareQuote rest
  | [] => false

theorem hasBareQuote_cons {c : Char} (hc : c ≠ '\\') (s : List Char) :
    hasBareQuote (c :: s) = (c == '"' || hasBareQuote s) := by
  rw [hasBareQuote]
  exact fun _ _ h => absurd h hc

namespace NameItem

/-- Only the first quotation mark behind items ends them. -/
theorem eq_of_bareQuote {items : List NameItem} (hb : hasBareQuote b = false)
    (h : items.flatMap chars ++ '"' :: t = b ++ ['"']) : items.flatMap chars = b ∧ t = [] := by
  induction items generalizing b with
  | nil =>
    cases b with
    | nil => exact ⟨rfl, (List.cons.inj h).2⟩
    | cons c b =>
      obtain ⟨rfl, -⟩ := List.cons.inj h
      rw [hasBareQuote_cons (by decide)] at hb
      cases hb
  | cons i items ih =>
    rw [List.flatMap_cons, List.append_assoc] at h
    rw [List.flatMap_cons]
    cases i with
    | plain c valid =>
      rw [chars, List.singleton_append] at h ⊢
      obtain ⟨-, hc⟩ := valid
      simp only [List.mem_cons, List.not_mem_nil, or_false, not_or] at hc
      cases b with
      | nil => exact absurd (List.cons.inj h).1 hc.1
      | cons d b =>
        obtain ⟨rfl, hrest⟩ := List.cons.inj h
        rw [hasBareQuote_cons hc.2.1, Bool.or_eq_false_iff] at hb
        obtain ⟨rfl, rfl⟩ := ih hb.2 hrest
        exact ⟨rfl, rfl⟩
    | escape letter c known =>
      rw [chars, List.cons_append, List.singleton_append] at h ⊢
      cases b with
      | nil => exact absurd (List.cons.inj h).1 (by decide)
      | cons d b =>
        obtain ⟨rfl, hletter⟩ := List.cons.inj h
        cases b with
        | nil => exact absurd (List.cons.inj hletter).2 (by simp)
        | cons e b =>
          obtain ⟨rfl, hrest⟩ := List.cons.inj hletter
          rw [hasBareQuote] at hb
          obtain ⟨rfl, rfl⟩ := ih hb hrest
          exact ⟨rfl, rfl⟩

/-- Behind a part of a name a text goes on with items up to a quotation mark, and the name is not
empty, or it is refused. -/
def Scans (done s : List Char) : Prop :=
  (∃ items t, s = items.flatMap chars ++ '"' :: t ∧ (done ≠ [] ∨ items ≠ [])) ∨
    NameSteps done s .mismatch

theorem Scans.cons {done : List Char} (i : NameItem) (h : Scans (i.char :: done) t) :
    Scans done (i.chars ++ t) := by
  obtain ⟨items, u, rfl, -⟩ | hsteps := h
  · refine .inl ⟨i :: items, u, ?_, .inr (List.cons_ne_nil _ _)⟩
    rw [List.flatMap_cons, List.append_assoc]
  · refine .inr (.next (i.step done t) ?_ hsteps)
    cases i <;> simp only [chars, List.cons_append, List.length_cons, List.nil_append] <;> omega

theorem scans (done s : List Char) : Scans done s := by
  fun_induction hasBareQuote s generalizing done with
  | case1 letter rest ih =>
    cases hl : EscapeTable.environment.lookup letter with
    | some c =>
      obtain ⟨before, after, he, -⟩ := List.lookup_eq_some_iff.mp hl
      have hentry : (letter, c) ∈ EscapeTable.environment :=
        he ▸ List.mem_append_right before List.mem_cons_self
      exact .cons (.escape letter c hentry) (ih _)
    | none =>
      refine .inr (.none ?_)
      rw [step_of_letter, hl]
  | case2 c rest hshape ih =>
    by_cases hquote : c = '"'
    · subst hquote
      by_cases hdone : done = []
      · subst hdone
        refine .inr (.none ?_)
        rw [step_of_plain (fun _ => rfl) (by decide), if_neg (by decide)]
      · exact .inl ⟨[], rest, rfl, .inl hdone⟩
    · by_cases hbackslash : c = '\\'
      · subst hbackslash
        cases rest with
        | nil => exact .inr (.none rfl)
        | cons letter rest => exact absurd rfl (hshape letter rest rfl)
      · by_cases henvironment : environmentChar c = true
        · exact .cons (.plain c (plain_valid henvironment hbackslash)) (ih _)
        · refine .inr (.none ?_)
          rw [step_of_plain (fun h => absurd h hquote) hbackslash, if_neg henvironment]
  | case3 => exact .inr (.none rfl)

end NameItem

/-! ## Reading a name -/

/-- The kind of import that a name in quotes is, if it is one. -/
theorem steady_quotedName {r : Place (ImportKind String)} (hfree : S.free (word "env:\"" ++ s))
    (hread : envImport.read (word "env:\"" ++ s) = r.reading) :
    Steady S 2 depth (.term (call .importType)) (word "env:\"" ++ s) r := by
  have hcallFree : envImport.CallFree := by
    simp [envImport, doesOnly_bashName, doesOnly_quotedNameStep]
  have hlocal := Rule.opens_localImport.steady (t := word "env:\"" ++ s) (by rfl) hfree depth
  have hhttp := Rule.opens_httpImport.steady (t := word "env:\"" ++ s) (by rfl) hfree depth
  refine .call hfree (.right (.miss (steady_no_missing (by rfl))) (.right hlocal ?_))
  exact .right hhttp (.lastChoice (.call hfree (.plain hcallFree hread)))

theorem read_items {items : List NameItem} (hne : items ≠ []) (t : List Char) :
    envImport.read (word "env:\"" ++ (items.flatMap NameItem.chars ++ '"' :: t)) =
      .value (.env (String.ofList (items.map NameItem.char))) t := by
  have hname := readBy_iterate (NameItem.steps (.inr hne : [] ≠ [] ∨ items ≠ []) t)
  exact (readBy_envImport _ _).trans (congrArg (Reading.bind · _) hname)

theorem read_noItems (hb : hasBareQuote b = false)
    (h : ¬ ∃ items : List NameItem, items ≠ [] ∧ b = items.flatMap NameItem.chars) :
    envImport.read (word "env:\"" ++ (b ++ ['"'])) = .mismatch := by
  obtain ⟨items, t, hitems, hne⟩ | hsteps := NameItem.scans [] (b ++ ['"'])
  · obtain ⟨hchars, -⟩ := NameItem.eq_of_bareQuote hb hitems.symm
    exact absurd ⟨items, hne.resolve_left fun h => h rfl, hchars.symm⟩ h
  · exact (readBy_envImport _ _).trans (congrArg (Reading.bind · _) (readBy_iterate hsteps))

section Whole

variable (h : settings.Ample)

include h

theorem parse_items {items : List NameItem} (hne : items ≠ []) :
    parse settings (String.ofList (word "env:\"" ++ (items.flatMap NameItem.chars ++ ['"']))) =
      .ok (.embedded (.mk (.env (String.ofList (items.map NameItem.char))) none .code)) :=
  parse_importKind h (by rfl) (steady_quotedName trivial (read_items hne []))

/-- What is no name leaves a variable and a colon with no whitespace behind it. -/
theorem parse_noName (hread : envImport.read (word "env:\"" ++ s) = .mismatch) :
    ∃ e, parse settings (String.ofList (word "env:\"" ++ s)) = .error (.source e) ∧
      e.kind = .trailing := by
  have hends : EndsOperand (':' :: '"' :: s) := .inr ⟨s, rfl⟩
  have hclause : Steady .single 4 1 (.term (call .importClause)) (word "env:\"" ++ s) none :=
    .call trivial (.miss (.call trivial (.miss (steady_quotedName trivial hread))))
  have hvariable : Steady .single 5 1 (.term (call .importExpression)) (word "env:\"" ++ s)
      (some (.variable "env" 0, ':' :: '"' :: s)) :=
    IsWord.named (w := "env".toList) ⟨rfl, rfl⟩ hends trivial rfl hends hclause rfl
  refine (parse_operand h (.of_address trivial (by rfl)) ?_ hvariable).2.1 _ rfl ?_
  · rintro _ ⟨⟩
    exact hends
  · exact List.cons_ne_nil _ _

end Whole

/-- A source that is a name in quotes, with no quotation mark inside that stands by itself, is
parsed exactly if the name is made of items and is not empty, and then to the characters that they
spell. Every other such source is refused. -/
theorem parse_environmentName (settings : Settings) (h : settings.Ample) (b : List Char)
    (hb : hasBareQuote b = false) :
    let source := String.ofList (word "env:\"" ++ (b ++ ['"']))
    (∀ name, parse settings source = .ok (.embedded (.mk (.env name) none .code)) ↔
      ∃ items : List NameItem, items ≠ [] ∧ b = items.flatMap NameItem.chars ∧
        name = String.ofList (items.map NameItem.char)) ∧
    ((¬ ∃ items : List NameItem, items ≠ [] ∧ b = items.flatMap NameItem.chars) →
      ∃ e, parse settings source = .error (.source e) ∧ e.kind = .trailing) := by
  intro source
  have hrefused : (¬ ∃ items : List NameItem, items ≠ [] ∧ b = items.flatMap NameItem.chars) →
      ∃ e, parse settings source = .error (.source e) ∧ e.kind = .trailing :=
    fun hnone => parse_noName h (read_noItems hb hnone)
  refine ⟨fun name => ⟨fun hparse => ?_, ?_⟩, hrefused⟩
  · by_cases hitems : ∃ items : List NameItem, items ≠ [] ∧ b = items.flatMap NameItem.chars
    · obtain ⟨items, hne, rfl⟩ := hitems
      refine ⟨items, hne, rfl, ?_⟩
      cases hparse.symm.trans (parse_items h hne)
      rfl
    · obtain ⟨e, herror, -⟩ := hrefused hitems
      cases hparse.symm.trans herror
  · rintro ⟨items, hne, rfl, rfl⟩
    exact parse_items h hne

/-- A character and an escape, and no character at all. -/
theorem parse_environmentName_escape :
    parse .standard "env:\"a\\n\"" = .ok (.embedded (.mk (.env "a\n") none .code)) ∧
    ∃ e, parse .standard "env:\"\"" = .error (.source e) ∧ e.kind = .trailing := by
  have hname := fun b hb => parse_environmentName .standard Settings.ample_standard b hb
  constructor
  · refine ((hname ['a', '\\', 'n'] rfl).1 "a\n").mpr ?_
    exact ⟨[.plain 'a' (by decide), .escape 'n' '\n' (by decide)], by simp, rfl, rfl⟩
  · refine (hname [] rfl).2 ?_
    rintro ⟨items, hne, hitems⟩
    cases items with
    | nil => exact hne rfl
    | cons i items => cases i <;> cases hitems

end DhallSyntax
