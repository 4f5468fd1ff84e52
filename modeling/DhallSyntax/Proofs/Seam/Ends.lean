import DhallSyntax.Proofs.Reading.Marks
import DhallSyntax.Proofs.Seam.Lexical

/-!
Where an expression ends. Whatever could go on with it is looked for behind whitespace, and does not
match at what comes next, whether that is the seam or some token. Main statements:

* `Seam.misses`: what is refused because of the beginning of a text is missed in front of the seam;
* `Seam.StopsExpression.ends`: a token that nothing goes on with ends an expression.
-/

namespace DhallSyntax

open CharClass Grammar

variable {α β : Type}

/-- What is refused is found out without ending the parse. -/
theorem Grammar.Refuses.steady {P : List Char → Prop} {levels : Nat} {g : Grammar α}
    (h : Refuses P levels g) {t : List Char} (ht : P t) {S : Surroundings} (hfree : S.free t)
    (depth : Nat) : Steady S levels depth (.term g) t none := by
  induction h with
  | plain hg hr => exact .plain hg (hr t ht)
  | bind _ ih => exact .miss ih
  | @pass _ _ _ _ _ b hg hr _ ih =>
    have hread : _ = Place.reading (some (b, t)) := hr t ht
    exact .bind (.plain hg hread) ih
  | optional _ _ ihp ihn => exact .bind (.right (.miss ihp) (.plain trivial rfl)) ihn
  | orElse _ _ ihf ihs => exact .right ihf ihs
  | call _ ih => exact .call hfree ih

namespace Seam

variable {T : Seam} {n : Nat} {u v x y : List Char}

/-- What is refused with either end of the text is missed. -/
theorem misses {P : List Char → Prop} {levels : Nat} {g : Grammar α} (h : Refuses P levels g)
    (hx : x ≠ []) (hw : P (T.was x)) (hn : P (T.now x)) : T.Misses g x := by
  induction h with
  | plain hg hr => exact misses_plain hg (hr _ hw) (hr _ hn)
  | bind _ ih => exact .miss ih
  | @pass _ _ _ first next b hg hr _ ih =>
    have hwas : first.read (T.was x) = .value b (T.was x) := hr _ hw
    exact .bind (.plain hg (hwas ▸ .refl _) (hr _ hn)) ih
  | optional _ _ ihp ihn => exact .bind (.right (.miss ihp) (.plain trivial (.refl _) rfl)) ihn
  | orElse _ _ ihf ihs => exact .right ihf ihs
  | call _ ih => exact .call hx ih

/-- A part does not match where none of its first characters is next. -/
theorem misses_head {chars : CharClass} {levels : Nat} {g : Grammar α} (h : Grammar.OpensWith chars levels g)
    {c : Char} (hc : chars c = false) : T.Misses g (c :: u) :=
  misses h (List.cons_ne_nil c u) hc hc

theorem misses_expect (literal : String) {c : Char}
    (h : literal.toList.head?.any (· != c) = true) : T.Misses (expect literal) (c :: u) :=
  misses_head (Rule.opens_expect literal h : Grammar.OpensWith (· != c) 0 _) (bne_self_eq_false c)

theorem misses_pathComponent {c : Char} (hc : c ≠ '/') : T.Misses pathComponent (c :: u) :=
  .miss (misses_expect "/" (bne_iff_ne.mpr hc.symm))

/-- What is only tried at the seam. -/
theorem Quiet.ready {g : Grammar α} (h : T.Quiet g) : T.Ready g [] := by
  intro n hf
  have hb := Grammar.read_of_soft hf fun hr => nomatch hr
  exact .tail hb h

/-! ## What could go on with an expression -/

/-- An integrity hash behind whitespace. -/
abbrev hashTail : Grammar Digest := do
  whitespace1
  integrityHash

/-- The mode of an import, behind the word in front of it. -/
abbrev modeTail : Grammar ImportMode := do
  whitespace
  keyword "as"
  whitespace1
  importMode

/-- A further argument. -/
abbrev argumentTail : Grammar Expr := do
  whitespace1
  call .importExpression

/-- Nothing goes on with an operand. -/
structure EndsOperand (T : Seam) (y : List Char) : Prop where
  selector : T.Ready selector y
  index : T.Ready variableIndex y
  headers : T.Ready usingClause y
  component : T.Ready pathComponent y
  hash : T.Ready hashTail y
  mode : T.Ready modeTail y
  /-- A colon is that of a type. -/
  colon : ∀ v, y = ':' :: v → v ≠ [] ∧ Whitespace.starts (T.now v) = true
  quote : ∀ v, y ≠ '"' :: v

/-- Nothing goes on with an application. -/
structure EndsApplication (T : Seam) (y : List Char) : Prop extends T.EndsOperand y where
  argument : T.Ready argumentTail y

/-- Nothing goes on with a chain of operators. -/
structure EndsOperation (T : Seam) (y : List Char) : Prop extends T.EndsApplication y where
  tail : T.Ready operatorTail y

/-- Nothing goes on with an expression. -/
structure EndsExpression (T : Seam) (y : List Char) : Prop extends T.EndsOperation y where
  annotation : ∀ {α : Type} (next : Unit → Grammar α), T.Ready (Grammar.colon >>= next) y
  codomain : ∀ {α : Type} (next : Unit → Grammar α), T.Ready (arrow >>= next) y

/-! ## Tokens that end an expression -/

/-- A token that does not go on with an operand. -/
structure StopsOperand (T : Seam) (u : List Char) : Prop where
  token : Token u
  dot : T.Misses (expect ".") u
  index : T.Misses (expect "@") u
  headers : T.Misses (keyword "using") u
  component : T.Misses pathComponent u
  hash : T.Misses integrityHash u
  mode : T.Misses (keyword "as") u
  colon : ∀ v, u = ':' :: v → v ≠ [] ∧ Whitespace.starts (T.now v) = true
  quote : ∀ v, u ≠ '"' :: v

/-- A token that does not go on with an application. -/
structure StopsApplication (T : Seam) (u : List Char) : Prop extends T.StopsOperand u where
  argument : T.Misses (call .importExpression) u

/-- A token that does not go on with a chain of operators. -/
structure StopsOperation (T : Seam) (u : List Char) : Prop extends T.StopsApplication u where
  operator : ∀ p ∈ Operator.spellings, p.text.toList.isPrefixOf (T.was u) = false

/-- A token that does not go on with an expression. -/
structure StopsExpression (T : Seam) (u : List Char) : Prop extends T.StopsOperation u where
  annotation : T.Misses (expect ":") u
  codomain : T.Misses (expectAny Vocabulary.arrowSpellings) u

/-! ## Behind whitespace -/

/-- Whitespace in front of a token takes nothing, or begins with a character of its own. -/
theorem whitespace_head (h : T.Lands n whitespace y () u) (hu : Token u) :
    y = u ∧ Whitespace.starts (T.was y) = false ∨
      (Whitespace.starts (T.was y) = true ∧ u.length < y.length) ∧ ∃ c t, y = c :: t ∧
        " \t\n\r-\x7b".toList.contains c = true := by
  have hr := lands_whitespace h
  cases hc : Whitespace.chunk (T.was y) with
  | none =>
    rw [readBy_whitespace_tight hc] at hr
    exact .inl ⟨was_injective (Reading.value.inj hr).2, by rw [Whitespace.starts, hc]; rfl⟩
  | unclosed =>
    rw [readBy_whitespace_unclosed hc] at hr
    cases hr
  | whole k =>
    have hlt : u.length < y.length := by
      obtain ⟨hpos, hle⟩ := Whitespace.chunk_length hc
      rw [readBy_whitespace_whole hc] at hr
      have hlength := (whitespace_leaves hr).length_le
      rw [List.length_drop, was_length, was_length (x := y)] at hlength
      rw [was_length] at hle
      have hu := List.length_pos_iff.mpr hu.ne_nil
      omega
    refine .inr ⟨⟨by rw [Whitespace.starts, hc]; rfl, hlt⟩, ?_⟩
    have hne : y ≠ [] := by
      rintro rfl
      exact hu.ne_nil (List.suffix_nil.mp h.suffix)
    obtain ⟨c, t, rfl⟩ := List.exists_cons_of_ne_nil hne
    refine ⟨c, t, rfl, ?_⟩
    have hwas : T.was (c :: t) = c :: T.was t := rfl
    rw [hwas] at hc
    unfold Whitespace.chunk at hc
    split at hc <;> rename_i heq <;> simp_all

theorem reads_whitespace (h : T.Lands n whitespace y () u) (hu : Token u) :
    T.Reads whitespace y () u :=
  carries_whitespace (E := fun _ => Token) (fun _ h => h) y () u h hu

/-- What is missed at a token is missed behind whitespace. -/
theorem misses_whitespace (h : T.Lands n whitespace y () u) (hu : Token u) {g : Unit → Grammar α}
    (hg : T.Misses (g ()) u) : T.Misses (whitespace >>= g) y :=
  .bind (reads_whitespace h hu) hg

theorem misses_whitespace1 (h : T.Lands n whitespace y () u) (hu : Token u)
    {g : Unit → Grammar α} (hg : T.Misses (g ()) u) : T.Misses (whitespace1 >>= g) y := by
  cases hs : Whitespace.starts (T.was y) with
  | true =>
    have hone : T.Lands n whitespace1 y () u := by
      change ((if Whitespace.starts (T.was y) = true then whitespace
        else fail "whitespace").soften _).readBy _ (T.was y) = _
      rw [if_pos hs]
      exact h
    exact .bind (carries_whitespace1 (E := fun _ => Token) (fun _ h => h) y () u hone hu) hg
  | false =>
    have hnow := (starts_now h hu).trans hs
    refine .miss (misses_plain (by simp [whitespace1, whitespace]) ?_ ?_)
    · simp only [whitespace1, readBy_bind, readBy_look, Reading.bind_value, hs, Bool.false_eq_true,
        if_false, readBy_fail]
    · simp only [whitespace1, readBy_bind, readBy_look, Reading.bind_value, hnow,
        Bool.false_eq_true, if_false, readBy_fail]

theorem ready_whitespace (h : T.Lands n whitespace y () u) (hu : Token u) {g : Unit → Grammar α}
    (hg : T.Misses (g ()) u) : T.Ready (whitespace >>= g) y :=
  fun _ _ => misses_whitespace h hu hg

theorem ready_whitespace1 (h : T.Lands n whitespace y () u) (hu : Token u)
    {g : Unit → Grammar α} (hg : T.Misses (g ()) u) : T.Ready (whitespace1 >>= g) y :=
  fun _ _ => misses_whitespace1 h hu hg

/-- Behind whitespace, or right in front of a token, nothing goes on with an operand. -/
theorem endsOperand_token (h : T.Lands n whitespace y () u) (hu : Token u)
    (hselector : T.Ready selector y) (hindex : T.Misses (expect "@") u)
    (hheaders : T.Misses (keyword "using") u) (hhash : T.Ready hashTail y)
    (hmode : T.Ready modeTail y)
    (hnext : y = u → T.Misses pathComponent u ∧
      (∀ v, u = ':' :: v → v ≠ [] ∧ Whitespace.starts (T.now v) = true) ∧ ∀ v, u ≠ '"' :: v) :
    T.EndsOperand y := by
  have hadjacent : T.Ready pathComponent y ∧
      (∀ v, y = ':' :: v → v ≠ [] ∧ Whitespace.starts (T.now v) = true) ∧ ∀ v, y ≠ '"' :: v := by
    obtain ⟨rfl, -⟩ | ⟨-, c, t, rfl, hc⟩ := whitespace_head h hu
    · obtain ⟨hp, hcolon, hquote⟩ := hnext rfl
      exact ⟨fun _ _ => hp, hcolon, hquote⟩
    · have hne : ∀ d, " \t\n\r-\x7b".toList.contains d = false → c ≠ d := by
        rintro d hd rfl
        rw [hc] at hd
        cases hd
      refine ⟨fun _ _ => misses_pathComponent (hne _ (by decide)), ?_, ?_⟩
      · exact fun v hv => absurd (List.cons.inj hv).1 (hne _ (by decide))
      · exact fun v hv => hne '"' (by decide) (List.cons.inj hv).1
  exact {
    selector := hselector
    index := ready_whitespace h hu (.miss hindex)
    headers := ready_whitespace h hu (.miss hheaders)
    component := hadjacent.1
    hash := hhash
    mode := hmode
    colon := hadjacent.2.1
    quote := hadjacent.2.2 }

theorem StopsOperand.ends (hs : T.StopsOperand u) (h : T.Lands n whitespace y () u) :
    T.EndsOperand y :=
  endsOperand_token h hs.token (ready_whitespace h hs.token (.miss hs.dot)) hs.index hs.headers
    (ready_whitespace1 h hs.token hs.hash) (ready_whitespace h hs.token (.miss hs.mode))
    fun _ => ⟨hs.component, hs.colon, hs.quote⟩

theorem StopsApplication.misses_argumentTail (hs : T.StopsApplication u)
    (h : T.Lands n whitespace y () u) : T.Misses argumentTail y :=
  misses_whitespace1 h hs.token hs.argument

theorem StopsApplication.ends (hs : T.StopsApplication u) (h : T.Lands n whitespace y () u) :
    T.EndsApplication y where
  toEndsOperand := hs.toStopsOperand.ends h
  argument := fun _ _ => hs.misses_argumentTail h

theorem spellings_unbroken : ∀ p ∈ Operator.spellings, Unbroken p.text.toList := by decide

theorem StopsOperation.misses_binaryOperator (hs : T.StopsOperation u)
    (h : T.Lands n whitespace y () u) : T.Misses binaryOperator y := by
  apply Same.bind (reads_whitespace h hs.token)
  have hfind : ∀ s, (∀ p ∈ Operator.spellings, p.text.toList.isPrefixOf s = false) →
      (Operator.spellings.find? fun p => p.text.toList.isPrefixOf s) = none := by
    intro s hp
    exact List.find?_eq_none.mpr fun p hm => Bool.eq_false_iff.mp (hp p hm)
  have hnow := hfind _ fun p hp => isPrefixOf_was (spellings_unbroken p hp) (hs.operator p hp)
  exact .bind (reads_look (hfind _ hs.operator) hnow) (misses_plain trivial rfl rfl)

theorem StopsOperation.ends (hs : T.StopsOperation u) (h : T.Lands n whitespace y () u) :
    T.EndsOperation y where
  toEndsApplication := hs.toStopsApplication.ends h
  tail := fun _ _ => .miss (hs.misses_binaryOperator h)

theorem StopsExpression.ends (hs : T.StopsExpression u) (h : T.Lands n whitespace y () u) :
    T.EndsExpression y where
  toEndsOperation := hs.toStopsOperation.ends h
  annotation := fun _ _ _ => .miss (.bind (reads_whitespace h hs.token) (.miss hs.annotation))
  codomain := fun _ _ _ => .miss (.bind (reads_whitespace h hs.token) (.miss hs.codomain))

/-! ## The tokens -/

theorem misses_keyword (word : String) {c : Char}
    (h : word.toList.head?.any (· != c) = true) : T.Misses (keyword word) (c :: u) :=
  misses_head (Rule.opens_keyword word h : Grammar.OpensWith (· != c) 0 _) (bne_self_eq_false c)

theorem readBy_integrityHash_of_word {rules : RuleReader} {s : List Char}
    (h : "sha256:".toList.isPrefixOf s = false) : integrityHash.readBy rules s = .mismatch := by
  simp only [integrityHash, readBy_bind, readBy_look, Reading.bind_value, h, Bool.false_and,
    Bool.false_eq_true, if_false, readBy_expect, Reading.bind_mismatch]

theorem misses_integrityHash {c : Char} (hc : c ≠ 's') : T.Misses integrityHash (c :: u) := by
  have hword : ∀ t, "sha256:".toList.isPrefixOf (c :: t) = false := by
    intro t
    have hs : "sha256:".toList = 's' :: "ha256:".toList := by decide
    rw [hs, List.isPrefixOf, beq_false_of_ne (Ne.symm hc), Bool.false_and]
  exact misses_plain (by simp [integrityHash]) (readBy_integrityHash_of_word (hword _))
    (readBy_integrityHash_of_word (hword _))

theorem misses_arrow {c : Char} (h : c ≠ '→') (h' : c ≠ '-') :
    T.Misses (expectAny Vocabulary.arrowSpellings) (c :: u) := by
  have hopens : Grammar.OpensWith (fun d => d == '→' || d == '-') 0
      (expectAny Vocabulary.arrowSpellings) := Rule.opens_expectAny (by decide)
  exact misses_head hopens (by simp [h, h'])

/-- A token that begins with no character of what may go on with an operand. -/
theorem stopsOperand_head {c : Char} (hc : ".@usa\"\r".toList.contains c = false)
    (hp : T.Misses pathComponent (c :: u))
    (hcolon : c = ':' → u ≠ [] ∧ Whitespace.starts (T.now u) = true) :
    T.StopsOperand (c :: u) := by
  have hne : ∀ d ∈ ".@usa\"\r".toList, d ≠ c := by
    rintro d hd rfl
    exact absurd hd (by rw [← List.contains_iff_mem, hc]; exact Bool.false_ne_true)
  simp only [String.reduceToList, List.forall_mem_cons] at hne
  obtain ⟨hdot, hat, hu, hs, ha, hq, hr, -⟩ := hne
  exact {
    token := ⟨c, u, rfl, hr.symm⟩
    dot := misses_expect "." (bne_iff_ne.mpr hdot)
    index := misses_expect "@" (bne_iff_ne.mpr hat)
    headers := misses_keyword "using" (bne_iff_ne.mpr hu)
    component := hp
    hash := misses_integrityHash hs.symm
    mode := misses_keyword "as" (bne_iff_ne.mpr ha)
    colon := fun v hv => by
      obtain ⟨rfl, rfl⟩ := List.cons.inj hv
      exact hcolon rfl
    quote := fun v hv => hq (List.cons.inj hv).1.symm }

/-- A token that begins with no character of an operand either. -/
theorem stopsApplication_head {c : Char} (hc : ".@usa\"\r".toList.contains c = false)
    (ho : operandStart c = false)
    (hcolon : c = ':' → u ≠ [] ∧ Whitespace.starts (T.now u) = true) :
    T.StopsApplication (c :: u) where
  toStopsOperand := by
    refine stopsOperand_head hc (misses_pathComponent ?_) hcolon
    rintro rfl
    cases ho
  argument := misses_head Rule.opens_importExpression ho

/-- The characters that operators are written with begin. -/
def operatorStart : CharClass := "/+|&=!⩓⫽∧?#*".toList.contains

theorem isPrefixOf_operator {c : Char} (h : operatorStart c = false) :
    ∀ p ∈ Operator.spellings, p.text.toList.isPrefixOf (T.was (c :: u)) = false := by
  intro p hp
  have hall : ∀ p ∈ Operator.spellings, p.text.toList.head?.any operatorStart = true := by decide
  exact isPrefixOf_of_head (hall p hp) h

theorem stopsOperation_head {c : Char} (hc : ".@usa\"\r".toList.contains c = false)
    (ho : operandStart c = false) (hop : operatorStart c = false)
    (hcolon : c = ':' → u ≠ [] ∧ Whitespace.starts (T.now u) = true) :
    T.StopsOperation (c :: u) where
  toStopsApplication := stopsApplication_head hc ho hcolon
  operator := isPrefixOf_operator hop

/-- The colon in front of a type. -/
theorem stopsOperation_colon (hu : u ≠ []) (h : Whitespace.starts (T.now u) = true) :
    T.StopsOperation (':' :: u) :=
  stopsOperation_head (by decide) (by decide) (by decide) fun _ => ⟨hu, h⟩

theorem stopsExpression_head {c : Char} (hc : c ∈ [')', ']', '}', '>', ',']) :
    T.StopsExpression (c :: u) := by
  have hall : ∀ c ∈ [')', ']', '}', '>', ','], ".@usa\"\r".toList.contains c = false ∧
      operandStart c = false ∧ operatorStart c = false ∧ c ≠ ':' ∧ c ≠ '→' ∧ c ≠ '-' :=
    forall_mem_of_all (by decide)
  obtain ⟨hstop, ho, hop, hcolon, harrow, hminus⟩ := hall c hc
  exact {
    toStopsOperation := stopsOperation_head hstop ho hop fun he => absurd he hcolon
    annotation := misses_expect ":" (bne_iff_ne.mpr hcolon.symm)
    codomain := misses_arrow harrow hminus }

/-- A mark that would be an operator if it stood there twice. -/
theorem stopsExpression_mark {c d : Char} (hc : c ∈ ['|', '=']) (hd : d ≠ c) :
    T.StopsExpression (c :: d :: u) := by
  have hall : ∀ c ∈ ['|', '='], ".@usa\"\r".toList.contains c = false ∧
      operandStart c = false ∧ c ≠ ':' ∧ c ≠ '→' ∧ c ≠ '-' ∧
      ∀ p ∈ Operator.spellings, p.text.toList.head? = some c → p.text.toList = [c, c] :=
    forall_mem_of_all (by decide)
  obtain ⟨hstop, ho, hcolon, harrow, hminus, htwice⟩ := hall c hc
  exact {
    toStopsApplication := stopsApplication_head hstop ho fun he => absurd he hcolon
    operator := by
      intro p hp
      have hne : ∀ p ∈ Operator.spellings, p.text.toList ≠ [] := by decide
      obtain ⟨e, t, ht⟩ := List.exists_cons_of_ne_nil (hne p hp)
      by_cases he : e = c
      · have htext := htwice p hp (by rw [ht, he]; rfl)
        have hdc : (c == d) = false := beq_false_of_ne hd.symm
        have hwas : T.was (c :: d :: u) = c :: d :: T.was u := rfl
        rw [htext, hwas, List.isPrefixOf, List.isPrefixOf, hdc, Bool.false_and, Bool.and_false]
      · have hwas : T.was (c :: d :: u) = c :: d :: T.was u := rfl
        rw [ht, hwas, List.isPrefixOf, beq_false_of_ne he, Bool.false_and]
    annotation := misses_expect ":" (bne_iff_ne.mpr hcolon.symm)
    codomain := misses_arrow harrow hminus }

/-- The arrow in front of the result of a function. -/
theorem stopsOperation_arrow {spelling : String} (h : spelling ∈ Vocabulary.arrowSpellings) :
    T.StopsOperation (spelling.toList ++ u) := by
  simp only [Vocabulary.arrowSpellings, List.mem_cons, List.not_mem_nil, or_false] at h
  obtain rfl | rfl := h
  · exact stopsOperation_head (by decide) (by decide) (by decide) fun he => nomatch he
  · have hsign : ∀ t, BareSign ('-' :: '>' :: t) := fun t => ⟨'-', '>' :: t, rfl, .inr rfl, rfl⟩
    have hoperand : T.StopsOperand ('-' :: '>' :: u) :=
      stopsOperand_head (by decide) (misses_pathComponent (by decide)) fun he => nomatch he
    exact {
      toStopsOperand := hoperand
      argument := misses Rule.refuses_importExpression_sign (List.cons_ne_nil _ _)
        (hsign (T.was u)) (hsign (T.now u))
      operator := isPrefixOf_operator (by decide) }

/-- An operator. -/
theorem stopsApplication_operator {p : Operator.Spelling} (hp : p ∈ Operator.spellings)
    (hw : p.needsWhitespace = true → ∃ c t, u = c :: t ∧ " \t\n\r-\x7b".toList.contains c = true) :
    T.StopsApplication (p.text.toList ++ u) := by
  have hslash : ∀ d, path d = false → d ≠ '"' → ∀ v, T.StopsApplication ('/' :: d :: v) := by
    intro d hd hq v
    have hbare : ∀ t, BareSlash ('/' :: d :: t) := fun t => ⟨d, t, rfl, hd, hq⟩
    have hoperand : T.StopsOperand ('/' :: d :: v) :=
      stopsOperand_head (by decide)
        (misses_plain (by simp [Grammar.pathComponent]) (readBy_pathComponent_slash (hbare (T.was v)))
          (readBy_pathComponent_slash (hbare (T.now v)))) fun he => by cases he
    exact {
      toStopsOperand := hoperand
      argument := misses Rule.refuses_importExpression_slash (List.cons_ne_nil _ _)
        (hbare (T.was v)) (hbare (T.now v)) }
  have hplus : ∀ d, (digit d || d == 'I') = false → ∀ v, T.StopsApplication ('+' :: d :: v) := by
    intro d hd v
    have hbare : ∀ t, BareSign ('+' :: d :: t) := fun t => ⟨'+', d :: t, rfl, .inl rfl, hd⟩
    have hoperand : T.StopsOperand ('+' :: d :: v) :=
      stopsOperand_head (by decide) (misses_pathComponent (by decide)) fun he => by cases he
    exact {
      toStopsOperand := hoperand
      argument := misses Rule.refuses_importExpression_sign (List.cons_ne_nil _ _)
        (hbare (T.was v)) (hbare (T.now v)) }
  have hhead : ∀ {c : Char} {v : List Char}, ".@usa\"\r:".toList.contains c = false →
      operandStart c = false → T.StopsApplication (c :: v) := by
    intro c v hc ho
    refine stopsApplication_head ?_ ho fun he => ?_
    · rw [← Bool.not_eq_true, List.contains_iff_mem] at hc ⊢
      exact fun hm => hc (List.mem_append_left [':'] hm)
    · subst he
      cases hc
  simp only [Operator.spellings, List.mem_cons, List.not_mem_nil, or_false] at hp
  obtain rfl | rfl | rfl | rfl | rfl | rfl | rfl | rfl | rfl | rfl | rfl | rfl | rfl | rfl | rfl := hp
  · exact hslash _ (by decide) (by decide) _
  · exact hslash _ (by decide) (by decide) _
  · exact hslash _ (by decide) (by decide) _
  · exact hplus _ (by decide) _
  · exact hhead (by decide) (by decide)
  · exact hhead (by decide) (by decide)
  · exact hhead (by decide) (by decide)
  · exact hhead (by decide) (by decide)
  · exact hhead (by decide) (by decide)
  · exact hhead (by decide) (by decide)
  · exact hhead (by decide) (by decide)
  · obtain ⟨c, t, rfl, hc⟩ := hw rfl
    have hall : ∀ c ∈ " \t\n\r-\x7b".toList, (digit c || c == 'I') = false :=
      forall_mem_of_all (by decide)
    exact hplus c (hall c (List.contains_iff_mem.mp hc)) t
  · exact hhead (by decide) (by decide)
  · exact hhead (by decide) (by decide)
  · exact hhead (by decide) (by decide)

/-- The words that stand between the parts of an expression. -/
theorem stopsExpression_keyword {word : String} (hw : word ∈ ["then", "else", "in", "let"])
    (hu : (T.was u).head?.any labelContinue = false) : T.StopsExpression (word.toList ++ u) := by
  have hall : ∀ word ∈ ["then", "else", "in", "let"], word.toList.all labelContinue = true ∧
      word.toList.head?.any labelStart = true ∧ Vocabulary.isKeyword word = true ∧
      word.toList ∉ ["missing".toList, "Infinity".toList, "NaN".toList] ∧
      word.toList.head?.any (fun c => !".@usa\"\r:/-→".toList.contains c && !operatorStart c) =
        true := by decide
  obtain ⟨hcontinue, hstart, hkeyword, hno, hhead⟩ := hall word hw
  have hmark : ∀ t, t.head?.any labelContinue = false → BeginsMark (word.toList ++ t) := by
    intro t ht
    obtain ⟨hword, -⟩ := wordOf_append hcontinue ht
    obtain ⟨c, s, hs, hc⟩ := head?_of_any hstart
    exact {
      start := by rw [hs]; exact hc
      isKeyword := by rw [hword, String.ofList_toList]; exact hkeyword
      noOperand := by rw [hword]; exact hno }
  obtain ⟨c, s, hs, hc⟩ := head?_of_any hhead
  simp only [Bool.and_eq_true, Bool.not_eq_true'] at hc
  have hne : ∀ d ∈ ".@usa\"\r:/-→".toList, d ≠ c := by
    rintro d hd rfl
    exact absurd hd (by rw [← List.contains_iff_mem, hc.1]; exact Bool.false_ne_true)
  have hargument : T.Misses (call .importExpression) (word.toList ++ u) := by
    refine misses Rule.refuses_importExpression ?_ ?_ ?_
    · rw [hs]
      exact List.cons_ne_nil _ _
    · rw [was_append]
      exact hmark _ hu
    · rw [now_append]
      exact hmark _ (head_was labelContinue_unbroken hu)
  rw [hs] at hargument ⊢
  have hstop : ".@usa\"\r".toList.contains c = false := by
    rw [← Bool.not_eq_true, List.contains_iff_mem]
    exact fun hm => hne c (List.mem_append_left ":/-→".toList hm) rfl
  have hoperand : T.StopsOperand (c :: (s ++ u)) :=
    stopsOperand_head hstop (misses_pathComponent (hne '/' (by decide)).symm)
      fun he => absurd he.symm (hne ':' (by decide))
  exact {
    toStopsOperand := hoperand
    argument := hargument
    operator := isPrefixOf_operator hc.2
    annotation := misses_expect ":" (bne_iff_ne.mpr (hne ':' (by decide)))
    codomain := misses_arrow (hne '→' (by decide)).symm (hne '-' (by decide)).symm }

end Seam

end DhallSyntax
