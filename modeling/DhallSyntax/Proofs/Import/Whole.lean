import DhallSyntax.Proofs.Lexical.Words
import DhallSyntax.Proofs.Reading.Imports

/-!
Sources that are one import, which is a path or a URL and has neither a hash nor a mode. Main
statements:

* `parse_localPath`: a local path decodes component by component, whatever its components look like;
* `parse_url`: a URL that can be written is parsed from its spelling;
* `importClause_of_parse`: a source that begins as URLs do and is an import is read as one from its
  first character on.
-/

namespace DhallSyntax

open Grammar CharClass

variable {S : Surroundings} {levels depth : Nat} {s t : List Char} {settings : Settings}

/-! ## From the kind of an import to the whole source -/

/-- The characters that paths, URLs and environment variables begin with. -/
abbrev addressStart : String := "./~eh"

/-- No other form of expressions begins as addresses do. -/
theorem Lone.of_address (hfree : S.free s)
    (h : s.head?.any addressStart.toList.contains = true) : Lone S s := by
  have hmisses : ∀ text : List Char, addressStart.toList.all (fun c => !text.contains c) = true →
      s.head?.any text.contains = false := by
    intro text htext
    refine head?_any_disjoint (fun c hc => ?_) h
    simpa using List.all_eq_true.mp htext c (List.contains_iff_mem.mp hc)
  have hwords : ∀ word ∈ leadWords, word.toList.head?.any "ilfmSt".toList.contains = true := by
    decide
  exact
    { free := hfree
      tight := Whitespace.tight_of_head (hmisses _ (by decide))
      noMark := hmisses _ (by decide)
      noWord := fun word hword _ _ _ _ _ => .miss (.plain (by simp)
        (beginsWith_keyword word (hwords word hword) s (hmisses _ (by decide)))) }

/-- A source that is read as the kind of an import, up to its end, is that import. -/
theorem parse_importKind (h : settings.Ample)
    (hs : s.head?.any addressStart.toList.contains = true) {kind : ImportKind String}
    (hkind : Steady .single 2 1 (.term (call .importType)) s (some (kind, []))) :
    parse settings (String.ofList s) = .ok (.embedded (.mk kind none .code)) := by
  have hclause : Steady .single 4 1 (.term (call .importClause)) s
      (some (.mk kind none .code, [])) := steady_importClause trivial .nothing hkind
  have himport : Steady .single 5 1 (.term (call .importExpression)) s
      (some (.embedded (.mk kind none .code), [])) :=
    .call trivial (.left (.bind hclause (.plain trivial rfl)))
  exact (parse_operand h (.of_address trivial hs) endsOperand_end himport).1 _ rfl

theorem steady_no_missing (hs : s.head?.any addressStart.toList.contains = true) :
    Steady S levels depth (.term (keyword "missing")) s none := by
  have hm : "missing".toList.head?.any "m".toList.contains = true := by decide
  refine .plain (by simp) (beginsWith_keyword "missing" hm s ?_)
  exact head?_any_disjoint (not_contains (by decide)) hs

/-! ## Local paths -/

theorem anchor_head (a : Anchor) {parts : List PathPart} (hne : parts ≠ []) :
    (Rendering.anchor a ++ parts.flatMap PathPart.chars).head?.any "./~".toList.contains =
      true := by
  obtain ⟨part, rest, rfl⟩ := List.exists_cons_of_ne_nil hne
  rw [List.flatMap_cons]
  cases a <;> cases part <;> rfl

/-- A local path decodes component by component. Each of them may be written plainly or in quotes,
and may look like an anchor, an operator, a keyword, a number or a URL. -/
theorem parse_localPath (h : settings.Ample) (a : Anchor) {parts : List PathPart}
    (hne : parts ≠ []) (hparts : ∀ part ∈ parts, part.Valid ∧ part.text ≠ "") :
    parse settings (String.ofList (Rendering.anchor a ++ parts.flatMap PathPart.chars)) =
      .ok (.embedded (.mk (.path a (parts.map PathPart.text)) none .code)) := by
  have hhead := anchor_head a hne
  have hstart : (Rendering.anchor a ++ parts.flatMap PathPart.chars).head?.any
      addressStart.toList.contains = true := by
    obtain ⟨c, t, ht, hc⟩ := head?_of_any hhead
    have hall : "./~".toList.all addressStart.toList.contains = true := by decide
    rw [ht]
    exact List.all_eq_true.mp hall c (List.contains_iff_mem.mp hc)
  have hread : Rule.localImport.read (Rendering.anchor a ++ (parts.flatMap PathPart.chars ++ [])) =
      .value (.path a (parts.map PathPart.text)) [] := by
    refine read_localImport_parts (mt List.map_eq_nil_iff.mp hne)
      ⟨rfl, fun part hpart => (hparts part hpart).1⟩ ?_ fun _ hc => by cases hc
    exact List.forall_mem_map.mpr fun part hpart => (hparts part hpart).2
  rw [List.append_nil, Rule.read_eq] at hread
  refine parse_importKind h hstart (.call trivial ?_)
  refine .right (.miss (steady_no_missing hstart)) (.left (.call trivial (.plain ?_ hread)))
  simp [Rule.body, localImport, anchor, doesOnly_pathComponent]

/-- Components that look like a blank in a label, the beginning of a URL, a variable with an index,
a keyword, an anchor and an empty list. -/
theorem parse_localPath_looks :
    parse .standard "../\"a b\"/https:/x@1/if/../\"[]\"" = .ok (.embedded (.mk
      (.path .parent ["a b", "https:", "x@1", "if", "..", "[]"]) none .code)) :=
  @parse_localPath .standard Settings.ample_standard .parent
    [.quoted "a b", .plain "https:", .plain "x@1", .plain "if", .plain "..", .quoted "[]"]
    (by decide) (by decide)

/-! ## URLs -/

/-- A URL with no headers behind it is read part by part. -/
theorem steady_httpImport {u : Url String} (h : urlAddress.read s = .value u t)
    (ht : Steady S levels depth (.term (optional? usingClause)) t (some (none, t))) :
    Steady S levels depth (.term httpImport) s (some (.url u, t)) := by
  obtain ⟨scheme, s₁, hscheme, h₁⟩ := Reading.bind_eq_value.mp h
  obtain ⟨_, s₂, hmark, h₂⟩ := Reading.bind_eq_value.mp h₁
  obtain ⟨user, s₃, huser, h₃⟩ := Reading.bind_eq_value.mp h₂
  obtain ⟨host, s₄, hhost, h₄⟩ := Reading.bind_eq_value.mp h₃
  obtain ⟨port, s₅, hport, h₅⟩ := Reading.bind_eq_value.mp h₄
  obtain ⟨path, s₆, hpath, h₆⟩ := Reading.bind_eq_value.mp h₅
  obtain ⟨query, s₇, hquery, h₇⟩ := Reading.bind_eq_value.mp h₆
  obtain ⟨rfl, rfl⟩ := Reading.value.inj h₇
  refine .bind (.plain (by simp [Grammar.scheme]) hscheme) (.bind (.plain (by simp) hmark) ?_)
  refine .bind (.plain (by simp [userinfo, takeLength]) huser) ?_
  refine .bind (.plain doesOnly_host hhost) (.bind (.plain (doesOnly_marked _ _) hport) ?_)
  refine .bind (.plain doesOnly_urlPath hpath) (.bind (.plain (doesOnly_marked _ _) hquery) ?_)
  exact .bind ht (.plain trivial rfl)

/-- A URL is parsed from its spelling, whichever of its components stand in quotes. -/
theorem parse_url (h : settings.Ample) {u : Url String} (hu : ImportModel.readable.address u)
    {parts : List PathPart} (hparts : PathPart.Spell parts u.path) :
    parse settings (String.ofList (u.spelled parts)) =
      .ok (.embedded (.mk (.url u) none .code)) := by
  have hread : urlAddress.read (u.spelled parts ++ []) = .value u [] :=
    readBy_urlAddress hu hparts fun _ hc => by cases hc
  have hhead := spelled_head u parts []
  rw [List.append_nil] at hread hhead
  have hstart : (u.spelled parts).head?.any addressStart.toList.contains = true := by
    rw [hhead]
    rfl
  have hlocal : (u.spelled parts).head?.any Rule.localImport.first = false := by
    rw [hhead]
    rfl
  have hend : EndsOperand [] := .nothing
  have husing : Steady .single 0 1 (.term (optional? usingClause)) [] (some (none, [])) :=
    .right (.miss (.bind hend.space (.miss (hend.noKeyword (by decide))))) (.plain trivial rfl)
  refine parse_importKind h hstart (.call trivial ?_)
  refine .right (.miss (steady_no_missing hstart)) (.right ?_ (.left (.call trivial ?_)))
  · exact (Rule.opens_localImport.steady hlocal trivial 1).mono (by decide)
  · exact steady_httpImport hread husing

/-! ## Sources that are imports -/

/-- Where a part reads an import and nothing else, the import is there. -/
def ReadsImport (s : List Char) (g : Grammar Expr) : Prop :=
  ∀ i t, g.read s = .value (.embedded i) t → ∃ u, Rule.importClause.read s = .value i u

namespace ReadsImport

variable {g : Grammar Expr}

theorem of_mismatch (h : g.read s = .mismatch) : ReadsImport s g := by
  intro i t hi
  rw [h] at hi
  cases hi

/-- A rule reads what its body does. -/
theorem of_eq {body : Grammar Expr} (he : g.read s = body.read s) (h : ReadsImport s body) :
    ReadsImport s g :=
  fun i t hi => h i t (he.symm.trans hi)

theorem of_yields (h : g.Yields Rule.read fun e => ∀ i, e ≠ .embedded i) : ReadsImport s g :=
  fun i t hi => absurd rfl (h s _ t hi i)

theorem choice {alternatives : List (Grammar Expr)}
    (h : ∀ g ∈ alternatives, ReadsImport s g) : ReadsImport s (choice alternatives) := by
  induction alternatives with
  | nil => exact of_mismatch rfl
  | cons g rest ih =>
    obtain ⟨hg, hrest⟩ := List.forall_mem_cons.mp h
    intro i t hi
    obtain hi | ⟨-, hi⟩ := Reading.orElse_eq_value.mp hi
    · exact hg i t hi
    · exact ih hrest i t hi

/-- What goes on with an expression yields an import only if that is one already. -/
theorem bind {next : Expr → Grammar Expr} (h : ReadsImport s g)
    (hn : ∀ e, (next e).Yields Rule.read fun e' => ∀ i, e' = .embedded i → e = .embedded i) :
    ReadsImport s (g >>= next) := by
  intro i t hi
  obtain ⟨e, u, he, hi⟩ := Reading.bind_eq_value.mp hi
  obtain rfl := hn e u _ t hi i rfl
  exact h i u he

end ReadsImport

theorem yields_identifier_plain :
    identifier.Yields Rule.read fun e => ∀ i, e ≠ .embedded i := by
  refine .behind fun name? => ?_
  cases name? with
  | none =>
    refine .behind fun word => .behind fun startsLabel => ?_
    split
    · exact yields_fail _
    · exact .behind fun _ => yields_pure fun _ he => by cases he
  | some name => exact .behind fun _ => yields_pure fun _ he => by cases he

/-- A closed chain with an operator in it is an operation. -/
theorem Pending.exists_operation (before : List (Expr × Operator)) (op : Operator)
    (left right : Expr) : ∃ op' left' right',
      (closeFrom Tree.operation 0 before (.operation op left right)).last =
        .operation op' left' right' := by
  induction before generalizing op left right with
  | nil => exact ⟨op, left, right, rfl⟩
  | cons p before ih =>
    rw [closeFrom, if_pos (Nat.zero_le _)]
    exact ih ..

theorem Pending.close_push (chain : Pending Expr) (op : Operator) (right : Expr) :
    ∃ op' left' right', (chain.push Tree.operation op right).close Tree.operation =
      .operation op' left' right' := by
  rw [push, close, closeFrom, if_pos (Nat.zero_le _)]
  exact exists_operation ..

section Source

variable (hs : s.head? = some 'h')

include hs

theorem readsImport_selector : ReadsImport s (call .selectorExpression) := by
  have hprimitive : ReadsImport s (call .primitiveExpression) := by
    refine .of_eq (Rule.read_eq .primitiveExpression s) (.choice ?_)
    simp only [List.forall_mem_cons]
    refine ⟨.of_yields ?_, .of_yields ?_, .of_yields ?_,
      .of_mismatch (Rule.read_of_head hs .textLiteral rfl),
      .of_mismatch (Rule.read_of_head hs .recordExpression rfl),
      .of_mismatch (Rule.read_of_head hs .unionType rfl),
      .of_mismatch (Rule.read_of_head hs .listLiteral rfl), ?_, .of_mismatch ?_,
      fun _ h => nomatch h⟩
    · exact .behind fun _ => yields_pure fun _ he => by cases he
    · exact .behind fun _ => yields_pure fun _ he => by cases he
    · exact .behind fun _ => yields_pure fun _ he => by cases he
    · exact .of_eq (Rule.read_eq .identifier s) (.of_yields yields_identifier_plain)
    · have hparen : "(".toList.head?.any "(".toList.contains = true := by decide
      have hopen : (expect "(").read s = .mismatch :=
        beginsWith_expect "(" hparen s (by rw [hs]; rfl)
      exact congrArg (Reading.bind · _) hopen
  refine .of_eq (Rule.read_eq .selectorExpression s) (.bind hprimitive fun record => ?_)
  refine .foldMany (.any _) (fun _ he => he) ?_
  intro e selector _ _ i he
  cases selector <;> cases he

theorem readsImport_import : ReadsImport s (call .importExpression) := by
  refine .of_eq (Rule.read_eq .importExpression s) (.choice ?_)
  simp only [List.forall_mem_cons]
  refine ⟨?_, readsImport_selector hs, fun _ h => nomatch h⟩
  intro i t hi
  obtain ⟨i', u, hclause, hvalue⟩ := Reading.bind_eq_value.mp hi
  obtain ⟨he, rfl⟩ := Reading.value.inj hvalue
  cases he
  exact ⟨u, hclause⟩

theorem readsImport_application : ReadsImport s (call .applicationExpression) := by
  have hword : NoApplicationWord s := noApplicationWord_of_first (by rw [hs]; rfl)
  have hfirst : ReadsImport s (call .firstApplicationExpression) := by
    refine .of_eq (Rule.read_eq .firstApplicationExpression s) (.choice ?_)
    simp only [List.forall_mem_cons]
    refine ⟨.of_mismatch ?_, .of_mismatch ?_, .of_mismatch ?_, readsImport_import hs,
      fun _ h => nomatch h⟩
    · exact congrArg (Reading.bind · _) hword.merge
    · exact congrArg (Reading.bind · _) hword.some
    · exact congrArg (Reading.bind · _) hword.toMap
  refine .of_eq (Rule.read_eq .applicationExpression s) (.bind hfirst fun function => ?_)
  exact .foldMany (.any _) (fun _ he => he) fun _ _ _ _ _ he => by cases he

theorem readsImport_operator : ReadsImport s (call .operatorExpression) := by
  refine .of_eq (Rule.read_eq .operatorExpression s)
    (.bind (readsImport_application hs) fun first => ?_)
  -- Behind the first operator the chain is closed to an operation.
  refine .bind (Q := fun chain => ∀ i, chain.close Tree.operation = .embedded i →
    first = .embedded i) (.foldMany (.any _) (fun _ he => he) ?_) fun _ hchain => yields_pure hchain
  intro chain tail _ _ i he
  obtain ⟨op, left, right, hclose⟩ := chain.close_push tail.1 tail.2
  rw [hclose] at he
  cases he

theorem readsImport_expression : ReadsImport s (call .expression) := by
  refine .of_eq (Rule.read_eq .expression s) (.choice ?_)
  simp only [List.forall_mem_cons]
  refine ⟨.of_mismatch (Rule.read_of_head hs .lambdaExpression rfl),
    .of_mismatch (Rule.read_of_head hs .ifExpression rfl),
    .of_mismatch (Rule.read_of_head hs .letExpression rfl),
    .of_mismatch (Rule.read_of_head hs .forallExpression rfl), ?_,
    .of_mismatch (Rule.read_of_head hs .mergeExpression rfl),
    .of_mismatch (Rule.read_of_head hs .emptyListExpression rfl),
    .of_mismatch (Rule.read_of_head hs .toMapExpression rfl), ?_, fun _ h => nomatch h⟩
  · refine .of_eq (Rule.read_eq .arrowExpression s) (.of_yields ?_)
    exact .behind fun _ => .behind fun _ => .behind fun _ => yields_pure fun _ he => by cases he
  · refine .of_eq (Rule.read_eq .annotatedExpression s)
      (.bind (readsImport_operator hs) fun subject => ?_)
    refine .behind fun type? => ?_
    cases type? with
    | none => exact yields_pure fun _ he => he
    | some type => exact yields_pure fun _ he => by cases he

end Source

/-- A source that begins as URLs do and is an import is read as one from its first character. -/
theorem importClause_of_parse {source : String} {i : Import String}
    (hs : source.toList.head? = some 'h') (h : parse settings source = .ok (.embedded i)) :
    ∃ t, Rule.importClause.read source.toList = .value i t := by
  have htight : Whitespace.Tight source.toList :=
    Whitespace.tight_of_head (by rw [hs]; rfl)
  have hread := parse_ok h
  obtain ⟨_, s, hspace, hbehind⟩ := Reading.bind_eq_value.mp hread
  obtain ⟨-, rfl⟩ := Reading.value.inj ((readBy_whitespace_tight htight).symm.trans hspace)
  obtain ⟨e, t, he, hend⟩ := Reading.bind_eq_value.mp hbehind
  obtain ⟨_, u, -, hvalue⟩ := Reading.bind_eq_value.mp hend
  obtain ⟨rfl, -⟩ := Reading.value.inj hvalue
  exact readsImport_expression hs i t he

theorem Url.sent_inj {u u' : Url String} {headers headers' : Option (Import String)}
    (h : u.sent headers = u'.sent headers') : u = u' := by
  cases headers <;> cases headers' <;> cases h <;> rfl

/-- Behind what begins as URLs do the rule for them is the only one that matches. -/
theorem read_httpImport_of_importType {kind : ImportKind String} (hs : s.head? = some 'h')
    (h : Rule.importType.read s = .value kind t) : Rule.httpImport.read s = .value kind t := by
  rw [read_importType (by rw [hs]; rfl), Rule.read_of_head hs .localImport rfl,
    Reading.orElse_mismatch, Rule.read_of_head hs .envImport rfl, Reading.orElse_mismatch] at h
  obtain h | ⟨-, h⟩ := Reading.orElse_eq_value.mp h
  · exact h
  · cases h

/-- The URL of an import is read from where the import begins. -/
theorem urlAddress_of_importClause {i : Import String} {u : Url String}
    {headers : Option (Import String)} (hs : s.head? = some 'h') (hi : i.kind = u.sent headers)
    (h : Rule.importClause.read s = .value i t) : ∃ v, urlAddress.read s = .value u v := by
  have hclause : Grammar.importClause.read s = .value i t :=
    (Rule.read_eq .importClause s).symm.trans h
  obtain ⟨hashed, s₁, hhashed, hmode⟩ := Reading.bind_eq_value.mp hclause
  obtain ⟨mode, s₂, -, hvalue⟩ := Reading.bind_eq_value.mp hmode
  obtain ⟨rfl, rfl⟩ := Reading.value.inj hvalue
  have hbody : Grammar.importHashed.read s = .value hashed s₁ :=
    (Rule.read_eq .importHashed s).symm.trans hhashed
  obtain ⟨kind, s₃, hkind, hhash⟩ := Reading.bind_eq_value.mp hbody
  obtain ⟨hash, s₄, -, hvalue⟩ := Reading.bind_eq_value.mp hhash
  obtain ⟨rfl, rfl⟩ := Reading.value.inj hvalue
  have hhttp : httpImport.read s = .value kind s₃ :=
    (Rule.read_eq .httpImport s).symm.trans (read_httpImport_of_importType hs hkind)
  obtain ⟨u', s₅, hurl, hbehind⟩ :=
    Reading.bind_eq_value.mp ((readBy_httpImport s).symm.trans hhttp)
  obtain ⟨headers', s₆, -, hvalue⟩ := Reading.bind_eq_value.mp hbehind
  obtain ⟨rfl, rfl⟩ := Reading.value.inj hvalue
  obtain rfl := Url.sent_inj hi
  exact ⟨s₅, hurl⟩

end DhallSyntax
