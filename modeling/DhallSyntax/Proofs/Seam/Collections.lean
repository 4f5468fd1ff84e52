import DhallSyntax.Proofs.Seam.Levels

/-!
Records, unions and lists in front of a seam. Their parts end in front of a mark or of what closes
them, so that they carry over wherever they end. Main statements:

* `Seam.carries_furtherEntries`: the entries behind the first one carry over if each of them does;
* `Seam.carries_recordExpression`, `Seam.carries_unionType`, `Seam.carries_listLiteral`.
-/

namespace DhallSyntax

open CharClass Grammar

variable {α β : Type}

namespace Seam

variable {T : Seam} {n m : Nat} {x y z : List Char}

/-! ## Entries with marks between them -/

/-- What may be behind a mark: what closes the collection, or a further entry. -/
abbrev behindMark (closing : Char) (entry : Grammar α) (entries : List α) :
    Grammar (List α ⊕ List α) := do
  whitespace
  if (← peek) == some closing then return .inr entries
  else return .inl ((← entry) :: entries)

/-- One step from an entry to the next one. -/
abbrev furtherStep (mark : String) (closing : Char) (entry : Grammar α) (entries : List α) :
    Grammar (List α ⊕ List α) := do
  whitespace
  if ← accept mark then behindMark closing entry entries
  else return .inr entries

/-- A text that what closes a collection begins. -/
def Closes (closing : Char) (x : List Char) : Prop := ∃ t, x = closing :: t

/-- A step ends with an entry, or in front of what closes the collection. -/
abbrev EndsStep (T : Seam) (closing : Char) : List α ⊕ List α → List Char → Prop :=
  Sum.elim (fun _ => T.EndsExpression) fun _ => Closes closing

section Further

variable {mark : String} {closing : Char} {entry : Grammar α} {chars : CharClass}
  (hentry : T.Headed n (fun _ => T.EndsExpression) chars entry) (hreturn : chars '\r' = false)
  (hclosing : ∀ t, T.StopsExpression (closing :: t))
  (hmark : ∀ d t, (chars d || d == closing || " \t\n\r-\x7b".toList.contains d) = true →
    T.StopsExpression (mark.toList ++ d :: t))

include hentry hreturn hclosing

theorem leads_behindMark_token (entries : List α) : T.Leads n (T.EndsStep closing)
    (fun x => Token x ∧ Begins (fun d => chars d || d == closing) x) (do
      if (← peek) == some closing then return .inr entries
      else return .inl ((← entry) :: entries)) := by
  refine Leads.bind (F := fun _ x => Token x ∧ Begins (fun d => chars d || d == closing) x)
    (leads_look fun x h => h) fun _ => .ite (fun _ => .pure ?_) fun _ => .bind
      (F := fun _ => T.EndsExpression) ?_ fun _ => .pure fun _ h => h
  · rintro x ⟨t, rfl⟩
    exact ⟨(hclosing t).token, closing, t, rfl, by simp⟩
  · refine hentry.begins.mono (fun _ _ h => h) ?_
    rintro x ⟨c, t, rfl, hc⟩
    refine ⟨⟨c, t, rfl, ?_⟩, c, t, rfl, by simp [hc]⟩
    rintro rfl
    rw [hreturn] at hc
    cases hc

theorem carries_behindMark (entries : List α) :
    T.Carries n (T.EndsStep closing) (behindMark closing entry entries) := by
  have htoken := leads_behindMark_token hentry hreturn hclosing entries
  apply Carries.spaced (htoken.mono (fun _ _ h => h) fun _ h => h.1)
  apply Carries.bind (F := fun _ => Token) (carries_peek fun _ y h => h.ne_nil)
  · intro next
    refine .ite (fun _ => .pure ?_) fun _ => .bind (F := fun _ => T.EndsExpression) ?_
      fun _ => .pure fun _ h => h
    · rintro x ⟨t, rfl⟩
      exact (hclosing t).token
    · refine hentry.begins.mono (fun _ _ h => h) ?_
      rintro x ⟨c, t, rfl, hc⟩
      refine ⟨c, t, rfl, ?_⟩
      rintro rfl
      rw [hreturn] at hc
      cases hc
  · exact fun next => .ite (fun _ => .pure _) fun _ =>
      Carries.bind hentry.carries (fun _ => .pure fun _ h => h) fun _ => .pure _

include hmark

theorem leads_behindMark (entries : List α) : T.Leads n (T.EndsStep closing)
    (fun x => T.StopsExpression (mark.toList ++ x)) (behindMark closing entry entries) := by
  intro x a y hl he
  obtain ⟨_, u, hw, hn⟩ := hl.bind
  obtain ⟨htoken, hbegins⟩ :=
    leads_behindMark_token hentry hreturn hclosing entries u a y hn he
  obtain ⟨rfl, -⟩ | ⟨-, c, t, rfl, hc⟩ := whitespace_head hw htoken
  · obtain ⟨c, t, rfl, hc⟩ := hbegins
    exact hmark c t (Bool.or_eq_true_iff.mpr (.inl hc))
  · exact hmark c t (Bool.or_eq_true_iff.mpr (.inr hc))

/-- A mark, or what closes the collection, ends an entry. -/
theorem leads_mark (entries : List α) : T.Leads n (T.EndsStep closing) T.StopsExpression (do
    if ← accept mark then behindMark closing entry entries
    else return (.inr entries : List α ⊕ List α)) := by
  intro x a y hl he
  obtain ⟨b, z, hb, hn⟩ := Lands.bind hl
  clear hl
  obtain ⟨rfl, rfl⟩ | ⟨rfl, rfl, -⟩ := lands_accept hb
  · exact leads_behindMark hentry hreturn hclosing hmark entries z a y hn he
  · obtain ⟨rfl, rfl⟩ := Lands.pure hn
    obtain ⟨t, rfl⟩ := he
    exact hclosing t

theorem leads_furtherStep (entries : List α) :
    T.Leads n (T.EndsStep closing) T.EndsExpression (furtherStep mark closing entry entries) :=
  leads_ends (leads_mark hentry hreturn hclosing hmark entries)

variable (hm : Unbroken mark.toList)

include hm

theorem carries_furtherStep (entries : List α) :
    T.Carries n (T.EndsStep closing) (furtherStep mark closing entry entries) := by
  apply Carries.spaced ((leads_mark hentry hreturn hclosing hmark entries).mono (fun _ _ h => h)
    fun _ h => h.token)
  exact .andThen (carries_accept hm) fun _ =>
    .ite (fun _ => carries_behindMark hentry hreturn hclosing entries) fun _ => .pure _

variable (hne : mark.toList ≠ [])

include hne

omit hentry hreturn hclosing hmark hm in
theorem furtherStep_shrinks (entries : List α) :
    T.Shrinks n (fun r => r.isLeft = true) (furtherStep mark closing entry entries) :=
  .behind fun _ => .accept hne (.pure Bool.false_ne_true)

/-- The entries behind the first one carry over if each of them does. -/
theorem carries_furtherEntries :
    T.Carries n (fun _ => Closes closing) (furtherEntries mark closing entry) := by
  refine Carries.bind (F := fun _ => Closes closing) ?_ (fun _ => .pure fun _ h => h) fun _ => .pure _
  exact Carries.iterate (fun _ => T.EndsExpression)
    (carries_furtherStep hentry hreturn hclosing hmark hm)
    (leads_furtherStep hentry hreturn hclosing hmark)
    fun entries x next z h => furtherStep_shrinks hne entries x (.inl next) z h rfl

/-- The entry in front of them ends there. -/
theorem leads_furtherEntries {E : List α → List Char → Prop} (hE : ∀ a y, E a y → Closes closing y) :
    T.Leads n E T.EndsExpression (furtherEntries mark closing entry) := by
  refine Leads.bind (F := fun _ => Closes closing) ?_ fun _ => .pure fun x h => hE _ x h
  exact Leads.iterate (fun _ => T.EndsExpression)
    (carries_furtherStep hentry hreturn hclosing hmark hm)
    (leads_furtherStep hentry hreturn hclosing hmark)
    fun entries x next z h => furtherStep_shrinks hne entries x (.inl next) z h rfl

end Further

/-! ## Records -/

theorem carries_colon : T.Carries n (fun _ => Token) colon := by
  apply Carries.spaced (.front (leads_token_expect (by decide)))
  exact .andThen (carries_expect (by decide)) fun _ => carries_whitespace1 fun _ h => h

/-- What is behind a colon begins with a token. -/
theorem Carries.typed {next : Unit → Grammar α} {E : α → List Char → Prop}
    (hl : T.Leads n E Token (next ())) (hn : T.Carries n E (next ())) :
    T.Carries n E (colon >>= next) :=
  Carries.bind carries_colon (fun _ => hl) fun _ => hn

section Collections

variable (hlabel : T.Carries n (fun _ _ => True) (call .label))
  (hexpr : T.Carries n (fun _ => T.EndsExpression) (call .expression))

include hlabel hexpr

theorem headed_recordEntry {separators : List String} (hs : ∀ s ∈ separators, s ∈ [":", "="]) :
    T.Headed n (fun _ => T.EndsExpression) Rule.label.first (recordEntry separators) := by
  have hspec : ∀ s ∈ [":", "="], Unbroken s.toList ∧ s.toList.head?.any (· != '\r') = true := by
    decide
  refine .bind (.call .label hlabel) fun label => ?_
  apply Carries.spaced (.front (leads_token_expectAny fun s hm => (hspec s (hs s hm)).2))
  apply Carries.andThen (carries_expectAny fun s hm => (hspec s (hs s hm)).1)
  intro separator
  have hvalue : T.Carries n (fun _ => T.EndsExpression) (do
      return (label, separator, ← call .expression)) :=
    Carries.bind hexpr (fun _ => .pure fun _ h => h) fun _ => .pure _
  have htoken : T.Leads n (fun _ => T.EndsExpression) Token (do
      return (label, separator, ← call .expression)) :=
    .front (leads_token_call .expression (by decide))
  exact .ite (fun _ => Carries.spaced1 htoken hvalue) fun _ => Carries.spaced htoken hvalue

omit hlabel hexpr in
theorem lands_recordEntry {separators : List String} {entry : String × String × Expr}
    (h : T.Lands n (recordEntry separators) x entry y) : entry.2.1 ∈ separators := by
  obtain ⟨label, u, -, h⟩ := Lands.bind h
  obtain ⟨_, v, -, h⟩ := Lands.bind h
  obtain ⟨separator, w, hseparator, h⟩ := Lands.bind h
  have hm := (lands_expectAny hseparator).1
  split at h
  all_goals
    obtain ⟨_, r, -, h⟩ := Lands.bind h
    obtain ⟨value, s, -, h⟩ := Lands.bind h
    obtain ⟨rfl, -⟩ := Lands.pure h
    exact hm

/-- The rest of a record, from behind its first entry. -/
abbrev recordTail (entry : String × String × Expr) : Grammar Expr := do
  let (label, separator, value) := entry
  let rest ← furtherEntries "," '}' do
    let (label, _, value) ← recordEntry [separator]
    return (label, some value)
  expect "\x7d"
  let fields := (label, some value) :: rest
  return if separator == ":" then .recordType fields else .record fields

theorem headed_fieldEntry {separator : String} (hs : separator ∈ [":", "="]) :
    T.Headed n (fun _ => T.EndsExpression) Rule.label.first (do
      let (label, _, value) ← recordEntry [separator]
      return (label, some value)) := by
  have hentry := headed_recordEntry hlabel hexpr (List.forall_mem_singleton.mpr hs)
  exact ⟨Carries.bind hentry.carries (fun _ => .pure fun _ h => h) fun _ => .pure _,
    Leads.bind hentry.begins fun _ => .pure fun _ h => h⟩

theorem carries_recordTail {entry : String × String × Expr} (hs : entry.2.1 ∈ [":", "="])
    {E : Expr → List Char → Prop} :
    T.Carries n E (recordTail entry) ∧ T.Leads n E T.EndsExpression (recordTail entry) := by
  have hentry := headed_fieldEntry hlabel hexpr hs
  have hclosing : ∀ t, T.StopsExpression ('}' :: t) := fun t => stopsExpression_head (by decide)
  have hmark : ∀ d t, (Rule.label.first d || d == '}' || " \t\n\r-\x7b".toList.contains d) = true →
      T.StopsExpression (",".toList ++ d :: t) := fun d t _ => stopsExpression_head (by decide)
  constructor
  · refine Carries.bind (carries_furtherEntries hentry (by decide) hclosing hmark (by decide)
      (by decide)) (fun _ => .front (leads_expect fun y _ => ⟨y, rfl⟩)) fun _ => ?_
    exact .andThen (carries_expect (by decide)) fun _ => .pure _
  · refine Leads.bind (F := fun _ => Closes '}') (leads_furtherEntries hentry (by decide) hclosing
      hmark (by decide) (by decide) fun _ _ h => h) fun _ => ?_
    exact .front (leads_expect fun y _ => ⟨y, rfl⟩)

theorem carries_recordEntries {E : Expr → List Char → Prop} : T.Carries n E recordEntries := by
  intro x a y hl he
  obtain ⟨entry, z, hentry, hn⟩ := Lands.bind hl
  obtain ⟨hcarries, hends⟩ :=
    carries_recordTail hlabel hexpr (E := E) (n := n) (lands_recordEntry hentry)
  refine .bind ?_ (hcarries z a y hn he)
  exact (headed_recordEntry hlabel hexpr fun _ h => h).carries x entry z hentry
    (hends z a y hn he)

omit hlabel hexpr in
theorem leads_token_recordEntries {E : Expr → List Char → Prop} :
    T.Leads n E Token recordEntries :=
  .front (.front (leads_token_call .label (by decide)))

/-- What is between the braces of a record, from behind its first comma. -/
abbrev recordBody : Grammar Expr := do
  if ← accept "=" then
    whitespace
    if ← accept "," then whitespace
    expect "\x7d"
    return .record []
  else if ← accept "\x7d" then
    return .record []
  else
    recordEntries

theorem carries_recordExpression {E : Expr → List Char → Prop} :
    T.Carries n E recordExpression := by
  have hentries : T.Leads n E Token (do
      if ← accept "\x7d" then return .record [] else recordEntries) :=
    leads_token_accept (by decide) leads_token_recordEntries
  have htoken : T.Leads n E Token recordBody := leads_token_accept (by decide) hentries
  have hbody : T.Carries n E recordBody := by
    refine .andThen (carries_accept (by decide)) fun _ => .ite (fun _ => ?_) fun _ => ?_
    · have hclose : T.Carries n E (do expect "\x7d"; return (.record [] : Expr)) :=
        .andThen (carries_expect (by decide)) fun _ => .pure _
      have hbrace : T.Leads n E Token (do expect "\x7d"; return (.record [] : Expr)) :=
        .front (leads_token_expect (by decide))
      apply Carries.spaced (leads_token_accept (by decide) hbrace)
      exact .andThen (carries_accept (by decide)) fun _ =>
        .ite (fun _ => Carries.spaced hbrace hclose) fun _ => hclose
    · exact .andThen (carries_accept (by decide)) fun _ => .ite (fun _ => .pure _)
        fun _ => carries_recordEntries hlabel hexpr
  apply Carries.andThen (carries_expect (by decide))
  intro _
  apply Carries.spaced (leads_token_accept (by decide) htoken)
  exact .andThen (carries_accept (by decide)) fun _ =>
    .ite (fun _ => Carries.spaced htoken hbody) fun _ => hbody

/-! ## Unions and lists -/

theorem headed_unionAlternative :
    T.Headed n (fun _ => T.EndsExpression) Rule.label.first unionAlternative := by
  refine .bind (.call .label hlabel) fun label => ?_
  have htype : T.Carries n (fun _ => T.EndsExpression) (colon >>= fun _ => call .expression) :=
    Carries.typed (leads_token_call .expression (by decide)) hexpr
  exact Carries.bind (F := fun _ => T.EndsExpression)
    (Carries.optional? htype fun x hx => hx.annotation fun _ => call .expression)
    (fun _ => .pure fun _ h => h) fun _ => .pure _

theorem carries_unionAlternatives :
    T.Carries n (fun _ => Closes '>') unionAlternatives ∧
      T.Leads n (fun _ => Closes '>') Token unionAlternatives := by
  have hentry := headed_unionAlternative hlabel hexpr
  have hclosing : ∀ t, T.StopsExpression ('>' :: t) := fun t => stopsExpression_head (by decide)
  have hmark : ∀ d t, (Rule.label.first d || d == '>' || " \t\n\r-\x7b".toList.contains d) = true →
      T.StopsExpression ("|".toList ++ d :: t) := by
    intro d t hd
    refine stopsExpression_mark (by decide) ?_
    rintro rfl
    exact absurd hd (by decide)
  have htoken : T.Leads n (fun _ => Closes '>') Token (do
      let first ← unionAlternative
      return first :: (← furtherEntries "|" '>' unionAlternative)) :=
    .front (.front (leads_token_call .label (by decide)))
  have hnone : ∀ x, Closes '>' x → Token x := by
    rintro x ⟨t, rfl⟩
    exact (hclosing t).token
  constructor
  · refine Carries.bind (F := fun _ => Token) (carries_peek fun _ y h => h.ne_nil)
      (fun _ => .ite (fun _ => .pure hnone) fun _ => htoken) fun _ => ?_
    refine .ite (fun _ => .pure _) fun _ => ?_
    refine Carries.bind hentry.carries (fun _ => ?_) fun _ => ?_
    · exact Leads.bind (F := fun _ => Closes '>') (leads_furtherEntries hentry (by decide) hclosing
        hmark (by decide) (by decide) fun _ _ h => h) fun _ => .pure fun _ h => h
    · exact Carries.bind (carries_furtherEntries hentry (by decide) hclosing hmark (by decide)
        (by decide)) (fun _ => .pure fun _ h => h) fun _ => .pure _
  · exact Leads.bind (F := fun _ => Token) (leads_look fun x h => h)
      fun _ => .ite (fun _ => .pure hnone) fun _ => htoken

theorem carries_unionType {E : Expr → List Char → Prop} : T.Carries n E unionType := by
  obtain ⟨halternatives, hfirst⟩ := carries_unionAlternatives hlabel hexpr
  have htoken : T.Leads n E Token (do
      let alternatives ← unionAlternatives
      expect ">"
      return .union alternatives) :=
    Leads.bind hfirst fun _ => .front (leads_expect fun y _ => ⟨y, rfl⟩)
  have hrest : T.Carries n E (do
      let alternatives ← unionAlternatives
      expect ">"
      return .union alternatives) :=
    Carries.bind halternatives (fun _ => .front (leads_expect fun y _ => ⟨y, rfl⟩))
      fun _ => .andThen (carries_expect (by decide)) fun _ => .pure _
  apply Carries.andThen (carries_expect (by decide))
  intro _
  apply Carries.spaced (leads_token_accept (by decide) htoken)
  exact .andThen (carries_accept (by decide)) fun _ =>
    .ite (fun _ => Carries.spaced htoken hrest) fun _ => hrest

omit hlabel in
theorem carries_listLiteral {E : Expr → List Char → Prop} : T.Carries n E listLiteral := by
  have hentry : T.Headed n (fun _ => T.EndsExpression) Rule.expression.first (call .expression) :=
    .call .expression hexpr
  have hclosing : ∀ t, T.StopsExpression (']' :: t) := fun t => stopsExpression_head (by decide)
  have hmark : ∀ d t, (Rule.expression.first d || d == ']' ||
      " \t\n\r-\x7b".toList.contains d) = true → T.StopsExpression (",".toList ++ d :: t) :=
    fun d t _ => stopsExpression_head (by decide)
  have htoken : T.Leads n E Token (do
      let first ← call .expression
      let rest ← furtherEntries "," ']' (call .expression)
      expect "]"
      return .list (first :: rest)) := .front (leads_token_call .expression (by decide))
  have hrest : T.Carries n E (do
      let first ← call .expression
      let rest ← furtherEntries "," ']' (call .expression)
      expect "]"
      return .list (first :: rest)) := by
    refine Carries.bind hexpr (fun _ => ?_) fun _ => ?_
    · exact Leads.bind (F := fun _ => Closes ']') (leads_furtherEntries hentry (by decide) hclosing
        hmark (by decide) (by decide) fun _ _ h => h)
        fun _ => .front (leads_expect fun y _ => ⟨y, rfl⟩)
    · refine Carries.bind (carries_furtherEntries hentry (by decide) hclosing hmark (by decide)
        (by decide)) (fun _ => .front (leads_expect fun y _ => ⟨y, rfl⟩)) fun _ => ?_
      exact .andThen (carries_expect (by decide)) fun _ => .pure _
  apply Carries.andThen (carries_expect (by decide))
  intro _
  apply Carries.spaced (leads_token_accept (by decide) htoken)
  exact .andThen (carries_accept (by decide)) fun _ =>
    .ite (fun _ => Carries.spaced htoken hrest) fun _ => hrest

end Collections

/-- The two kinds of text literals begin with different quotes. -/
theorem carries_textLiteral {E : Expr → List Char → Prop}
    (hdouble : T.Carries n (fun _ _ => True) (call .doubleQuoteLiteral))
    (hsingle : T.Carries n (fun _ _ => True) (call .singleQuoteLiteral)) :
    T.Carries n E textLiteral := by
  have hany : ∀ {g : Grammar Expr}, T.Carries n (fun _ _ => True) g → T.Carries n E g :=
    fun h => h.mono fun _ _ _ => trivial
  have hlast : T.Headed n E Rule.singleQuoteLiteral.first (choice [call .singleQuoteLiteral]) :=
    Headed.last (.call .singleQuoteLiteral (hany hsingle))
  exact (Headed.orElse Rule.opens_doubleQuoteLiteral (.call .doubleQuoteLiteral (hany hdouble))
    (contains_apart (by decide)) hlast).carries

end Seam

end DhallSyntax
