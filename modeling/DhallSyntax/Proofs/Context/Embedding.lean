import DhallSyntax.Proofs.Context.Whole

/-!
What is parsed is parsed in every surrounding of a complete expression: with whitespace around it,
in parentheses, in a list, as a field of a record and as an interpolation of a text. Main statement:
`parse_embedded`.
-/

namespace DhallSyntax

open Grammar CharClass

variable {α β σ : Type} {S : Surroundings} {levels depth : Nat} {c : Char} {t u : List Char}
  {e : Expr}

/-- No entry follows where there is no mark behind the whitespace. -/
theorem Steady.furtherEntries_last {mark : String} {closing : Char} {entry : Grammar α}
    (hspace : whitespace.read t = .value () u) (hmark : mark.toList.isPrefixOf u = false) :
    Steady S levels depth (.term (furtherEntries mark closing entry)) t (some ([], u)) := by
  refine .bind (b := []) (.iterate (.last (.bind (Seam.steady_whitespace hspace) ?_)))
    (.plain trivial rfl)
  refine .bind (b := false) (u := u) (.plain trivial ?_) (.plain trivial rfl)
  exact (readBy_accept mark u).trans (by rw [hmark]; rfl)

/-! ## What is inside -/

namespace Core

variable {settings settings' : Settings} {lead taken behind put : List Char} {s : State}
  {deeper : Nat}

section Inside

variable (h : Core settings lead taken behind e s) (hput : whitespace.read put = .value () u)
  (hu : u.head?.any (fun c => !([')', ']', '}', '>', ','].contains c)) = false)

/-- What surrounds the expression in the larger source. -/
abbrev surroundings (deeper : Nat) : Surroundings :=
  (Seam.continued h.blank put).around lead deeper settings.stack (h.reads hput hu)

/-- The source is read inside as it is read by itself, up to what closes it. -/
theorem steady_complete {front : List Char} (hfront : Whitespace.Blank front) :
    Steady (h.surroundings hput hu deeper) levels deeper (.term completeExpression)
      (front ++ (Seam.continued h.blank put).now (lead ++ taken)) (some (e, u)) := by
  have hlead := (readBy_whitespace_blank hfront _).trans (h.space_now put)
  refine .bind (Seam.steady_whitespace hlead) (.bind (.inner .expression) ?_)
  exact .bind (Seam.steady_whitespace (h.space_behind hput)) (.plain trivial rfl)

omit hput hu in
theorem head_now (put : List Char) : ((Seam.continued h.blank put).now taken).head?.any
    (fun d => !Rule.expression.first d) = false := by
  obtain ⟨c, t, rfl, hc⟩ := h.taken_head
  have hnot : (!Rule.expression.first c) = false := by rw [hc]; rfl
  exact hnot

omit hput hu in
/-- No expression begins with a mark. -/
theorem steady_accept {literal : String} (put : List Char)
    (hl : literal.toList.head?.any (fun d => !Rule.expression.first d) = true) :
    Steady S levels depth (.term (accept literal)) ((Seam.continued h.blank put).now taken)
      (some (false, (Seam.continued h.blank put).now taken)) :=
  .plain trivial (readBy_accept_of_head literal hl (h.head_now put))

/-- What opens a surrounding is in front of the source. -/
theorem free_front (deeper : Nat) {x : List Char} (hx : x ≠ []) :
    (h.surroundings hput hu deeper).free (x ++ (Seam.continued h.blank put).now (lead ++ taken)) := by
  refine .inl ?_
  rw [List.length_append]
  have hlength := List.length_pos_iff.mpr hx
  omega

theorem steady_parentheses (hclosing : whitespace.read [')'] = .value () [')']) :
    Steady (h.surroundings hclosing rfl 1) 10 0 (.term completeExpression)
      ('(' :: (Seam.continued h.blank [')']).now (lead ++ taken)) (some (e, [])) := by
  have hfree := h.free_front hclosing rfl 1 (List.cons_ne_nil '(' [])
  refine steady_whole (by decide) hfree (Nat.le_refl 1) rfl ?_ (steady_primitive (by decide) hfree ?_)
  · exact steady_head Rule.opens_emptyListExpression (by decide) hfree (by decide)
  apply Steady.right (steady_head Rule.opens_textLiteral (by decide) hfree (by decide))
  apply Steady.right (steady_head Rule.opens_recordExpression (by decide) hfree (by decide))
  apply Steady.right (steady_head Rule.opens_unionType (by decide) hfree (by decide))
  apply Steady.right (steady_head Rule.opens_listLiteral (by decide) hfree (by decide))
  apply Steady.right (steady_head Rule.opens_identifier (by decide) hfree (by decide))
  refine .left (.bind (.plain (by simp) rfl) (.bind (h.steady_complete hclosing rfl .nil) ?_))
  exact .bind (.plain (by simp) rfl) (.plain trivial rfl)

theorem steady_bracket (hclosing : whitespace.read [']'] = .value () [']']) :
    Steady (h.surroundings hclosing rfl 1) 10 0 (.term completeExpression)
      ('[' :: (Seam.continued h.blank [']']).now (lead ++ taken)) (some (.list [e], [])) := by
  have hfree := h.free_front hclosing rfl 1 (List.cons_ne_nil '[' [])
  have hspace := h.space_now [']']
  refine steady_whole (by decide) hfree (Nat.le_refl 1) rfl ?_ (steady_primitive (by decide) hfree ?_)
  · refine .call hfree (.bind (.plain (by simp) rfl) (.bind (Seam.steady_whitespace hspace) ?_))
    have hopens : Grammar.OpensWith (fun d => !Rule.expression.first d) 8 (expect "]") :=
      Rule.opens_expect "]" (by decide)
    exact .miss (.plain (by simp) (hopens.read (h.head_now [']'])))
  apply Steady.right (steady_head Rule.opens_textLiteral (by decide) hfree (by decide))
  apply Steady.right (steady_head Rule.opens_recordExpression (by decide) hfree (by decide))
  apply Steady.right (steady_head Rule.opens_unionType (by decide) hfree (by decide))
  refine .left (.call hfree (.bind (.plain (by simp) rfl)
    (.bind (Seam.steady_whitespace hspace) (.bind (h.steady_accept [']'] (by decide)) ?_))))
  refine .bind (.inner .expression) ?_
  refine .bind (Steady.furtherEntries_last (h.space_behind hclosing) rfl) ?_
  exact .bind (.plain (by simp) rfl) (.plain trivial rfl)

theorem steady_brace (hclosing : whitespace.read ['}'] = .value () ['}']) :
    Steady (h.surroundings hclosing rfl 1) 10 0 (.term completeExpression)
      ("\x7b a = ".toList ++ (Seam.continued h.blank ['}']).now (lead ++ taken))
      (some (.record [("a", some e)], [])) := by
  have hfree := h.free_front hclosing rfl 1 (x := "\x7b a = ".toList) (by decide)
  have hlabel := h.free_front hclosing rfl 1 (x := "a = ".toList) (by decide)
  refine steady_whole (by decide) hfree (Nat.le_refl 1) rfl ?_ (steady_primitive (by decide) hfree ?_)
  · exact steady_head Rule.opens_emptyListExpression (by decide) hfree (by decide)
  apply Steady.right (steady_head Rule.opens_textLiteral (by decide) hfree (by decide))
  have hentry : Steady (h.surroundings hclosing rfl 1) 1 1 (.term (recordEntry [":", "="]))
      ("a = ".toList ++ (Seam.continued h.blank ['}']).now (lead ++ taken))
      (some (("a", "=", e), (Seam.continued h.blank ['}']).now [])) := by
    have hread : label.read ("a = ".toList ++ (Seam.continued h.blank ['}']).now (lead ++ taken)) =
        .value "a" (" = ".toList ++ (Seam.continued h.blank ['}']).now (lead ++ taken)) := by
      rfl
    have hvalue : whitespace.read (' ' :: (Seam.continued h.blank ['}']).now (lead ++ taken)) =
        .value () ((Seam.continued h.blank ['}']).now taken) :=
      (readBy_whitespace_blank (.space .nil) _).trans (h.space_now ['}'])
    refine .bind (.call hlabel (.plain (doesOnly_labelExcept _ _) hread)) ?_
    refine .bind (Seam.steady_whitespace (readBy_whitespace_space rfl)) ?_
    refine .bind (b := "=") (.plain (by simp) rfl) ?_
    refine .bind (Seam.steady_whitespace hvalue) ?_
    exact .bind (.inner .expression) (.plain trivial rfl)
  have hentries : Steady (h.surroundings hclosing rfl 1) 1 1 (.term recordEntries)
      ("a = ".toList ++ (Seam.continued h.blank ['}']).now (lead ++ taken))
      (some (.record [("a", some e)], [])) := by
    refine .bind hentry (.bind (Steady.furtherEntries_last (h.space_behind hclosing) rfl) ?_)
    exact .bind (.plain (by simp) rfl) (.plain trivial rfl)
  -- Behind the brace there is no mark, but a label.
  have hbrace : whitespace.read (" a = ".toList ++ (Seam.continued h.blank ['}']).now (lead ++ taken))
      = .value () ("a = ".toList ++ (Seam.continued h.blank ['}']).now (lead ++ taken)) :=
    readBy_whitespace_space rfl
  refine .left (.call hfree (.bind (.plain (by simp) rfl) (.bind (Seam.steady_whitespace hbrace) ?_)))
  refine .bind (b := false) (.plain trivial rfl) ?_
  refine .bind (b := false) (.plain trivial rfl) ?_
  exact .bind (b := false) (.plain trivial rfl) hentries

theorem steady_quotes (hclosing : whitespace.read "\x7d\"".toList = .value () "\x7d\"".toList) :
    Steady (h.surroundings hclosing rfl 1) 10 0 (.term completeExpression)
      ("\"$\x7b".toList ++ (Seam.continued h.blank "\x7d\"".toList).now (lead ++ taken))
      (some (.text [("", e)] "", [])) := by
  have hfree := h.free_front hclosing rfl 1 (x := "\"$\x7b".toList) (by decide)
  refine steady_whole (by decide) hfree (Nat.le_refl 1) rfl ?_ (steady_primitive (by decide) hfree ?_)
  · exact steady_head Rule.opens_emptyListExpression (by decide) hfree (by decide)
  have hstep : Steady (h.surroundings hclosing rfl 1) 0 1 (.term (doubleQuoteStep .empty))
      ("$\x7b".toList ++ (Seam.continued h.blank "\x7d\"".toList).now (lead ++ taken))
      (some (.inl (TextDraft.empty.interpolate e), ['"'])) := by
    have hinside : Steady (h.surroundings hclosing rfl 1) 0 1 (.term (interpolation .empty))
        ((Seam.continued h.blank "\x7d\"".toList).now (lead ++ taken))
        (some (TextDraft.empty.interpolate e, ['"'])) :=
      .bind (h.steady_complete hclosing rfl .nil) (.bind (.plain (by simp) rfl) (.plain trivial rfl))
    refine .bind (b := false) (.plain trivial rfl) (.bind (b := true) (.plain trivial rfl) ?_)
    exact .bind hinside (.plain trivial rfl)
  have hlast : Steady (h.surroundings hclosing rfl 1) 0 1
      (.term (doubleQuoteStep (TextDraft.empty.interpolate e))) ['"']
      (some (.inr (.text [("", e)] ""), [])) :=
    .bind (b := true) (.plain trivial rfl) (.plain trivial rfl)
  refine .left (.call hfree (.left (.call hfree (.bind
    (u := "$\x7b".toList ++ (Seam.continued h.blank "\x7d\"".toList).now (lead ++ taken))
    (.plain (by simp) rfl) (.iterate ?_)))))
  exact .next hstep (by simp) (.last hlast)

end Inside

/-- A source around another one is parsed if there is a steady way through it. -/
theorem parse_around {larger : String} {e' : Expr} (h : Core settings lead taken behind e s)
    (hput : whitespace.read put = .value () u)
    (hu : u.head?.any (fun c => !([')', ']', '}', '>', ','].contains c)) = false)
    (hallows : Seam.Allows deeper settings settings') (outer : List Char)
    (hlarger : larger.toList = outer ++ (lead ++ taken ++ behind ++ '\n' :: put))
    (hs : settings.stack + 5 + levels ≤ settings'.stack)
    (hsteady : Steady (h.surroundings hput hu deeper) levels 0 (.term completeExpression)
      (outer ++ (Seam.continued h.blank put).now (lead ++ taken)) (some (e', []))) :
    parse settings' larger = .ok e' := by
  have hnow : larger.toList = outer ++ (Seam.continued h.blank put).now (lead ++ taken) := by
    rw [hlarger, List.append_assoc (lead ++ taken)]
    rfl
  have hkeeps := h.keeps (h.reads hput hu) (Seam.continued_was h.blank put) hallows outer
  rw [← hnow] at hkeeps hsteady
  refine parse_of_steady hkeeps (.empty ..) hsteady ?_
  exact Nat.le_trans (Nat.le_of_eq (Nat.add_comm levels _)) hs

end Core

/-! ## Surroundings -/

theorem allows_same (settings : Settings) (stack : Nat) :
    Seam.Allows 0 settings ⟨settings.maxDepth, settings.memoize, stack⟩ :=
  ⟨rfl, fun _ h => h⟩

theorem allows_deeper (settings : Settings) (stack : Nat) :
    Seam.Allows 1 settings ⟨settings.maxDepth.map (· + 1), settings.memoize, stack⟩ := by
  refine ⟨rfl, fun depth h => ?_⟩
  unfold Settings.admits at *
  cases hm : settings.maxDepth with
  | none => rfl
  | some m =>
    rw [hm] at h
    exact decide_eq_true (Nat.succ_le_succ (of_decide_eq_true h))

/-- What is parsed is parsed to the same expression with whole chunks of whitespace around it, and
with one more expression around it in parentheses, as the only value of a list, as a field of a
record and as an interpolation. A line ending behind it closes the comment that it may end with. The
larger source may take some more rules inside each other. -/
theorem parse_embedded (settings : Settings) (source : String) (e : Expr)
    (h : parse settings source = .ok e) (stack : Nat) (hs : settings.stack + 15 ≤ stack) :
    let deeper : Settings := ⟨settings.maxDepth.map (· + 1), settings.memoize, stack⟩
    (∀ front behind : String, Whitespace.Blank front.toList → Whitespace.Blank behind.toList →
      parse ⟨settings.maxDepth, settings.memoize, stack⟩ (front ++ source ++ "\n" ++ behind) =
        .ok e) ∧
    parse deeper ("(" ++ source ++ "\n)") = .ok e ∧
    parse deeper ("[" ++ source ++ "\n]") = .ok (.list [e]) ∧
    parse deeper ("\x7b a = " ++ source ++ "\n\x7d") = .ok (.record [("a", some e)]) ∧
    parse deeper ("\"$\x7b" ++ source ++ "\n\x7d\"") = .ok (.text [("", e)] "") := by
  intro deeper
  obtain ⟨lead, taken, tail, s, hsource, hcore⟩ := exists_core h
  have hdeeper := allows_deeper settings stack
  have hlevels : settings.stack + 5 + 10 ≤ stack := hs
  refine ⟨fun front behind hfront hbehind => ?_, ?_, ?_, ?_, ?_⟩
  · have hput : whitespace.read (behind.toList ++ []) = .value () [] :=
      readBy_whitespace_blank hbehind []
    rw [List.append_nil] at hput
    refine hcore.parse_around hput rfl (allows_same settings stack) front.toList ?_ hlevels ?_
    · simp [hsource]
    · exact hcore.steady_complete hput rfl hfront
  · exact hcore.parse_around rfl rfl hdeeper ['('] (by simp [hsource]) hlevels
      (hcore.steady_parentheses rfl)
  · exact hcore.parse_around rfl rfl hdeeper ['['] (by simp [hsource]) hlevels
      (hcore.steady_bracket rfl)
  · exact hcore.parse_around rfl rfl hdeeper "\x7b a = ".toList (by simp [hsource]) hlevels
      (hcore.steady_brace rfl)
  · exact hcore.parse_around rfl rfl hdeeper "\"$\x7b".toList (by simp [hsource]) hlevels
      (hcore.steady_quotes rfl)

/-- A source that ends with a comment whose line is not ended. -/
theorem parse_embedded_comment :
    let source := "f x -- why"
    let e : Expr := .app (.variable "f" 0) (.variable "x" 0)
    parse ⟨some 1, true, 60⟩ source = .ok e ∧ 60 + 15 ≤ 75 ∧
      parse ⟨some 1, true, 75⟩ (" \x7b- \x7b- -\x7d -\x7d" ++ source ++ "\n" ++ "\r\n-- so\n\t") =
        .ok e ∧
      parse ⟨some 2, true, 75⟩ ("(" ++ source ++ "\n)") = .ok e ∧
      parse ⟨some 2, true, 75⟩ ("[" ++ source ++ "\n]") = .ok (.list [e]) ∧
      parse ⟨some 2, true, 75⟩ ("\x7b a = " ++ source ++ "\n\x7d") =
        .ok (.record [("a", some e)]) ∧
      parse ⟨some 2, true, 75⟩ ("\"$\x7b" ++ source ++ "\n\x7d\"") = .ok (.text [("", e)] "") := by
  intro source e
  have h : parse ⟨some 1, true, 60⟩ source = .ok e := eq_ok_of_toOption (by decide +kernel)
  obtain ⟨hblank, hrest⟩ := parse_embedded ⟨some 1, true, 60⟩ source e h 75 (by decide)
  have hnested : Whitespace.CommentRest 0 " \x7b- -\x7d -\x7d".toList :=
    .char (.enter (.char (.leave (.char .last (by decide) (by decide))) (by decide) (by decide)))
      (by decide) (by decide)
  have hline : Whitespace.Blank "-- so\n\t".toList :=
    @Whitespace.Blank.line " so".toList _ (by decide) (.tab .nil)
  exact ⟨h, by decide, hblank _ _ (.space (.block hnested .nil)) (.carriage hline), hrest⟩

end DhallSyntax
