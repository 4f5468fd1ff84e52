import DhallSyntax.Proofs.Yaml.Inside

/-!
What YAML scalars are read back as. Between single quotes the next line character is a line break
like any other, and is folded; between double quotes a backslash in front of a fold and the one of
the next fold can come together, if a text is indented by the whole width. All else comes back.
Main statements: `inside_flowText` and `inside_doubleText`, what is written between the quotes is
read as `singleRead` and `doubleRead` say; `readBack_eq_iff`, the texts that come back unchanged.
-/

namespace DhallSyntax.Yaml

open Scan

/-! ## What comes back -/

/-- A text between single quotes as it is read. The next line character becomes a line feed behind
another line break; else it is folded. -/
def singleRead : (afterBreak : Bool) → List Char → List Char
  | _, [] => []
  | afterBreak, c :: rest =>
    (if c != '\x85' then [c]
      else if afterBreak then ['\n']
      else if rest.head?.any isBreak then []
      else [' ']) ++ singleRead (isBreak c) rest

/-- A space that is not the last character. -/
def isInnerSpace : List Char → Bool
  | ' ' :: _ :: _ => true
  | _ => false

/-- A text between double quotes as it is read, if its lines are indented. -/
def doubleRead (indent : Nat) : (isFirst : Bool) → List Char → List Char
  | _, [] => []
  | isFirst, c :: rest =>
    let isSpoiled := width ≤ indent && !isFirst && !isShownInDouble c && isInnerSpace rest
    c :: (if isSpoiled then ['\\', ' '] else []) ++ doubleRead indent false rest

/-- A text as it is read from where it is written. -/
def readBack (indent : Nat) (s : List Char) : List Char :=
  match styleOf s with
  | .plain => s
  | .single => singleRead false s
  | .double => doubleRead indent true s

def readText (indent : Nat) (s : String) : String := String.ofList (readBack indent s.toList)

/-- Inside a text stands a character that has to be escaped, with a space behind it. -/
def HasEscapedPair (s : List Char) : Prop :=
  ∃ before c behind, s = before ++ c :: ' ' :: behind ∧ isShownInDouble c = false ∧
    before ≠ [] ∧ behind ≠ []

/-- A text comes back from where it is written. -/
def Kept (indent : Nat) (s : List Char) : Prop :=
  if needsDouble s then indent < width ∨ ¬ HasEscapedPair s else '\x85' ∉ s

variable {indent column : Nat} {previous : Option Char} {isFirst : Bool} {c d : Char}
  {s rest pending : List Char}

/-! ## Between single quotes -/

theorem singleRead_other {afterBreak : Bool} (hc : c ≠ '\x85') :
    singleRead afterBreak (c :: s) = c :: singleRead (isBreak c) s := by
  simp [singleRead, hc]

theorem singleRead_behind_break (hc : isBreak c = true) :
    singleRead true (c :: s) = readBreak c :: singleRead true s := by
  by_cases h : c = '\x85'
  · subst h
    rfl
  · rw [singleRead_other h, hc]
    simp [readBreak, h]

theorem needsDouble_cons_cons : needsDouble (c :: d :: s) = false ↔
    isOrdinary c = true ∧ ¬ (c = ' ' ∧ isBreak d = true) ∧ ¬ (isBreak c = true ∧ d = ' ') ∧
      needsDouble (d :: s) = false := by
  simp only [needsDouble, neighbours, List.any_cons, List.tail_cons, List.zip_cons_cons]
  simp
  tauto

theorem head?_behind_space (h : needsDouble (' ' :: s) = false) :
    s.head?.any isBreak = false := by
  cases s with
  | nil => rfl
  | cons d s => simpa using (needsDouble_cons_cons.mp h).2.1

theorem head?_behind_break (h : needsDouble (c :: s) = false) (hc : isBreak c = true) :
    s.head? ≠ some ' ' := by
  cases s with
  | nil => simp
  | cons d s => simpa [hc] using (needsDouble_cons_cons.mp h).2.2.1

theorem isOrdinary_of_needsDouble (h : needsDouble s = false) : ∀ c ∈ s, isOrdinary c = true := by
  simp only [needsDouble, Bool.or_eq_false_iff, List.any_eq_false] at h
  simpa using h.1

theorem solid_of_ordinary (h : isOrdinary c = true) (hspace : c ≠ ' ')
    (hbreak : isBreak c = false) : isBlankOrBreak c = false := by
  refine isBlankOrBreak_eq_false.mpr ⟨hspace, ?_, ?_, hbreak⟩ <;> rintro rfl <;> cases h

theorem head?_flowText {shown : Char → List Char} (hshown : (shown c).head? = some c)
    (hc : isBreak c = false) (hfold : c ≠ ' ' ∨ previous = some ' ') :
    (flowText indent shown previous column (c :: rest)).head? = some c := by
  have hnofold : ¬ (c == ' ' && width < column && previous.any (· != ' ') &&
      rest.head?.any (· != ' ')) = true := by
    obtain hc | rfl := hfold <;> simp_all
  rw [flowText, if_neg (by rw [hc]; exact Bool.false_ne_true), if_neg hnofold]
  simp [hshown]

theorem head?_singleShown (c : Char) : (singleShown c).head? = some c := by
  unfold singleShown
  split <;> simp_all

/-- The indentation behind a line break, unless another one comes. -/
def lineStart (indent : Nat) (rest : List Char) : List Char :=
  if rest.head?.any isBreak then [] else List.replicate indent ' '

theorem flowText_break {shown : Char → List Char} (hc : isBreak c = true) :
    flowText indent shown previous column (c :: rest) =
      (if !previous.any isBreak && c == '\n' then ['\n'] else []) ++
        c :: (lineStart indent rest ++
          flowText indent shown (some c) (lineStart indent rest).length rest) := by
  rw [flowText, if_pos hc]
  exact List.append_assoc _ _ _

theorem beginsSolid_flowText (h : needsDouble (c :: s) = false)
    (hbreak : s.head?.any isBreak = false) (hspace : s.head? ≠ some ' ') :
    BeginsSolid (flowText indent singleShown (some c) column s) := by
  cases s with
  | nil => rfl
  | cons d s =>
    have hne : d ≠ ' ' := by simpa using hspace
    have hord := isOrdinary_of_needsDouble h d (by simp)
    have hsolid := solid_of_ordinary hord hne hbreak
    rw [BeginsSolid, head?_flowText (head?_singleShown d) hbreak (.inl hne)]
    simp [hsolid]

/-- What a written text is read as behind a line break: its further lines, or the indentation of
the next one. -/
theorem insideLines_of_inside (column : Nat) (hindent : 0 < indent) (hc : isBreak c = true)
    (h : needsDouble (c :: s) = false)
    (hinside : s.head?.any isBreak = false →
      Inside false (flowText indent singleShown (some c) column s) (singleRead true s))
    (hlines : s.head?.any isBreak = true → ∃ lines text, lines ≠ [] ∧
      lines ++ text = singleRead true s ∧
      InsideLines false (flowText indent singleShown (some c) column s) lines text) :
    ∃ lines text, lines.isEmpty = !s.head?.any isBreak ∧ lines ++ text = singleRead true s ∧
      InsideLines false (lineStart indent s ++ flowText indent singleShown (some c) column s)
        lines text := by
  unfold lineStart
  cases hs : s.head?.any isBreak with
  | true =>
    obtain ⟨lines, text, hne, htext, hlines⟩ := hlines hs
    exact ⟨lines, text, by simpa using hne, htext, hlines⟩
  | false =>
    have hsolid : BeginsSolid (flowText indent singleShown (some c) column s) :=
      beginsSolid_flowText h hs (head?_behind_break h hc)
    exact ⟨[], singleRead true s, rfl, rfl, InsideLines.indentation hindent hsolid (hinside hs)⟩

/-- A run of line breaks is read without the first one, unless that is longer than a line feed. -/
theorem inside_breaks {body lines text : List Char} (hc : isBreak c = true)
    (hempty : lines.isEmpty = !s.head?.any isBreak) (htext : lines ++ text = singleRead true s)
    (hlines : InsideLines false body lines text) :
    Inside false ((if c == '\n' then ['\n'] else []) ++ c :: body) (singleRead false (c :: s)) := by
  obtain rfl | rfl | rfl | rfl := isBreak_iff.mp hc
  · rw [singleRead_other (by decide), hc, ← htext]
    exact Inside.lineBreak hc (.line hc hlines)
  · have hfold := Inside.lineBreak hc hlines
    cases hhead : s.head?.any isBreak <;> simp_all [foldBreaks, readBreak, singleRead]
  · rw [singleRead_other (by decide), hc, ← htext]
    exact Inside.lineBreak hc hlines
  · rw [singleRead_other (by decide), hc, ← htext]
    exact Inside.lineBreak hc hlines

theorem Inside.singleShown {text : List Char} (h : isBlankOrBreak c = false)
    (hs : Inside false s text) : Inside false (singleShown c ++ s) (c :: text) := by
  by_cases hquote : c = '\''
  · subst hquote
    exact hs.doubled
  have hshown : Yaml.singleShown c = [c] := by simp [Yaml.singleShown, hquote]
  rw [hshown]
  by_cases hraw : c = '"' ∨ c = '\\'
  · exact hs.raw hraw
  · refine hs.char ?_
    simp_all [endsQuotedRun]

/-- A space between single quotes, folded or not. -/
theorem inside_singleSpace {text : List Char} (hindent : 0 < indent)
    (h : needsDouble (' ' :: s) = false)
    (hs : ∀ column, Inside false (flowText indent singleShown (some ' ') column s) text) :
    Inside false (flowText indent singleShown previous column (' ' :: s)) (' ' :: text) := by
  have hsolid (hne : s.head? ≠ some ' ') (column : Nat) :
      BeginsSolid (flowText indent singleShown (some ' ') column s) :=
    beginsSolid_flowText h (head?_behind_space h) hne
  rw [flowText, if_neg (by decide)]
  split
  · rename_i hfold
    have hne : s.head? ≠ some ' ' := by
      intro h
      simp [h] at hfold
    exact Inside.lineBreak rfl (.indentation hindent (hsolid hne indent) (hs indent))
  · refine (hs _).space ?_
    by_cases hnext : s.head? = some ' '
    · obtain ⟨t, rfl⟩ := List.head?_eq_some_iff.mp hnext
      exact .inl (head?_flowText rfl rfl (.inr rfl))
    · exact .inr (hsolid hnext _)

/-- What is written between single quotes is read as `singleRead` says. -/
theorem inside_flowText (hindent : 0 < indent) (previous : Option Char) (column : Nat)
    (h : needsDouble (previous.toList ++ s) = false) :
    (previous.any isBreak = false ∨ s.head?.any isBreak = false →
      Inside false (flowText indent singleShown previous column s)
        (singleRead (previous.any isBreak) s)) ∧
    (previous.any isBreak = true → s.head?.any isBreak = true → ∃ lines text, lines ≠ [] ∧
      lines ++ text = singleRead true s ∧
      InsideLines false (flowText indent singleShown previous column s) lines text) := by
  induction s generalizing previous column with
  | nil => exact ⟨fun _ => Inside.nil, fun _ h => nomatch h⟩
  | cons c s ih =>
    have hs : needsDouble (c :: s) = false := by
      cases previous with
      | none => exact h
      | some p => exact (needsDouble_cons_cons.mp h).2.2.2
    cases hc : isBreak c with
    | true =>
      obtain ⟨lines, text, hempty, htext, hlines⟩ :=
        insideLines_of_inside (lineStart indent s).length hindent hc hs
          (fun hhead => by simpa [hc] using (ih (some c) _ hs).1 (.inr hhead))
          (fun hhead => (ih (some c) _ hs).2 hc hhead)
      rw [flowText_break hc]
      constructor
      · intro hprevious
        rw [hprevious.resolve_right (by simp [hc])]
        exact inside_breaks hc hempty htext hlines
      · intro hprevious _
        rw [singleRead_behind_break hc, ← htext, hprevious]
        exact ⟨readBreak c :: lines, text, List.cons_ne_nil _ _, rfl, InsideLines.line hc hlines⟩
    | false =>
      refine ⟨fun _ => ?_, fun _ h => by simp [hc] at h⟩
      have hmore : ∀ column, Inside false (flowText indent singleShown (some c) column s)
          (singleRead false s) := fun column => by
        simpa [hc] using (ih (some c) column hs).1 (.inl hc)
      rw [singleRead_other (by rintro rfl; cases hc), hc]
      by_cases hspace : c = ' '
      · subst hspace
        exact inside_singleSpace hindent hs hmore
      · have hord := isOrdinary_of_needsDouble hs c List.mem_cons_self
        rw [flowText, if_neg (by simp [hc]), if_neg (by simp [hspace])]
        exact (hmore _).singleShown (solid_of_ordinary hord hspace hc)

/-! ## Between double quotes -/

theorem solid_of_shown (h : isShownInDouble c = true) (hspace : c ≠ ' ') :
    isBlankOrBreak c = false := by
  refine isBlankOrBreak_eq_false.mpr ⟨hspace, ?_, ?_, Bool.eq_false_iff.mpr fun hbreak => ?_⟩
  · rintro rfl
    cases h
  · rintro rfl
    cases h
  · obtain rfl | rfl | rfl | rfl := isBreak_iff.mp hbreak <;> cases h

theorem Inside.shown {text : List Char} (h : isShownInDouble c = true) (hspace : c ≠ ' ')
    (hs : Inside true s text) : Inside true (c :: s) (c :: text) := by
  by_cases hquote : c = '\''
  · subst hquote
    exact hs.apostrophe
  · refine hs.char ?_
    have hmarks : c ≠ '"' ∧ c ≠ '\\' := by constructor <;> rintro rfl <;> cases h
    simp [endsQuotedRun, hquote, hmarks, solid_of_shown h hspace]

/-- What is written behind what is pending. It is read as `doubleRead` says, and begins with a
space only if the text does. -/
def BehindPending (indent : Nat) (isFirst : Bool) (s body : List Char) : Prop :=
  Inside true body (doubleRead indent isFirst s) ∧
    (BeginsSolid body ∨ s.head? = some ' ' ∧ body.head? = some ' ')

theorem doubleRead_shown (h : isShownInDouble c = true) :
    doubleRead indent isFirst (c :: s) = c :: doubleRead indent false s := by
  simp [doubleRead, h]

/-- A backslash in front of a space at the beginning of a line. -/
def lineMark (c : Option Char) : List Char := if c == some ' ' then ['\\'] else []

theorem doubleText_shown (h : isShownInDouble c = true) :
    doubleText indent isFirst pending column (c :: rest) =
      if isFirst = false ∧ rest ≠ [] ∧ (c = ' ' ∨ pending = []) ∧
          width < column + pending.length then
        pending.reverse ++ ('\\' :: newLine indent ++ (lineMark (some c) ++
          doubleText indent false [c] (indent + (lineMark (some c)).length) rest))
      else doubleText indent false (c :: pending) column rest := by
  rw [doubleText, if_pos h]
  simp [lineMark, and_assoc]

theorem doubleText_escaped (h : isShownInDouble c = false) :
    doubleText indent isFirst pending column (c :: rest) =
      pending.reverse ++ (doubleEscape c ++
        if isFirst = false ∧ rest ≠ [] ∧
            width + 1 < column + pending.length + (doubleEscape c).length then
          '\\' :: newLine indent ++ (lineMark rest.head? ++
            doubleText indent false [] (indent + (lineMark rest.head?).length) rest)
        else
          doubleText indent false [] (column + pending.length + (doubleEscape c).length) rest) := by
  rw [doubleText, if_neg (by simp [h])]
  simp only [lineMark, Bool.and_eq_true, Bool.not_eq_true', decide_eq_true_eq, and_assoc,
    List.isEmpty_eq_false_iff, ne_eq]
  split <;> simp

/-- Two folds that come together: the second backslash of the line escapes the third. -/
theorem Inside.spoiled {text : List Char} (hindent : 0 < indent) (hs : Inside true s text) :
    Inside true ('\\' :: newLine indent ++ ('\\' :: '\\' :: newLine indent ++ '\\' :: ' ' :: s))
      ('\\' :: ' ' :: ' ' :: text) := by
  have hline : InsideLines true (List.replicate indent ' ' ++ '\\' :: ' ' :: s) [] (' ' :: text) :=
    .indentation hindent rfl hs.escapedSpace
  have hbreak : Inside true (newLine indent ++ '\\' :: ' ' :: s) (' ' :: ' ' :: text) :=
    Inside.lineBreak rfl hline
  exact hbreak.backslash.escapedNewLine hindent rfl

/-- A fold behind an escape, in front of a space: this is folded too if the lines are indented by
the whole width. -/
theorem inside_foldedSpace {body : List Char} (hindent : 0 < indent)
    (hshown : isShownInDouble c = false)
    (htext : doubleText indent false [' '] (indent + 1) s = ' ' :: body)
    (hbody : Inside true body (doubleRead indent false s)) :
    Inside true
      (doubleEscape c ++ ('\\' :: newLine indent ++
        ('\\' :: doubleText indent false [] (indent + 1) (' ' :: s))))
      (doubleRead indent false (c :: ' ' :: s)) := by
  have hspace : isShownInDouble ' ' = true := rfl
  rw [doubleText_shown hspace]
  by_cases hagain : s ≠ [] ∧ width ≤ indent
  · have hread : doubleRead indent false (c :: ' ' :: s) =
        c :: '\\' :: ' ' :: ' ' :: doubleRead indent false s := by
      obtain ⟨d, s, rfl⟩ := List.exists_cons_of_ne_nil hagain.1
      simp [doubleRead, hshown, hspace, isInnerSpace, hagain.2]
    have hmark : lineMark (some ' ') = ['\\'] := rfl
    rw [if_pos ⟨rfl, hagain.1, .inl rfl, Nat.lt_succ_of_le hagain.2⟩, hmark, List.length_singleton,
      htext, hread]
    exact (hbody.spoiled hindent).escaped c
  · have hread : doubleRead indent false (c :: ' ' :: s) =
        c :: ' ' :: doubleRead indent false s := by
      have hspoiled : (width ≤ indent && isInnerSpace (' ' :: s)) = false := by
        cases s <;> simp_all [isInnerSpace]
      simp [doubleRead, hshown, hspace, hspoiled]
    rw [if_neg fun h => hagain ⟨h.2.1, Nat.le_of_lt_succ h.2.2.2⟩, htext, hread]
    have hsolid : BeginsSolid ('\\' :: ' ' :: body) := rfl
    exact (hbody.escapedSpace.escapedNewLine hindent hsolid).escaped c

theorem beginsSolid_doubleEscape (c : Char) (s : List Char) :
    BeginsSolid (doubleEscape c ++ s) := by
  obtain ⟨letter, t, hescape⟩ := doubleEscape_eq_cons c
  rw [hescape]
  rfl

namespace BehindPending

variable {body : List Char}

theorem shown (h : isShownInDouble c = true) (hs : BehindPending indent false s body) :
    BehindPending indent isFirst (c :: s) (c :: body) := by
  rw [BehindPending, doubleRead_shown h]
  by_cases hspace : c = ' '
  · subst hspace
    exact ⟨hs.1.space (hs.2.symm.imp_left And.right), .inr ⟨rfl, rfl⟩⟩
  · refine ⟨hs.1.shown h hspace, .inl ?_⟩
    simp [BeginsSolid, solid_of_shown h hspace]

theorem foldedShown (hindent : 0 < indent) (h : isShownInDouble c = true)
    (hs : BehindPending indent false s body) :
    BehindPending indent isFirst (c :: s)
      ('\\' :: newLine indent ++ (lineMark (some c) ++ c :: body)) := by
  rw [BehindPending, doubleRead_shown h]
  refine ⟨?_, .inl rfl⟩
  by_cases hspace : c = ' '
  · subst hspace
    exact hs.1.escapedSpace.escapedNewLine hindent rfl
  · have hmark : lineMark (some c) = [] := by simp [lineMark, hspace]
    rw [hmark]
    refine (hs.1.shown h hspace).escapedNewLine hindent ?_
    simp [BeginsSolid, solid_of_shown h hspace]

theorem escaped (hspoiled : (width ≤ indent && !isFirst && isInnerSpace s) = false)
    (hs : BehindPending indent false s body) :
    BehindPending indent isFirst (c :: s) (doubleEscape c ++ body) := by
  refine ⟨?_, .inl (beginsSolid_doubleEscape c body)⟩
  have hread : doubleRead indent isFirst (c :: s) = c :: doubleRead indent false s := by
    cases hshown : isShownInDouble c <;> simp [doubleRead, hshown, hspoiled]
  rw [hread]
  exact hs.1.escaped c

/-- A fold behind an escape that is not in front of a space. -/
theorem foldedEscaped (hindent : 0 < indent) (hspace : s.head? ≠ some ' ')
    (hs : BehindPending indent false s body) :
    BehindPending indent isFirst (c :: s) (doubleEscape c ++ ('\\' :: newLine indent ++ body)) := by
  have hfolded : Inside true ('\\' :: newLine indent ++ body) (doubleRead indent false s) :=
    hs.1.escapedNewLine hindent (hs.2.resolve_right fun h => hspace h.1)
  have hinner : isInnerSpace s = false := by
    unfold isInnerSpace
    split
    · exact absurd rfl hspace
    · rfl
  exact escaped (by simp [hinner]) ⟨hfolded, .inl rfl⟩

end BehindPending

/-- What is written between double quotes is read as `doubleRead` says. -/
theorem inside_doubleText (hindent : 0 < indent) (isFirst : Bool) (pending : List Char)
    (hcolumn : indent ≤ column) :
    ∃ body, doubleText indent isFirst pending column s = pending.reverse ++ body ∧
      BehindPending indent isFirst s body := by
  -- Two characters are written at once where an escape is in front of a folded space.
  induction hlength : s.length using Nat.strongRecOn generalizing s isFirst pending column with
  | ind n ih =>
  subst hlength
  cases s with
  | nil => exact ⟨[], by simp [doubleText], Inside.nil, .inl rfl⟩
  | cons c s =>
    have hs : s.length < (c :: s).length := Nat.lt_succ_self _
    cases hshown : isShownInDouble c with
    | true =>
      rw [doubleText_shown hshown]
      split
      · obtain ⟨body, htext, hbody⟩ :=
          ih _ hs false [c] (Nat.le_add_right indent (lineMark (some c)).length) rfl
        exact ⟨_, by rw [htext]; rfl, hbody.foldedShown hindent hshown⟩
      · obtain ⟨body, htext, hbody⟩ := ih _ hs false (c :: pending) hcolumn rfl
        exact ⟨c :: body, by simp [htext], hbody.shown hshown⟩
    | false =>
      rw [doubleText_escaped hshown]
      split
      · rename_i hfold
        obtain ⟨rfl, -, -⟩ := hfold
        by_cases hspace : s.head? = some ' '
        · obtain ⟨r, rfl⟩ := List.head?_eq_some_iff.mp hspace
          have hr : r.length < (c :: ' ' :: r).length := by simp only [List.length_cons]; omega
          obtain ⟨body, htext, hbody, -⟩ := ih _ hr false [' '] (Nat.le_add_right indent 1) rfl
          exact ⟨_, rfl, inside_foldedSpace hindent hshown htext hbody,
            .inl (beginsSolid_doubleEscape c _)⟩
        · have hmark : lineMark s.head? = [] := by simp [lineMark, hspace]
          obtain ⟨body, htext, hbody⟩ := ih _ hs false [] (Nat.le_refl indent) rfl
          rw [hmark, List.nil_append, List.length_nil, Nat.add_zero, htext]
          exact ⟨_, rfl, hbody.foldedEscaped hindent hspace⟩
      · rename_i hfold
        obtain ⟨body, htext, hbody⟩ := ih _ hs false []
          (by omega : indent ≤ column + pending.length + (doubleEscape c).length) rfl
        refine ⟨doubleEscape c ++ body, by rw [htext]; rfl, hbody.escaped ?_⟩
        refine Bool.eq_false_iff.mpr fun h => hfold ?_
        simp only [Bool.and_eq_true, decide_eq_true_eq, Bool.not_eq_true'] at h
        obtain ⟨⟨hwidth, hfirst⟩, hinner⟩ := h
        have hescaped : 2 ≤ (doubleEscape c).length := by
          obtain ⟨letter, t, hescape⟩ := doubleEscape_eq_cons c
          simp [hescape]
        refine ⟨hfirst, ?_, by omega⟩
        rintro rfl
        cases hinner

/-! ## Texts that come back -/

theorem singleRead_eq_self {afterBreak : Bool} : singleRead afterBreak s = s ↔ '\x85' ∉ s := by
  have hnone : ∀ (s : List Char) (afterBreak : Bool), '\x85' ∉ singleRead afterBreak s := by
    intro s
    induction s with
    | nil => simp [singleRead]
    | cons c s ih =>
      intro afterBreak
      by_cases hc : c = '\x85'
      · subst hc
        cases afterBreak <;> cases s.head?.any isBreak <;> simp [singleRead, ih]
      · simp [singleRead_other hc, ih, Ne.symm hc]
  refine ⟨fun h => h ▸ hnone s afterBreak, fun h => ?_⟩
  induction s generalizing afterBreak with
  | nil => rfl
  | cons c s ih =>
    rw [List.mem_cons, not_or] at h
    rw [singleRead_other (Ne.symm h.1), ih h.2]

/-- An escaped pair that is not at the beginning, if that is the one of the text. -/
def HasEscapedPairFrom (isFirst : Bool) (s : List Char) : Prop :=
  ∃ before c behind, s = before ++ c :: ' ' :: behind ∧ isShownInDouble c = false ∧
    (isFirst = true → before ≠ []) ∧ behind ≠ []

theorem hasEscapedPairFrom_cons : HasEscapedPairFrom isFirst (c :: s) ↔
    (isFirst = false ∧ isShownInDouble c = false ∧ isInnerSpace s = true) ∨
      HasEscapedPairFrom false s := by
  constructor
  · rintro ⟨before, d, behind, h, hd, hfirst, hne⟩
    cases before with
    | nil =>
      obtain ⟨rfl, rfl⟩ := List.cons.inj h
      obtain ⟨e, behind, rfl⟩ := List.exists_cons_of_ne_nil hne
      exact .inl ⟨by simpa using hfirst, hd, rfl⟩
    | cons b before =>
      obtain ⟨rfl, rfl⟩ := List.cons.inj h
      exact .inr ⟨before, d, behind, rfl, hd, nofun, hne⟩
  · rintro (⟨rfl, hc, hs⟩ | ⟨before, d, behind, rfl, hd, -, hne⟩)
    · unfold isInnerSpace at hs
      split at hs
      · exact ⟨[], c, _, rfl, hc, nofun, List.cons_ne_nil _ _⟩
      · cases hs
    · exact ⟨c :: before, d, behind, rfl, hd, fun _ => List.cons_ne_nil _ _, hne⟩

theorem length_le_doubleRead (isFirst : Bool) :
    s.length ≤ (doubleRead indent isFirst s).length := by
  induction s generalizing isFirst with
  | nil => exact Nat.le_refl _
  | cons c s ih =>
    have := ih false
    simp only [doubleRead, List.length_append, List.length_cons]
    omega

theorem doubleRead_eq_self :
    doubleRead indent isFirst s = s ↔ indent < width ∨ ¬ HasEscapedPairFrom isFirst s := by
  induction s generalizing isFirst with
  | nil =>
    refine ⟨fun _ => .inr ?_, fun _ => rfl⟩
    rintro ⟨before, c, behind, h, -⟩
    simp at h
  | cons c s ih =>
    rw [hasEscapedPairFrom_cons]
    cases hspoiled : width ≤ indent && !isFirst && !isShownInDouble c && isInnerSpace s with
    | true =>
      have hne : doubleRead indent isFirst (c :: s) ≠ c :: s := by
        intro h
        have hlength := congrArg List.length h
        have := @length_le_doubleRead indent s false
        simp only [doubleRead, hspoiled, ↓reduceIte, List.length_append, List.length_cons,
          List.length_nil] at hlength
        omega
      simp only [Bool.and_eq_true, decide_eq_true_eq, Bool.not_eq_true'] at hspoiled
      obtain ⟨⟨⟨hwidth, hfirst⟩, hshown⟩, hinner⟩ := hspoiled
      refine iff_of_false hne ?_
      rintro (h | h)
      · omega
      · exact h (.inl ⟨hfirst, hshown, hinner⟩)
    | false =>
      have hread : doubleRead indent isFirst (c :: s) = c :: doubleRead indent false s := by
        simp [doubleRead, hspoiled]
      rw [hread, List.cons_inj_right, ih, not_or]
      have hhead : indent < width ∨
          ¬ (isFirst = false ∧ isShownInDouble c = false ∧ isInnerSpace s = true) := by
        simp only [Bool.and_eq_false_iff, decide_eq_false_iff_not, Bool.not_eq_false'] at hspoiled
        rcases hspoiled with ((h | h) | h) | h
        · exact .inl (by omega)
        all_goals exact .inr (by simp [h])
      tauto

theorem needsDouble_of_allowsPlain (h : allowsPlain s = true) : needsDouble s = false := by
  simp only [allowsPlain, Bool.not_eq_true', Bool.or_eq_false_iff] at h
  exact h.1.1.2

theorem no_break_of_allowsPlain (h : allowsPlain s = true) : s.any isBreak = false := by
  simp only [allowsPlain, Bool.not_eq_true', Bool.or_eq_false_iff] at h
  exact h.1.1.1.2

theorem styleOf_plain (h : styleOf s = .plain) :
    allowsPlain s = true ∧ ScalarType.ofPlain s = .text := by
  by_cases hplain : (allowsPlain s && ScalarType.ofPlain s == .text) = true
  · simpa using hplain
  · rw [styleOf, if_neg hplain] at h
    split at h <;> cases h

theorem styleOf_single (h : styleOf s = .single) : needsDouble s = false := by
  refine Bool.eq_false_iff.mpr fun hdouble => ?_
  by_cases hplain : (allowsPlain s && ScalarType.ofPlain s == .text) = true
  · rw [styleOf, if_pos hplain] at h
    cases h
  · rw [styleOf, if_neg hplain, if_pos hdouble] at h
    cases h

theorem readBack_plain (h : styleOf s = .plain) : readBack indent s = s := by
  delta readBack
  simp only [h]

/-- The texts that come back unchanged. -/
theorem readBack_eq_iff : readBack indent s = s ↔ Kept indent s := by
  unfold readBack Kept styleOf
  by_cases hplain : (allowsPlain s && ScalarType.ofPlain s == .text) = true
  · have hallows : allowsPlain s = true := (Bool.and_eq_true_iff.mp hplain).1
    have hbreak : '\x85' ∉ s := by
      have hnone := List.any_eq_false.mp (no_break_of_allowsPlain hallows)
      exact fun hmem => hnone _ hmem rfl
    simp [hplain, needsDouble_of_allowsPlain hallows, hbreak]
  · rw [if_neg hplain]
    cases hdouble : needsDouble s with
    | true =>
      have hpair : HasEscapedPairFrom true s ↔ HasEscapedPair s := by
        simp [HasEscapedPairFrom, HasEscapedPair]
      simp [doubleRead_eq_self, hpair]
    | false => simp [singleRead_eq_self]

theorem readText_eq_iff {s : String} : readText indent s = s ↔ Kept indent s.toList := by
  rw [← readBack_eq_iff, readText, ← String.toList_inj, String.toList_ofList]

end DhallSyntax.Yaml
