import DhallSyntax.Proofs.Yaml.Folding

/-!
Plain YAML scalars read back. The scanner reads the parts of lines and the gaps between them;
`PlainRead` says the same from one character to the next. Main statement: `run_plain`, a text that
may be written plain is read back from what is written, and the line behind it ends as well.
-/

namespace DhallSyntax.Yaml

open Scan

/-- Behind a text comes no mark between documents, however far its line is indented. -/
def BeginsLine (rest : List Char) : Prop :=
  BeginsSolid rest ∧ ∀ k (place : Cursor), place.rest = List.replicate k ' ' ++ rest →
    place.isAtAnyMark = false

/-- A line may go on with a plain scalar here. -/
def BeginsPart (s : List Char) : Prop := plainPart false s ≠ [] ∧ s.head? ≠ some '#'

/-- A character that does not end a part in front of a rest. -/
def IsPlainIn (c : Char) (rest : List Char) : Prop :=
  isBlankOrBreak c = false ∧ ¬ (c = ':' ∧ rest.head?.all isBlankOrBreak = true)

/-- The text of a plain scalar from within one of its parts, and the place behind the line break
that ends it. Its further lines begin at column `least` or behind it. -/
inductive PlainRead (least : Nat) : Cursor → List Char → Cursor → Prop
  | done {place : Cursor} {k : Nat} {rest : List Char} :
      place.rest = newLine k ++ rest → BeginsLine rest → k < least →
      PlainRead least place [] (place.forward (k + 1))
  | char {place last : Cursor} {c : Char} {rest text : List Char} :
      place.rest = c :: rest → IsPlainIn c rest → PlainRead least (place.forward 1) text last →
      PlainRead least place (c :: text) last
  | blanks {place last : Cursor} {n : Nat} {rest text : List Char} :
      place.rest = List.replicate (n + 1) ' ' ++ rest → BeginsPart rest →
      least ≤ (place.forward (n + 1)).column → PlainRead least (place.forward (n + 1)) text last →
      PlainRead least place (List.replicate (n + 1) ' ' ++ text) last
  | line {place last : Cursor} {k : Nat} {rest text : List Char} :
      place.rest = newLine k ++ rest → BeginsPart rest → 0 < k → least ≤ k →
      PlainRead least (place.forward (k + 1)) text last → PlainRead least place (' ' :: text) last

variable {least indent column k n : Nat} {place last : Cursor} {c : Char}
  {s rest text bound : List Char}

/-! ## Parts and gaps -/

theorem plainPart_cons (h : IsPlainIn c rest) :
    plainPart false (c :: rest) = c :: plainPart false rest := by
  have hclose : (c == ':' && rest.head?.all isBlankOrBreak) = false := by
    refine Bool.eq_false_iff.mpr fun hand => h.2 ?_
    simpa using hand
  simp [plainPart, h.1]
  simpa using hclose

theorem plainPart_blank (h : isBlankOrBreak c = true) : plainPart false (c :: rest) = [] := by
  simp [plainPart, h]

theorem head?_plainPart (h : plainPart false s ≠ []) :
    (plainPart false s).head? = s.head? := by
  cases s with
  | nil => rfl
  | cons c s =>
    rw [plainPart] at h ⊢
    split at h
    · exact absurd rfl h
    · rename_i hc
      rw [if_neg hc]
      rfl

theorem BeginsPart.solid (h : BeginsPart s) :
    ∃ c rest, s = c :: rest ∧ isBlankOrBreak c = false := by
  obtain ⟨hpart, -⟩ := h
  cases s with
  | nil => exact absurd rfl hpart
  | cons c rest =>
    refine ⟨c, rest, rfl, Bool.eq_false_iff.mpr fun hc => hpart (plainPart_blank hc)⟩

theorem BeginsPart.beginsSolid (h : BeginsPart s) : BeginsSolid s := by
  obtain ⟨c, rest, rfl, hc⟩ := h.solid
  simp [BeginsSolid, hc]

theorem run_plainGap_blanks (h : place.rest = List.replicate n ' ' ++ rest)
    (hsolid : BeginsSolid rest) :
    plainGap.run place = .ok ((List.replicate n ' ', false), place.forward n) := by
  simp only [plainGap, StateT.run_bind, run_takeWhile_spaces h hsolid.head?_ne_space, ok_bind,
    run_lineBreak_solid (Cursor.forward_rest_replicate h) hsolid]
  rfl

theorem run_emptyLines_nil (h : place.rest = List.replicate k ' ' ++ rest)
    (hsolid : BeginsSolid rest) :
    (emptyLines place.rest).run place = .ok (some [], place.forward k) := by
  cases hbound : place.rest with
  | nil =>
    rw [hbound, eq_comm, List.append_eq_nil_iff, List.replicate_eq_nil_iff] at h
    rw [h.1]
    rfl
  | cons b bound =>
    simp only [emptyLines, StateT.run_bind, run_skipSpaces h hsolid.head?_ne_space, ok_bind,
      run_lineBreak_solid (Cursor.forward_rest_replicate h) hsolid]
    rfl

theorem run_plainGap_newLine (h : place.rest = newLine k ++ rest) (hsolid : BeginsSolid rest)
    (hmark : (place.forward 1).isAtAnyMark = false) :
    plainGap.run place = .ok (([' '], true), place.forward (k + 1)) := by
  have hstop : (takeWhile (· == ' ')).run place = .ok ([], place) :=
    run_takeWhile_spaces (n := 0) h nofun
  have hlines := run_emptyLines_nil (Cursor.forward_rest_cons h) hsolid
  rw [Cursor.forward_add, Nat.add_comm] at hlines
  simp only [plainGap, StateT.run_bind, hstop, ok_bind, run_lineBreak h rfl, StateT.run_get,
    pure_bind, hmark, Bool.false_eq_true, ↓reduceIte, hlines]
  rfl

/-! ## What is derived is what is read -/

/-- How a plain scalar goes on behind one of its parts, with what has been read so far. -/
def plainBehind (least : Nat) (bound read : List Char) : Scan (List Char × Bool) := do
  let (next, broken) ← plainGap
  if next.isEmpty || (← get).column < least then return (read, broken)
  let (more, broken) ← plainRest false least bound next broken
  return (read ++ more, broken)

theorem run_plainRest_cons (h : BeginsPart place.rest) (b : Char) (bound gap : List Char)
    (broken : Bool) :
    (plainRest false least (b :: bound) gap broken).run place =
      (plainBehind least bound (gap ++ plainPart false place.rest)).run
        (place.forward (plainPart false place.rest).length) := by
  have hhead : ¬ ((plainPart false place.rest).isEmpty ||
      (plainPart false place.rest).head? == some '#') = true := by
    obtain ⟨hpart, hnumber⟩ := h
    have hsame : (plainPart false place.rest).head? = place.rest.head? :=
      head?_plainPart hpart
    simpa [hsame] using ⟨hpart, hnumber⟩
  simp only [plainRest, StateT.run_bind, StateT.run_get, pure_bind, if_neg hhead, run_skip, ok_bind,
    Bool.not_false, Bool.true_and, plainBehind]

/-- A text is the rest of a part and what the scanner reads behind it. -/
def ReadFrom (least : Nat) (place : Cursor) (text : List Char) (last : Cursor) : Prop :=
  ∃ behind, text = plainPart false place.rest ++ behind ∧ ∀ bound read,
    (place.forward (plainPart false place.rest).length).rest.length ≤ bound.length →
    (plainBehind least bound read).run (place.forward (plainPart false place.rest).length) =
      .ok ((read ++ behind, true), last)

theorem ReadFrom.run (h : ReadFrom least place text last) (hpart : BeginsPart place.rest)
    (hbound : place.rest.length ≤ bound.length) (gap : List Char) (broken : Bool) :
    (plainRest false least bound gap broken).run place = .ok ((gap ++ text, true), last) := by
  obtain ⟨behind, rfl, hrun⟩ := h
  obtain ⟨c, rest, hc, -⟩ := hpart.solid
  obtain ⟨b, bound, rfl, hlength⟩ := Cursor.exists_bound hc hbound
  have hpos : 0 < (plainPart false place.rest).length := List.length_pos_iff.mpr hpart.1
  have hless : (place.forward (plainPart false place.rest).length).rest.length ≤ bound.length := by
    have hall : place.rest.length = rest.length + 1 := congrArg List.length hc
    rw [Cursor.forward_rest, List.length_drop]
    omega
  rw [run_plainRest_cons hpart, hrun bound _ hless, List.append_assoc]

/-- A gap is read, and then what follows it, if that is not less indented. -/
theorem run_plainBehind_gap {gap : List Char} {broken : Bool} {next : Cursor}
    (hgap : plainGap.run place = .ok ((gap, broken), next)) (hne : gap ≠ [])
    (hcolumn : least ≤ next.column) (hpart : BeginsPart next.rest)
    (hless : next.rest.length ≤ place.rest.length) (hmore : ReadFrom least next text last)
    (bound read : List Char) (hbound : place.rest.length ≤ bound.length) :
    (plainBehind least bound read).run place = .ok ((read ++ (gap ++ text), true), last) := by
  have hstay : ¬ (gap.isEmpty || decide (next.column < least)) = true := by
    simpa [hne] using hcolumn
  have hrun := hmore.run hpart (Nat.le_trans hless hbound) gap broken
  rw [plainBehind]
  simp only [StateT.run_bind, hgap, ok_bind, StateT.run_get, pure_bind, if_neg hstay, hrun]
  rfl

theorem PlainRead.readFrom (h : PlainRead least place text last) :
    ReadFrom least place text last := by
  induction h with
  | @done place k rest h hline hk =>
    have hpart : plainPart false place.rest = [] := by rw [h]; rfl
    unfold ReadFrom
    have hgap := run_plainGap_newLine h hline.1 (hline.2 k _ (Cursor.forward_rest_cons h))
    have hcolumn : (place.forward (k + 1)).column = k := by rw [Cursor.forward_newLine h]
    refine ⟨[], by rw [hpart]; rfl, fun bound read _ => ?_⟩
    rw [hpart, plainBehind]
    simp only [List.length_nil, Cursor.forward_zero, StateT.run_bind, hgap, ok_bind,
      StateT.run_get, pure_bind, hcolumn, decide_eq_true hk, Bool.or_true, ↓reduceIte,
      List.append_nil]
    rfl
  | @char place last c rest text h hc _ ih =>
    obtain ⟨behind, htext, hmore⟩ := ih
    rw [Cursor.forward_rest_cons h] at htext hmore
    have hpart : plainPart false place.rest = c :: plainPart false rest := by
      rw [h, plainPart_cons hc]
    refine ⟨behind, by rw [hpart, htext]; rfl, ?_⟩
    simpa only [hpart, List.length_cons, Cursor.forward_add, Nat.add_comm 1] using hmore
  | @blanks place last n rest text h hpart hcolumn _ ih =>
    have hnone : plainPart false place.rest = [] := by rw [h]; rfl
    unfold ReadFrom
    have hrest := Cursor.forward_rest_replicate h
    rw [hnone]
    refine ⟨_, rfl, fun bound read hbound => ?_⟩
    exact run_plainBehind_gap (run_plainGap_blanks h hpart.beginsSolid) (by simp) hcolumn
      (hrest ▸ hpart) (by simp [h]) ih bound read hbound
  | @line place last k rest text h hpart hk hleast _ ih =>
    have hnone : plainPart false place.rest = [] := by rw [h]; rfl
    unfold ReadFrom
    have hrest := Cursor.forward_rest_newLine h
    have hmark := isAtAnyMark_replicate hk (Cursor.forward_rest_cons h)
    have hcolumn : least ≤ (place.forward (k + 1)).column := by rwa [Cursor.forward_newLine h]
    rw [hnone]
    refine ⟨_, rfl, fun bound read hbound => ?_⟩
    exact run_plainBehind_gap (run_plainGap_newLine h hpart.beginsSolid hmark) (by simp) hcolumn
      (hrest ▸ hpart) (by simp [h, newLine]; omega) ih bound read hbound

/-! ## What is written -/

/-- A text within which a plain scalar may go on behind a character. -/
structure PlainBehind (previous : Char) (s : List Char) : Prop where
  ordinary : ∀ c ∈ s, isOrdinary c = true ∧ isBreak c = false
  noMark : hasInnerMark (previous :: s) = false
  last : s.getLast? ≠ some ' '

variable {previous : Option Char} {p : Char}

/-- A plain text as it is written on several lines. -/
def plainText (indent : Nat) (previous : Option Char) (column : Nat) (s : List Char) : List Char :=
  flowText indent (fun c => [c]) previous column s

theorem plainText_space :
    plainText indent previous column (' ' :: c :: s) =
      if width < column ∧ previous.any (· != ' ') = true ∧ c ≠ ' ' then
        newLine indent ++ plainText indent (some ' ') indent (c :: s)
      else ' ' :: plainText indent (some ' ') (column + 1) (c :: s) := by
  have hspace : ¬ isBreak ' ' = true := by decide
  rw [plainText, flowText, if_neg hspace]
  simp [plainText, and_assoc]

theorem length_newLine : (newLine indent).length = indent + 1 := by simp [newLine]

namespace PlainBehind

theorem tail (h : PlainBehind p (c :: s)) : PlainBehind c s where
  ordinary d hd := h.ordinary d (List.mem_cons_of_mem _ hd)
  noMark := by
    have := h.noMark
    simp only [hasInnerMark, Bool.or_eq_false_iff] at this ⊢
    exact this.2
  last hs := h.last (by simp [List.getLast?_cons, hs])

theorem solid (h : PlainBehind p (c :: s)) (hspace : c ≠ ' ') : isBlankOrBreak c = false :=
  have hc := h.ordinary c List.mem_cons_self
  solid_of_ordinary hc.1 hspace hc.2

theorem ne_number (h : PlainBehind ' ' (c :: s)) : c ≠ '#' := by
  rintro rfl
  have := h.noMark
  simp [hasInnerMark, isBlankOrBreak] at this

theorem not_blankNext (h : PlainBehind p (':' :: s)) : isBlankNext s = false := by
  have := h.noMark
  simp only [hasInnerMark, Bool.or_eq_false_iff] at this
  exact this.1

/-- Whatever follows what is written, a character that is no space does not end a part. -/
theorem isPlainIn (h : PlainBehind p (c :: s)) (hspace : c ≠ ' ') (t : List Char) :
    IsPlainIn c (plainText indent (some c) column s ++ t) := by
  refine ⟨h.solid hspace, ?_⟩
  rintro ⟨rfl, hblank⟩
  have hnext := h.not_blankNext
  cases s with
  | nil => cases hnext
  | cons d s =>
    simp only [isBlankNext, Bool.or_eq_false_iff] at hnext
    have hd := isBlankOrBreak_eq_false.mp hnext.2
    have hhead : (plainText indent (some ':') column (d :: s)).head? = some d :=
      head?_flowText rfl hd.2.2.2 (.inl hd.1)
    simp [List.head?_append, hhead, hnext.2] at hblank

theorem plainText_cons (h : PlainBehind p (c :: s)) (hspace : c ≠ ' ') :
    plainText indent previous column (c :: s) = c :: plainText indent (some c) (column + 1) s := by
  have hc := (h.ordinary c List.mem_cons_self).2
  simp [plainText, flowText, hc, hspace]

theorem beginsPart (h : PlainBehind ' ' (c :: s)) (hspace : c ≠ ' ') (t : List Char) :
    BeginsPart (plainText indent previous column (c :: s) ++ t) := by
  rw [h.plainText_cons hspace, List.cons_append]
  refine ⟨?_, by simpa using h.ne_number⟩
  rw [plainPart_cons (h.isPlainIn hspace t)]
  exact List.cons_ne_nil _ _

/-- Behind a space that is not folded comes another one, or the next part. -/
theorem behindSpace (h : PlainBehind ' ' (c :: s)) (column : Nat) (t : List Char) :
    (plainText indent (some ' ') column (c :: s) ++ t).head? = some ' ' ∨
      BeginsPart (plainText indent (some ' ') column (c :: s) ++ t) := by
  by_cases hspace : c = ' '
  · subst hspace
    have hhead : (plainText indent (some ' ') column (' ' :: s)).head? = some ' ' :=
      head?_flowText rfl rfl (.inr rfl)
    rw [List.head?_append, hhead]
    exact .inl rfl
  · exact .inr (h.beginsPart hspace t)

end PlainBehind

/-- A space that no line break follows stands for itself. -/
theorem PlainRead.space (h : place.rest = ' ' :: rest)
    (hnext : rest.head? = some ' ' ∨ BeginsPart rest) (hcolumn : least ≤ (place.forward 1).column)
    (hmore : PlainRead least (place.forward 1) text last) :
    PlainRead least place (' ' :: text) last := by
  obtain hspace | hpart := hnext
  · obtain ⟨t, rfl⟩ := List.head?_eq_some_iff.mp hspace
    have hrest : (place.forward 1).rest = ' ' :: t := Cursor.forward_rest_cons h
    cases hmore with
    | done h' => cases hrest.symm.trans h'
    | char h' hc =>
      obtain rfl := (List.cons.inj (hrest.symm.trans h')).1
      cases hc.1
    | @blanks _ _ n behind _ h' hpart hcolumn hmore =>
      rw [Cursor.forward_add, Nat.add_comm 1] at hcolumn hmore
      have hspaces : place.rest = List.replicate (n + 1 + 1) ' ' ++ behind := by
        rw [h, ← hrest, h']
        rfl
      exact .blanks hspaces hpart hcolumn hmore
    | line h' => cases hrest.symm.trans h'
  · have hspaces : place.rest = List.replicate (0 + 1) ' ' ++ rest := h
    exact .blanks hspaces hpart hcolumn hmore

theorem column_forward_ordinary (h : place.rest = c :: rest) (hc : isOrdinary c = true)
    (hbreak : isBreak c = false) : (place.forward 1).column = place.column + 1 := by
  have hwide : Cursor.IsWide c := by
    refine ⟨?_, ?_⟩
    · have hr : c ≠ '\r' := by rintro rfl; cases hc
      simp [isAnyBreak, hr, hbreak]
    · rintro rfl
      cases hc
  have hnext : place.forward 1 = _ := Cursor.next_wide h hwide
  rw [hnext]

/-- A plain text that was written is read as itself, with the line break behind it. -/
theorem plainRead_plainText (hindent : 0 < indent) (hleast : least ≤ indent) (hk : k < least)
    (hline : BeginsLine rest) (hs : PlainBehind (previous.getD ' ') s)
    (hcolumn : least ≤ place.column)
    (h : place.rest = plainText indent previous column s ++ (newLine k ++ rest)) :
    PlainRead least place s
      (place.forward ((plainText indent previous column s).length + (k + 1))) := by
  induction s generalizing previous column place with
  | nil =>
    rw [plainText, flowText, List.length_nil, Nat.zero_add]
    exact .done h hline hk
  | cons c s ih =>
    have hc := hs.ordinary c List.mem_cons_self
    -- From the next character on, if it stands right behind this one.
    have hmore : ∀ column', place.rest = c :: (plainText indent (some c) column' s ++
        (newLine k ++ rest)) → PlainRead least (place.forward 1) s
          (place.forward ((plainText indent (some c) column' s).length + 1 + (k + 1))) := by
      intro column' h
      have hcolumn' := column_forward_ordinary h hc.1 hc.2
      have hrun := @ih column' (place.forward 1) (some c) hs.tail (by omega)
        (Cursor.forward_rest_cons h)
      rwa [Cursor.forward_add, ← Nat.add_assoc, Nat.add_comm 1] at hrun
    by_cases hspace : c = ' '
    · subst hspace
      cases s with
      | nil => exact absurd rfl hs.last
      | cons d s =>
        rw [plainText_space] at h ⊢
        split at h <;> rename_i hfold
        · rw [if_pos hfold]
          rw [List.append_assoc] at h
          have hrun := @ih indent (place.forward (indent + 1)) (some ' ') hs.tail
            (by rwa [Cursor.forward_newLine h]) (Cursor.forward_rest_newLine h)
          rw [Cursor.forward_add, ← Nat.add_assoc] at hrun
          rw [List.length_append, length_newLine]
          exact .line h (hs.tail.beginsPart hfold.2.2 _) hindent hleast hrun
        · rw [if_neg hfold]
          rw [List.cons_append] at h
          have hnext : least ≤ (place.forward 1).column := by
            rw [column_forward_ordinary h hc.1 hc.2]
            omega
          exact .space h (hs.tail.behindSpace _ _) hnext (hmore _ h)
    · rw [hs.plainText_cons hspace] at h ⊢
      exact .char h (hs.isPlainIn hspace _) (hmore _ h)

/-- A text that may be written plain has no mark at its beginning either. -/
theorem plainBehind_of_allowsPlain (h : allowsPlain s = true) : PlainBehind ' ' s := by
  have hbreak := List.any_eq_false.mp (no_break_of_allowsPlain h)
  have hord := isOrdinary_of_needsDouble (needsDouble_of_allowsPlain h)
  simp only [allowsPlain, Bool.not_eq_true', Bool.or_eq_false_iff] at h
  obtain ⟨⟨⟨⟨⟨⟨-, hlead⟩, hinner⟩, -⟩, -⟩, -⟩, hlast⟩ := h
  refine ⟨fun c hc => ⟨hord c hc, by simpa using hbreak c hc⟩, ?_, by simpa using hlast⟩
  unfold hasInnerMark
  rw [hinner, Bool.or_false]
  split
  · simpa [hasLeadingMark] using hlead
  · simp [hasLeadingMark] at hlead
  · rfl

/-- A text that may be written plain is read back, with the line break behind it. -/
theorem run_plain (hallows : allowsPlain s = true) (hne : s ≠ []) (hindent : 0 < indent)
    (hleast : least ≤ indent) (hk : k < least) (hline : BeginsLine rest)
    (hcolumn : least ≤ place.column)
    (h : place.rest = plainText indent none column s ++ (newLine k ++ rest)) :
    (Scan.plain false least).run place = .ok ((String.ofList s, true),
      place.forward ((plainText indent none column s).length + (k + 1))) := by
  have hs := plainBehind_of_allowsPlain hallows
  obtain ⟨c, s, rfl⟩ := List.exists_cons_of_ne_nil hne
  have hspace : c ≠ ' ' := by
    rintro rfl
    simp [allowsPlain] at hallows
  have hpart : BeginsPart place.rest := h ▸ hs.beginsPart hspace _
  have hread : PlainRead least place (c :: s) _ :=
    @plainRead_plainText _ _ _ _ _ _ _ none hindent hleast hk hline hs hcolumn h
  have hrest := hread.readFrom.run hpart (Nat.le_refl _) [] false
  rw [Scan.plain]
  simp only [StateT.run_bind, StateT.run_get, pure_bind, hrest, ok_bind]
  rfl

end DhallSyntax.Yaml
