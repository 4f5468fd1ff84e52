import DhallSyntax.Parser.Error
import Mathlib.Data.List.Induction
import Mathlib.Data.List.TakeWhile

/-!
Places in a source text against the text itself. Main statements:

* `Location.of_in`: the search in the table of lines gives the number of line feeds in front of an
  offset and the distance from the last of them;
* `Location.line_split`: the text around an offset that an excerpt shows is the line of that number;
* `location_shown`: so a place and an excerpt of an error at it are of the same line and column.
-/

namespace DhallSyntax

namespace Location

variable {source : List Char} {offset : Nat}

/-! ## The table of lines -/

/-- A line with a number of lines before it begins at an offset: nothing or a line feed is in front
of it. -/
structure BeginsLine (source : List Char) (line start : Nat) : Prop where
  within : start ≤ source.length
  before : (source.take start).count '\n' = line
  behind : start = 0 ∨ (source.take start).getLast? = some '\n'

theorem BeginsLine.append {line start : Nat} (h : BeginsLine source line start)
    (more : List Char) : BeginsLine (source ++ more) line start := by
  have htake : (source ++ more).take start = source.take start :=
    List.take_append_of_le_length h.within
  refine ⟨?_, htake ▸ h.before, htake ▸ h.behind⟩
  rw [List.length_append]
  exact Nat.le_add_right_of_le h.within

theorem lineStarts_append_singleton (source : List Char) (c : Char) :
    lineStarts (source ++ [c]) =
      if c = '\n' then (lineStarts source).push (source.length + 1) else lineStarts source := by
  have hoffset : ∀ (s : List Char) (start : Nat × Array Nat),
      (s.foldl passChar start).1 = start.1 + s.length := by
    intro s
    induction s with
    | nil => exact fun _ => rfl
    | cons c s ih =>
      intro start
      rw [List.foldl_cons, ih, List.length_cons]
      exact Nat.add_right_comm ..
  simp only [lineStarts, List.foldl_append, List.foldl_cons, List.foldl_nil, passChar, hoffset,
    Nat.zero_add]

/-- The table has every line, in order. -/
theorem lineStarts_begin (source : List Char) :
    (lineStarts source).size = source.count '\n' + 1 ∧
      ∀ line ≤ source.count '\n', BeginsLine source line ((lineStarts source).getD line 0) := by
  induction source using List.reverseRecOn with
  | nil =>
    refine ⟨rfl, fun line hline => ?_⟩
    obtain rfl : line = 0 := by simpa using hline
    exact ⟨Nat.le_refl _, rfl, .inl rfl⟩
  | append_singleton s c ih =>
    obtain ⟨hsize, hbegin⟩ := ih
    rw [lineStarts_append_singleton, List.count_append, List.count_singleton]
    split
    · rename_i hc
      subst hc
      refine ⟨by simp [hsize], fun line hline => ?_⟩
      obtain hline | rfl := Nat.lt_or_eq_of_le hline
      · have hold : line < (lineStarts s).size := by simpa [hsize] using hline
        have hget : ((lineStarts s).push (s.length + 1)).getD line 0 =
            (lineStarts s).getD line 0 := by
          simp [Array.getD_eq_getD_getElem?, Array.getElem?_push_lt hold, hold]
        rw [hget]
        exact (hbegin line (by omega)).append _
      · have hget : ((lineStarts s).push (s.length + 1)).getD (s.count '\n' + 1) 0 =
            s.length + 1 := by
          simp [Array.getD_eq_getD_getElem?, ← hsize]
        simp only [beq_self_eq_true, if_true, hget]
        refine ⟨by simp, ?_, .inr ?_⟩
        · rw [List.take_of_length_le (by simp), List.count_append, List.count_singleton_self]
        · rw [List.take_of_length_le (by simp), List.getLast?_concat]
    · rename_i hc
      rw [if_neg (by simpa using hc), Nat.add_zero]
      exact ⟨hsize, fun line hline => (hbegin line hline).append _⟩

/-- The lines that begin at an offset or before it are those with no more line feeds before them. -/
theorem BeginsLine.le_iff {line start : Nat} (h : BeginsLine source line start) :
    start ≤ offset ↔ line ≤ (source.take offset).count '\n' := by
  constructor
  · intro hle
    exact h.before ▸ (List.take_sublist_take_left hle).count_le _
  · intro hle
    by_contra hlt
    obtain rfl | hlast := h.behind
    · exact hlt (Nat.zero_le _)
    · -- Then the line feed in front of the line is behind the offset.
      obtain ⟨front, hfront⟩ := List.getLast?_eq_some_iff.mp hlast
      have hbefore := h.before
      rw [hfront, List.count_append, List.count_singleton_self] at hbefore
      have hlength := congrArg List.length hfront
      rw [List.length_take_of_le h.within, List.length_append, List.length_singleton] at hlength
      have hshort : (front ++ ['\n']).take offset = front.take offset :=
        List.take_append_of_le_length (by omega)
      have htake : source.take offset = front.take offset := by
        rw [← hshort, ← hfront, List.take_take, Nat.min_eq_left (by omega)]
      have hcount := (List.take_sublist offset front).count_le '\n'
      rw [htake] at hle
      omega

/-! ## The search -/

/-- Halving finds the place where a table passes an offset. -/
theorem countUpTo_eq {table : Array Nat} {low high count : Nat}
    (hcount : ∀ i < table.size, table.getD i 0 ≤ offset ↔ i < count)
    (hlow : low ≤ count) (hhigh : count ≤ high) (hsize : high ≤ table.size) :
    countUpTo table offset low high = count := by
  fun_induction countUpTo table offset low high with
  | case1 low high hlt middle hbefore ih =>
    have hmiddle := hcount middle (by omega)
    exact ih hlow (by omega) (by omega)
  | case2 low high hlt middle hbefore ih =>
    have hmiddle := hcount middle (by omega)
    exact ih (by omega) hhigh hsize
  | case3 low high hlt => omega

/-- The line of an offset is counted by the line feeds before it, and its column from where that
line begins. -/
theorem of_eq (source : List Char) (offset : Nat) :
    ∃ start, start = (lineStarts source).getD ((source.take offset).count '\n') 0 ∧
      BeginsLine source ((source.take offset).count '\n') start ∧ start ≤ offset ∧
      of source offset = ⟨offset, (source.take offset).count '\n' + 1, offset - start + 1⟩ := by
  obtain ⟨hsize, hbegin⟩ := lineStarts_begin source
  have hle : (source.take offset).count '\n' ≤ source.count '\n' :=
    (List.take_sublist offset source).count_le _
  have hline : countUpTo (lineStarts source) offset 0 (lineStarts source).size =
      (source.take offset).count '\n' + 1 := by
    refine countUpTo_eq (fun i hi => ?_) (Nat.zero_le _) (by omega) (Nat.le_refl _)
    exact (hbegin i (by omega)).le_iff.trans Nat.lt_succ_iff.symm
  have hstart := hbegin _ hle
  refine ⟨_, rfl, hstart, hstart.le_iff.mpr (Nat.le_refl _), ?_⟩
  simp only [of, hline, Nat.add_sub_cancel]

/-! ## Places in the source -/

/-- A location of a source. Its line is counted by the line feeds in front of it, and its column by
the characters between the last of them and the place itself, both from one. -/
structure In (source : List Char) (l : Location) : Prop where
  within : l.offset ≤ source.length
  line : l.line = 1 + (source.take l.offset).count '\n'
  column : ∃ before line, source.take l.offset = before ++ line ∧
    (before = [] ∨ before.getLast? = some '\n') ∧ '\n' ∉ line ∧ l.column = 1 + line.length

/-- The text before an offset ends with the part of its line that is before it. -/
theorem of_split (h : offset ≤ source.length) :
    ∃ before head, source.take offset = before ++ head ∧
      (before = [] ∨ before.getLast? = some '\n') ∧ '\n' ∉ head ∧
      (of source offset).line = 1 + before.count '\n' ∧
      (of source offset).column = 1 + head.length := by
  obtain ⟨start, -, hstart, hle, heq⟩ := of_eq source offset
  have hsplit : source.take offset = source.take start ++ (source.take offset).drop start := by
    conv_lhs => rw [← List.take_append_drop start (source.take offset)]
    rw [List.take_take, Nat.min_eq_left hle]
  refine ⟨_, _, hsplit, ?_, fun hmem => ?_, ?_, ?_⟩
  · exact hstart.behind.imp_left fun hzero => by rw [hzero, List.take_zero]
  · -- The line feeds before the offset are those before the beginning of its line.
    have hcount := congrArg (List.count '\n') hsplit
    rw [List.count_append, hstart.before] at hcount
    have := List.count_pos_iff.mpr hmem
    omega
  · rw [heq, hstart.before]
    exact Nat.add_comm _ _
  · rw [heq, List.length_drop, List.length_take_of_le h]
    exact Nat.add_comm _ _

theorem of_in (h : offset ≤ source.length) : (of source offset).In source := by
  obtain ⟨before, head, hsplit, hbefore, hhead, hline, hcolumn⟩ := of_split h
  have hcount : (source.take offset).count '\n' = before.count '\n' := by
    rw [hsplit, List.count_append, List.count_eq_zero_of_not_mem hhead, Nat.add_zero]
  exact ⟨h, hline.trans (congrArg _ hcount.symm), before, head, hsplit, hbefore, hhead, hcolumn⟩

/-- One place is on an earlier line than another, or before it on the same line. -/
def Precedes (l m : Location) : Prop :=
  l.line < m.line ∨ l.line = m.line ∧ l.column < m.column

theorem of_precedes {a b : Nat} (h : a < b) : (of source a).Precedes (of source b) := by
  obtain ⟨start, hget, -, hle, heq⟩ := of_eq source a
  obtain ⟨start', hget', -, -, heq'⟩ := of_eq source b
  have hcount : (source.take a).count '\n' ≤ (source.take b).count '\n' :=
    (List.take_sublist_take_left (Nat.le_of_lt h)).count_le _
  rw [heq, heq']
  obtain hless | hsame := Nat.lt_or_eq_of_le hcount
  · exact .inl (Nat.succ_lt_succ hless)
  · rw [← hsame, ← hget] at hget'
    refine .inr ⟨congrArg (· + 1) hsame, ?_⟩
    dsimp only
    omega

theorem Precedes.not_symm {l m : Location} (h : l.Precedes m) : ¬ m.Precedes l := by
  unfold Precedes at *
  omega

/-! ## The line of a place -/

theorem length_splitOn (source : List Char) :
    (source.splitOn '\n').length = source.count '\n' + 1 := by
  induction source with
  | nil => rfl
  | cons c source ih =>
    rw [List.splitOn_cons_eq_if_modifyHead, List.count_cons]
    split
    · rw [List.length_cons, ih]
    · rw [List.length_modifyHead, ih, Nat.add_zero]

/-- What stands between line feeds is the line that the line feeds before it count. -/
theorem line_split {before line after : List Char}
    (hbefore : before = [] ∨ before.getLast? = some '\n') (hline : '\n' ∉ line)
    (hafter : after = [] ∨ after.head? = some '\n') :
    ((before ++ (line ++ after)).splitOn '\n')[before.count '\n']? = some line := by
  have hrest : ((line ++ after).splitOn '\n')[0]? = some line := by
    obtain rfl | hhead := hafter
    · rw [List.append_nil, List.splitOn_eq_singleton hline]
      rfl
    · obtain ⟨after, rfl⟩ := List.head?_eq_some_iff.mp hhead
      rw [List.splitOn_append_cons_self_of_not_mem hline]
      rfl
  obtain rfl | hlast := hbefore
  · exact hrest
  · obtain ⟨front, rfl⟩ := List.getLast?_eq_some_iff.mp hlast
    rw [List.append_assoc, List.singleton_append, List.splitOn_append_cons_self,
      List.count_append, List.count_singleton_self, ← length_splitOn,
      List.getElem?_append_right (Nat.le_refl _), Nat.sub_self, hrest]

theorem lineHead_eq {before line : List Char} (h : source.take offset = before ++ line)
    (hbefore : before = [] ∨ before.getLast? = some '\n') (hline : '\n' ∉ line) :
    lineHead source offset = line := by
  have hwhile : (line.reverse ++ before.reverse).takeWhile (· != '\n') = line.reverse := by
    rw [List.takeWhile_append_of_pos fun c hc => ?_]
    · obtain rfl | hlast := hbefore
      · rw [List.reverse_nil, List.takeWhile_nil, List.append_nil]
      · obtain ⟨front, rfl⟩ := List.getLast?_eq_some_iff.mp hlast
        simp
    · have hne : c ≠ '\n' := fun he => hline (he ▸ List.mem_reverse.mp hc)
      simpa using hne
  rw [lineHead, h, List.reverse_append, hwhile, List.reverse_reverse]

theorem behind_line (s : List Char) :
    s.dropWhile (· != '\n') = [] ∨ (s.dropWhile (· != '\n')).head? = some '\n' := by
  have hhead := List.head?_dropWhile_not (· != '\n') s
  cases hrest : s.dropWhile (· != '\n') with
  | nil => exact .inl rfl
  | cons c rest =>
    rw [hrest] at hhead
    exact .inr (congrArg some (by simpa using hhead))

/-- The texts on both sides of an offset, up to the next line feeds, are the line of its number. -/
theorem getElem?_line (h : offset ≤ source.length) :
    (source.splitOn '\n')[(of source offset).line - 1]? =
      some (lineHead source offset ++ lineTail source offset) := by
  obtain ⟨before, head, hsplit, hbefore, hhead, hline, -⟩ := of_split h
  have htail : '\n' ∉ lineTail source offset := fun hmem => by
    simpa using List.mem_takeWhile_imp hmem
  have hsource : before ++ ((head ++ lineTail source offset) ++
      (source.drop offset).dropWhile (· != '\n')) = source := by
    rw [lineTail, List.append_assoc, List.takeWhile_append_dropWhile, ← List.append_assoc,
      ← hsplit, List.take_append_drop]
  have hfound := line_split hbefore (fun hmem => (List.mem_append.mp hmem).elim hhead htail)
    (behind_line (source.drop offset))
  rw [hsource] at hfound
  rw [hline, Nat.add_sub_cancel_left, hfound, lineHead_eq hsplit hbefore hhead]

/-- The line of an offset has as many characters before it as its column tells. -/
theorem length_lineHead (h : offset ≤ source.length) :
    (of source offset).column = 1 + (lineHead source offset).length ∧
      (lineHead source offset).length ≤ offset := by
  obtain ⟨before, head, hsplit, hbefore, hhead, -, hcolumn⟩ := of_split h
  have hlength := congrArg List.length hsplit
  rw [List.length_take_of_le h, List.length_append] at hlength
  rw [lineHead_eq hsplit hbefore hhead]
  exact ⟨hcolumn, by omega⟩

end Location

/-! ## Excerpts -/

/-- What an excerpt leaves out at the end of its line are carriage returns, and all of them. -/
theorem exists_returns (line : List Char) :
    ∃ returns, line = (line.reverse.dropWhile (· == '\r')).reverse ++ List.replicate returns '\r' ∧
      (line.reverse.dropWhile (· == '\r')).reverse.getLast? ≠ some '\r' := by
  refine ⟨(line.reverse.takeWhile (· == '\r')).length, ?_, fun hlast => ?_⟩
  · have hreturns : line.reverse.takeWhile (· == '\r') =
        List.replicate (line.reverse.takeWhile (· == '\r')).length '\r' :=
      List.eq_replicate_of_mem fun c hc => by simpa using List.mem_takeWhile_imp hc
    rw [← List.reverse_replicate, ← hreturns, ← List.reverse_append,
      List.takeWhile_append_dropWhile, List.reverse_reverse]
  · have hhead := List.head?_dropWhile_not (· == '\r') line.reverse
    rw [← List.getLast?_reverse, hlast] at hhead
    simp at hhead

/-- An excerpt shows the line of the place, with a caret under its column. -/
theorem excerpt_eq {source : List Char} {offset : Nat} (hne : source ≠ [])
    (h : offset ≤ source.length) :
    ∃ shown returns,
      (source.splitOn '\n')[(Location.of source offset).line - 1]? =
        some (shown ++ List.replicate returns '\r') ∧
      shown.getLast? ≠ some '\r' ∧
      excerpt source offset = String.ofList (shown ++ '\n' ::
        List.replicate ((Location.of source offset).column - 1) ' ' ++ ['^']) := by
  obtain ⟨returns, hreturns, hlast⟩ :=
    exists_returns (Location.lineHead source offset ++ Location.lineTail source offset)
  obtain ⟨hcolumn, hlength⟩ := Location.length_lineHead h
  have hcaret : offset - ((source.take offset).length - (Location.lineHead source offset).length) =
      (Location.of source offset).column - 1 := by
    rw [hcolumn, List.length_take_of_le h]
    omega
  refine ⟨_, returns, (Location.getElem?_line h).trans (congrArg some hreturns), hlast, ?_⟩
  rw [excerpt, if_neg (by simpa using hne)]
  simp only [hcaret]

/-- Places and excerpts agree. An offset in a source is on the line that the line feeds before it
count, as far behind the last of them as its column tells; places come in the order of their
offsets, and are different for different offsets; and an error at a place shows the line of that
number, without the carriage returns at its end, and a caret under that column. -/
theorem location_shown {source : List Char} (hne : source ≠ []) :
    (∀ offset ≤ source.length,
      (Location.of source offset).offset = offset ∧ (Location.of source offset).In source ∧
      ∀ e : SyntaxError, e.source = source → e.location = Location.of source offset →
        ∃ shown returns,
          (source.splitOn '\n')[e.location.line - 1]? =
            some (shown ++ List.replicate returns '\r') ∧
          shown.getLast? ≠ some '\r' ∧
          e.excerpt = String.ofList
            (shown ++ '\n' :: List.replicate (e.location.column - 1) ' ' ++ ['^'])) ∧
    ∀ a ≤ source.length, ∀ b ≤ source.length,
      (a < b ↔ (Location.of source a).Precedes (Location.of source b)) ∧
      (a ≠ b → ((Location.of source a).line, (Location.of source a).column) ≠
        ((Location.of source b).line, (Location.of source b).column)) := by
  refine ⟨fun offset h => ⟨rfl, Location.of_in h, fun e hsource he => ?_⟩,
    fun a _ b _ => ⟨⟨Location.of_precedes, fun hprecedes => ?_⟩, fun hab heq => ?_⟩⟩
  · rw [he, SyntaxError.excerpt, hsource, he]
    exact excerpt_eq hne h
  · obtain hlt | rfl | hlt := Nat.lt_trichotomy a b
    · exact hlt
    · exact absurd hprecedes hprecedes.not_symm
    · exact absurd (Location.of_precedes hlt) hprecedes.not_symm
  · obtain ⟨hline, hcolumn⟩ := Prod.mk.inj heq
    obtain hlt | hlt := Nat.lt_or_gt_of_ne hab
    all_goals
      have hprecedes : (Location.of source _).Precedes (Location.of source _) :=
        Location.of_precedes hlt
      simp only [Location.Precedes] at hprecedes
      omega

/-- At the line feed that ends the first line, behind its carriage return. -/
theorem location_shown_lineFeed :
    let source := ['a', '\r', '\n', '\n', 'b']
    let e : SyntaxError := ⟨.mismatch, "", Location.of source 2, [], [], source⟩
    source ≠ [] ∧ 2 ≤ source.length ∧ 3 ≤ source.length ∧ e.location = ⟨2, 1, 3⟩ ∧
      (∃ shown returns,
        (source.splitOn '\n')[0]? = some (shown ++ List.replicate returns '\r') ∧
        shown.getLast? ≠ some '\r' ∧
        e.excerpt = String.ofList (shown ++ '\n' :: List.replicate 2 ' ' ++ ['^'])) ∧
      e.location.Precedes (Location.of source 3) := by
  intro source e
  have hne : source ≠ [] := List.cons_ne_nil _ _
  have htwo : 2 ≤ source.length := by decide
  have hthree : 3 ≤ source.length := by decide
  have hlocation : e.location = ⟨2, 1, 3⟩ := by decide +kernel
  obtain ⟨hplaces, horder⟩ := location_shown hne
  refine ⟨hne, htwo, hthree, hlocation, ?_, (horder 2 htwo 3 hthree).1.mp (by decide)⟩
  have hshown := (hplaces 2 htwo).2.2 e rfl rfl
  rwa [hlocation] at hshown

end DhallSyntax
