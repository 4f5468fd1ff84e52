import DhallSyntax.Proofs.Json.Scalars

/-!
JSON texts read back. Main statement: `read_render`, a document without fractions, times and knots
comes back from its text in any layout of blanks, whenever no integer in it is too long and the
bound on nesting is no less than its own.
-/

namespace DhallSyntax.Json

/-! ## Blanks -/

variable {blanks s : List Char}

theorem skipBlanks_append (h : ∀ c ∈ blanks, isBlank c = true) :
    skipBlanks (blanks ++ s) = skipBlanks s :=
  List.dropWhile_append_of_pos h

theorem skipBlanks_cons {c : Char} (h : isBlank c = false) : skipBlanks (c :: s) = c :: s := by
  rw [skipBlanks, List.dropWhile_cons, h, if_neg Bool.false_ne_true]

theorem ends_cons {c : Char} (h : isBlank c = true ∨ c ∈ [',', ']', '}']) : Ends (c :: s) := by
  rintro _ ⟨⟩
  simp only [isBlank, Bool.or_eq_true, beq_iff_eq, List.mem_cons, List.not_mem_nil] at h
  obtain (((rfl | rfl) | rfl) | rfl) | rfl | rfl | rfl | h := h <;> first | decide | nomatch h

theorem ends_append (h : ∀ c ∈ blanks, isBlank c = true) (hs : Ends s) : Ends (blanks ++ s) := by
  cases blanks with
  | nil => exact hs
  | cons c blanks => exact ends_cons (.inl (h c List.mem_cons_self))

/-- A layout that separates the parts by blanks only, apart from the commas and colons. -/
structure Layout.Readable (layout : Layout) where
  lineBreak_blank : ∀ depth, ∀ c ∈ (layout.lineBreak depth).toList, isBlank c = true
  behindComma : List Char
  comma_eq : layout.comma.toList = ',' :: behindComma
  behindComma_blank : ∀ c ∈ behindComma, isBlank c = true
  behindColon : List Char
  colon_eq : layout.colon.toList = ':' :: behindColon
  behindColon_blank : ∀ c ∈ behindColon, isBlank c = true

def Layout.Readable.indented (width : Nat) : (Layout.indented width).Readable where
  lineBreak_blank depth c hc := by
    simp only [Layout.indented, String.toList_append, String.toList_ofList] at hc
    obtain hc | hc := List.mem_append.mp hc
    · obtain rfl := List.mem_singleton.mp hc
      rfl
    · rw [List.eq_of_mem_replicate hc]
      rfl
  behindComma := []
  comma_eq := by simp [Layout.indented]
  behindComma_blank _ h := nomatch h
  behindColon := [' ']
  colon_eq := by simp [Layout.indented]
  behindColon_blank c hc := List.mem_singleton.mp hc ▸ rfl

/-- What stands between a comma and the part behind it. -/
def Layout.Readable.gap {layout : Layout} (hl : layout.Readable) (depth : Nat) : List Char :=
  hl.behindComma ++ (layout.lineBreak depth).toList

theorem Layout.Readable.gap_blank {layout : Layout} (hl : layout.Readable) (depth : Nat) :
    ∀ c ∈ hl.gap depth, isBlank c = true := by
  intro c hc
  obtain hc | hc := List.mem_append.mp hc
  · exact hl.behindComma_blank c hc
  · exact hl.lineBreak_blank depth c hc

/-! ## Steps -/

section

variable {value : List Char → Except Error (Document × List Char)} {rest t : List Char}

theorem itemsWithin_last {item : Document} {read : List Document} (bound : List Char)
    (h : value (skipBlanks s) = .ok (item, t)) (ht : skipBlanks t = ']' :: rest) :
    itemsWithin value bound read s = .ok (.list (item :: read).reverse, rest) := by
  unfold itemsWithin
  rw [h]
  dsimp only [bind, Except.bind]
  rw [ht]
  rfl

theorem itemsWithin_comma {item : Document} {read : List Document} {b : Char} {bound : List Char}
    (h : value (skipBlanks s) = .ok (item, t)) (ht : skipBlanks t = ',' :: rest) :
    itemsWithin value (b :: bound) read s = itemsWithin value bound (item :: read) rest := by
  rw [itemsWithin.eq_def]
  dsimp only
  rw [h]
  dsimp only [bind, Except.bind]
  rw [ht]
  rfl

theorem entriesWithin_last {e : Scalar × Document} {read : List (Scalar × Document)}
    (bound : List Char) (h : entry value s = .ok (e, t)) (ht : skipBlanks t = '}' :: rest) :
    entriesWithin value bound read s =
      .ok (.object (Scalar.distinct (e :: read).reverse), rest) := by
  unfold entriesWithin
  rw [h]
  dsimp only [bind, Except.bind]
  rw [ht]
  rfl

theorem entriesWithin_comma {e : Scalar × Document} {read : List (Scalar × Document)} {b : Char}
    {bound : List Char} (h : entry value s = .ok (e, t)) (ht : skipBlanks t = ',' :: rest) :
    entriesWithin value (b :: bound) read s = entriesWithin value bound (e :: read) rest := by
  rw [entriesWithin.eq_def]
  dsimp only
  rw [h]
  dsimp only [bind, Except.bind]
  rw [ht]
  rfl

end

/-! ## Lists -/

/-- A function gives a document back from its text, whatever follows. -/
def Reads (value : List Char → Except Error (Document × List Char)) (text : List Char)
    (d : Document) : Prop :=
  ∀ rest, Ends rest → value (text ++ rest) = .ok (d, rest)

/-- A text that is no blank and closes no list at its beginning. -/
def Begins (s : List Char) : Prop :=
  ∃ c, s.head? = some c ∧ isBlank c = false ∧ c ≠ ']'

theorem Reads.behindBlanks {value : List Char → Except Error (Document × List Char)}
    {text rest : List Char} {d : Document} (h : Reads value text d) (htext : Begins text)
    (hblanks : ∀ c ∈ blanks, isBlank c = true) (hrest : Ends rest) :
    value (skipBlanks (blanks ++ (text ++ rest))) = .ok (d, rest) := by
  obtain ⟨c, hhead, hc, -⟩ := htext
  obtain ⟨t, rfl⟩ := List.head?_eq_some_iff.mp hhead
  have hskip := skipBlanks_cons (s := t ++ rest) hc
  rw [skipBlanks_append hblanks, List.cons_append, hskip]
  exact h rest hrest

section

variable {value : List Char → Except Error (Document × List Char)} {layout : Layout}
  (hl : layout.Readable) {closing : List Char}

include hl

theorem toList_renderItems_cons (depth : Nat) (item : Document) (items : List Document) :
    (renderItems layout depth (item :: items)).toList = ',' :: (hl.gap depth ++
      ((render layout depth item).toList ++ (renderItems layout depth items).toList)) := by
  simp [renderItems, hl.comma_eq, Layout.Readable.gap]

theorem ends_renderItems (depth : Nat) (items : List Document) (hs : Ends s) :
    Ends ((renderItems layout depth items).toList ++ s) := by
  cases items with
  | nil => exact hs
  | cons item items =>
    rw [toList_renderItems_cons hl]
    exact ends_cons (.inr (by decide))

theorem length_le_renderItems (depth : Nat) (items : List Document) :
    items.length ≤ (renderItems layout depth items).toList.length := by
  induction items with
  | nil => exact Nat.le_refl 0
  | cons item items ih =>
    simp only [toList_renderItems_cons hl, List.length_append, List.length_cons]
    omega

/-- The items from one item on, behind blanks. -/
theorem itemsWithin_render {depth : Nat} {item : Document} {items : List Document}
    (hreads : ∀ d ∈ item :: items, Reads value (render layout depth d).toList d)
    (hbegins : ∀ d ∈ item :: items, Begins (render layout depth d).toList)
    (hclosing : ∀ c ∈ closing, isBlank c = true) {bound : List Char}
    (hbound : items.length ≤ bound.length) (hblanks : ∀ c ∈ blanks, isBlank c = true)
    (read : List Document) (rest : List Char) :
    itemsWithin value bound read (blanks ++ ((render layout depth item).toList ++
        ((renderItems layout depth items).toList ++ (closing ++ ']' :: rest)))) =
      .ok (.list (read.reverse ++ item :: items), rest) := by
  have hends : Ends (closing ++ ']' :: rest) := ends_append hclosing (ends_cons (.inr (by decide)))
  have hvalue := (hreads item List.mem_cons_self).behindBlanks (hbegins item List.mem_cons_self)
    hblanks (ends_renderItems hl depth items hends)
  induction items generalizing item bound blanks read with
  | nil =>
    have hlast : skipBlanks (closing ++ ']' :: rest) = ']' :: rest :=
      (skipBlanks_append hclosing).trans (skipBlanks_cons rfl)
    rw [← List.reverse_cons]
    exact itemsWithin_last bound hvalue hlast
  | cons next items ih =>
    cases bound with
    | nil => exact absurd hbound (Nat.not_succ_le_zero _)
    | cons b bound =>
      have hreads' : ∀ d ∈ next :: items, Reads value (render layout depth d).toList d :=
        fun d hd => hreads d (List.mem_cons_of_mem _ hd)
      have hbegins' : ∀ d ∈ next :: items, Begins (render layout depth d).toList :=
        fun d hd => hbegins d (List.mem_cons_of_mem _ hd)
      have hnext := (hreads' next List.mem_cons_self).behindBlanks
        (hbegins' next List.mem_cons_self) (hl.gap_blank depth)
        (ends_renderItems hl depth items hends)
      have hrest := ih hreads' hbegins' (Nat.le_of_succ_le_succ hbound) (hl.gap_blank depth)
        (item :: read) hnext
      rw [List.reverse_cons, List.append_assoc] at hrest
      simp only [toList_renderItems_cons hl, List.append_assoc, List.cons_append] at hvalue ⊢
      exact (itemsWithin_comma hvalue (skipBlanks_cons rfl)).trans hrest

/-- A list from behind its opening bracket. -/
theorem items_render {depth : Nat} {item : Document} {items : List Document}
    (hreads : ∀ d ∈ item :: items, Reads value (render layout depth d).toList d)
    (hbegins : ∀ d ∈ item :: items, Begins (render layout depth d).toList)
    (hclosing : ∀ c ∈ closing, isBlank c = true) (hblanks : ∀ c ∈ blanks, isBlank c = true)
    (rest : List Char) :
    Json.items value (blanks ++ ((render layout depth item).toList ++
        ((renderItems layout depth items).toList ++ (closing ++ ']' :: rest)))) =
      .ok (.list (item :: items), rest) := by
  have hlength := length_le_renderItems hl depth items
  have hnone : ∀ c ∈ ([] : List Char), isBlank c = true := fun _ h => nomatch h
  have hitems := fun (bound : List Char) (hbound : items.length ≤ bound.length) =>
    itemsWithin_render hl hreads hbegins hclosing hbound hnone [] rest
  obtain ⟨c, hhead, hc, hclose⟩ := hbegins item List.mem_cons_self
  obtain ⟨text, htext⟩ := List.head?_eq_some_iff.mp hhead
  rw [htext, List.nil_append, List.cons_append] at hitems
  rw [Json.items, skipBlanks_append hblanks, htext, List.cons_append, skipBlanks_cons hc]
  split
  · exact absurd (List.cons.inj ‹_›).1 hclose
  · refine hitems _ ?_
    simp only [List.length_cons, List.length_append]
    omega

/-! ## Objects -/

/-- An entry with a text for its key, as it stands in an object. -/
def entryChars (layout : Layout) (depth : Nat) (e : Scalar × Document) : List Char :=
  (keyText e.1).toList ++ (layout.colon.toList ++ (render layout depth e.2).toList)

theorem toList_renderEntries_cons (depth : Nat) (e : Scalar × Document)
    (entries : List (Scalar × Document)) :
    (renderEntries layout depth (e :: entries)).toList = ',' :: (hl.gap depth ++
      (entryChars layout depth e ++ (renderEntries layout depth entries).toList)) := by
  simp [renderEntries, hl.comma_eq, Layout.Readable.gap, entryChars]

theorem ends_renderEntries (depth : Nat) (entries : List (Scalar × Document)) (hs : Ends s) :
    Ends ((renderEntries layout depth entries).toList ++ s) := by
  cases entries with
  | nil => exact hs
  | cons e entries =>
    rw [toList_renderEntries_cons hl]
    exact ends_cons (.inr (by decide))

theorem length_le_renderEntries (depth : Nat) (entries : List (Scalar × Document)) :
    entries.length ≤ (renderEntries layout depth entries).toList.length := by
  induction entries with
  | nil => exact Nat.le_refl 0
  | cons e entries ih =>
    simp only [toList_renderEntries_cons hl, List.length_append, List.length_cons]
    omega

theorem entry_entryChars {depth : Nat} {key : String} {d : Document} {rest : List Char}
    (hreads : Reads value (render layout depth d).toList d)
    (hbegins : Begins (render layout depth d).toList) (hblanks : ∀ c ∈ blanks, isBlank c = true)
    (hrest : Ends rest) :
    entry value (blanks ++ (entryChars layout depth (.text key, d) ++ rest)) =
      .ok ((.text key, d), rest) := by
  have hvalue := hreads.behindBlanks hbegins hl.behindColon_blank hrest
  rw [entry, skipBlanks_append hblanks, entryChars, keyText, toList_stringText, hl.colon_eq]
  simp only [List.append_assoc, List.cons_append, List.nil_append]
  have hquote : ∀ s, skipBlanks ('"' :: s) = '"' :: s := fun s => skipBlanks_cons rfl
  have hcolon : ∀ s, skipBlanks (':' :: s) = ':' :: s := fun s => skipBlanks_cons rfl
  simp only [hquote, string_escaped, bind, Except.bind, hcolon, hvalue]
  rfl

/-- The entries from one entry on, behind blanks. -/
theorem entriesWithin_render {depth : Nat} {e : Scalar × Document}
    {entries : List (Scalar × Document)} (hkey : ∀ e' ∈ e :: entries, ∃ key, e'.1 = .text key)
    (hreads : ∀ e' ∈ e :: entries, Reads value (render layout depth e'.2).toList e'.2)
    (hbegins : ∀ e' ∈ e :: entries, Begins (render layout depth e'.2).toList)
    (hclosing : ∀ c ∈ closing, isBlank c = true) {bound : List Char}
    (hbound : entries.length ≤ bound.length) (hblanks : ∀ c ∈ blanks, isBlank c = true)
    (read : List (Scalar × Document)) (rest : List Char) :
    entriesWithin value bound read (blanks ++ (entryChars layout depth e ++
        ((renderEntries layout depth entries).toList ++ (closing ++ '}' :: rest)))) =
      .ok (.object (Scalar.distinct (read.reverse ++ e :: entries)), rest) := by
  have hends : Ends (closing ++ '}' :: rest) := ends_append hclosing (ends_cons (.inr (by decide)))
  have hentry : ∀ (e' : Scalar × Document) (blanks t : List Char), e' ∈ e :: entries →
      (∀ c ∈ blanks, isBlank c = true) → Ends t →
      entry value (blanks ++ (entryChars layout depth e' ++ t)) = .ok (e', t) := by
    rintro ⟨k, d⟩ blanks t he hblanks ht
    obtain ⟨key, rfl⟩ := hkey _ he
    exact entry_entryChars hl (hreads _ he) (hbegins _ he) hblanks ht
  clear hkey hreads hbegins
  induction entries generalizing e bound blanks read with
  | nil =>
    have hvalue := hentry e blanks _ List.mem_cons_self hblanks hends
    have hlast : skipBlanks (closing ++ '}' :: rest) = '}' :: rest :=
      (skipBlanks_append hclosing).trans (skipBlanks_cons rfl)
    rw [← List.reverse_cons]
    exact entriesWithin_last bound hvalue hlast
  | cons next entries ih =>
    cases bound with
    | nil => exact absurd hbound (Nat.not_succ_le_zero _)
    | cons b bound =>
      have hvalue := hentry e blanks _ List.mem_cons_self hblanks
        (ends_renderEntries hl depth (next :: entries) hends)
      have hrest := ih (Nat.le_of_succ_le_succ hbound) (hl.gap_blank depth) (e :: read)
        fun e' blanks t he => hentry e' blanks t (List.mem_cons_of_mem _ he)
      rw [List.reverse_cons, List.append_assoc] at hrest
      simp only [toList_renderEntries_cons hl, List.append_assoc, List.cons_append] at hvalue ⊢
      exact (entriesWithin_comma hvalue (skipBlanks_cons rfl)).trans hrest

/-- An object from behind its opening brace. -/
theorem entries_render {depth : Nat} {e : Scalar × Document} {entries : List (Scalar × Document)}
    (hkey : ∀ e' ∈ e :: entries, ∃ key, e'.1 = .text key)
    (hreads : ∀ e' ∈ e :: entries, Reads value (render layout depth e'.2).toList e'.2)
    (hbegins : ∀ e' ∈ e :: entries, Begins (render layout depth e'.2).toList)
    (hclosing : ∀ c ∈ closing, isBlank c = true) (hblanks : ∀ c ∈ blanks, isBlank c = true)
    (rest : List Char) :
    Json.entries value (blanks ++ (entryChars layout depth e ++
        ((renderEntries layout depth entries).toList ++ (closing ++ '}' :: rest)))) =
      .ok (.object (Scalar.distinct (e :: entries)), rest) := by
  have hlength := length_le_renderEntries hl depth entries
  have hnone : ∀ c ∈ ([] : List Char), isBlank c = true := fun _ h => nomatch h
  have hentries := fun (bound : List Char) (hbound : entries.length ≤ bound.length) =>
    entriesWithin_render hl hkey hreads hbegins hclosing hbound hnone [] rest
  obtain ⟨key, hk⟩ := hkey e List.mem_cons_self
  rw [entryChars, hk, keyText, toList_stringText, List.nil_append] at hentries
  rw [Json.entries, skipBlanks_append hblanks, entryChars, hk, keyText, toList_stringText]
  simp only [List.cons_append] at hentries ⊢
  rw [skipBlanks_cons rfl]
  refine hentries _ ?_
  simp only [List.length_cons, List.length_append]
  omega

end

/-! ## Keys -/

theorem distinct_eq_self {κ α : Type} {same : κ → κ → Bool} {entries : List (κ × α)}
    (h : entries.Pairwise fun a b => same a.1 b.1 = false) :
    Entries.distinct same entries = entries := by
  have hfold : ∀ (rest kept : List (κ × α)),
      (kept ++ rest).Pairwise (fun a b => same a.1 b.1 = false) →
      rest.foldl (fun kept e => Entries.insert same kept e.1 e.2) kept = kept ++ rest := by
    intro rest
    induction rest with
    | nil => simp
    | cons e rest ih =>
      intro kept hk
      have hnew : (kept.any fun old => same old.1 e.1) = false := by
        rw [List.any_eq_false]
        intro old hold
        have := (List.pairwise_append.mp hk).2.2 old hold e List.mem_cons_self
        simp [this]
      rw [List.foldl_cons, Entries.insert, hnew, if_neg Bool.false_ne_true,
        ih _ (by simpa using hk)]
      simp
  exact hfold entries [] h

theorem scalar_distinct_eq_self {α : Type} {entries : List (Scalar × α)}
    (hkey : ∀ e ∈ entries, ∃ key, e.1 = .text key) (h : (entries.map Prod.fst).Nodup) :
    Scalar.distinct entries = entries := by
  refine distinct_eq_self ((List.pairwise_map.mp h).imp_of_mem fun {a b} ha hb hne => ?_)
  obtain ⟨s, hs⟩ := hkey a ha
  obtain ⟨t, ht⟩ := hkey b hb
  rw [hs, ht] at hne ⊢
  exact beq_eq_false_iff_ne.mpr hne

/-! ## Values -/

/-- Documents with plain scalars, whose objects have different texts for keys, and with at most
`n` lists and objects inside each other. -/
inductive PlainWithin : (n : Nat) → Document → Prop
  | scalar {n : Nat} {s : Scalar} : IsPlain s → PlainWithin n (.scalar s)
  | list {n : Nat} {items : List Document} :
      (∀ item ∈ items, PlainWithin n item) → PlainWithin (n + 1) (.list items)
  | object {n : Nat} {entries : List (Scalar × Document)} :
      (∀ e ∈ entries, ∃ key, e.1 = .text key) → (entries.map Prod.fst).Nodup →
      (∀ e ∈ entries, PlainWithin n e.2) → PlainWithin (n + 1) (.object entries)

theorem scalarText_head {s : Scalar} (hs : IsPlain s) : ∃ c, (scalarText s).toList.head? = some c ∧
    isBlank c = false ∧ c ∉ [']', '[', '\x7b'] := by
  cases s with
  | null => exact ⟨'n', by simp [scalarText], by decide⟩
  | bool b =>
    cases b
    · exact ⟨'f', by simp [scalarText], by decide⟩
    · exact ⟨'t', by simp [scalarText], by decide⟩
  | int n =>
    obtain ⟨c, digits, hd⟩ := List.exists_cons_of_ne_nil (Numeral.digitsOf_ne_nil n.natAbs)
    have hc : c.isDigit = true := Numeral.digitsOf_isDigit n.natAbs c (by simp [hd])
    rw [scalarText, Numeral.write, String.toList_ofList]
    split
    · exact ⟨'-', rfl, by decide⟩
    · exact ⟨c, by rw [hd]; rfl, Numeral.forall_digit
        (P := fun c => isBlank c = false ∧ c ∉ [']', '[', '\x7b']) (by decide) hc⟩
  | text t => exact ⟨'"', by rw [scalarText, toList_stringText]; rfl, by decide⟩
  | float f | time t => exact hs.elim

theorem begins_render {layout : Layout} {n : Nat} {d : Document} (h : PlainWithin n d)
    (depth : Nat) : Begins (render layout depth d).toList := by
  cases h with
  | @scalar _ s hs =>
    obtain ⟨c, hhead, hc, hbrackets⟩ := scalarText_head hs
    exact ⟨c, by rw [render]; exact hhead, hc, by simp_all⟩
  | @list _ items _ => cases items <;> exact ⟨'[', by simp [render], by decide⟩
  | @object _ entries _ _ _ => cases entries <;> exact ⟨'\x7b', by simp [render], by decide⟩

theorem valueWithin_scalarText {s : Scalar} (hs : IsPlain s) (n : Nat) (rest : List Char) :
    valueWithin n ((scalarText s).toList ++ rest) = scalar ((scalarText s).toList ++ rest) := by
  obtain ⟨c, hhead, -, hbrackets⟩ := scalarText_head hs
  obtain ⟨t, ht⟩ := List.head?_eq_some_iff.mp hhead
  rw [ht, List.cons_append]
  unfold valueWithin
  split <;> simp_all

theorem valueWithin_bracket (n : Nat) (s : List Char) :
    valueWithin (n + 1) ('[' :: s) = items (valueWithin n) s := by
  simp [valueWithin]

theorem valueWithin_brace (n : Nat) (s : List Char) :
    valueWithin (n + 1) ('\x7b' :: s) = entries (valueWithin n) s := by
  simp [valueWithin]

theorem hasLongInteger_of_mem {items : List Document} (h : Document.anyLongInteger items = false)
    {d : Document} (hd : d ∈ items) : d.hasLongInteger = false := by
  induction items with
  | nil => nomatch hd
  | cons item items ih => grind [Document.anyLongInteger]

theorem hasLongInteger_of_mem_entries {entries : List (Scalar × Document)}
    (h : Document.anyLongEntry entries = false) {e : Scalar × Document} (he : e ∈ entries) :
    e.2.hasLongInteger = false := by
  induction entries with
  | nil => nomatch he
  | cons item items ih => grind [Document.anyLongEntry]

/-- A plain document is read back from its text, whatever follows. -/
theorem valueWithin_render {layout : Layout} (hl : layout.Readable) {n : Nat} {d : Document}
    (h : PlainWithin n d) (hlong : d.hasLongInteger = false) (depth : Nat) :
    Reads (valueWithin n) (render layout depth d).toList d := by
  induction h generalizing depth with
  | @scalar n s hs =>
    intro rest hrest
    rw [render, valueWithin_scalarText hs, scalar_scalarText hs hrest hlong]
  | @list n items hitems ih =>
    intro rest hrest
    cases items with
    | nil => simp [render, valueWithin_bracket, items, skipBlanks, isBlank]
    | cons item items =>
      rw [Document.hasLongInteger] at hlong
      have hreads : ∀ d ∈ item :: items,
          Reads (valueWithin n) (render layout (depth + 1) d).toList d :=
        fun d hd => ih d hd (hasLongInteger_of_mem hlong hd) (depth + 1)
      have hbegins : ∀ d ∈ item :: items, Begins (render layout (depth + 1) d).toList :=
        fun d hd => begins_render (hitems d hd) (depth + 1)
      have hread := items_render hl hreads hbegins (hl.lineBreak_blank depth)
        (hl.lineBreak_blank (depth + 1)) rest
      rw [← valueWithin_bracket] at hread
      simpa [render] using hread
  | @object n entries hkey hnodup hentries ih =>
    intro rest hrest
    cases entries with
    | nil => simp [render, valueWithin_brace, entries, skipBlanks, isBlank]
    | cons e entries =>
      rw [Document.hasLongInteger] at hlong
      have hreads : ∀ e' ∈ e :: entries,
          Reads (valueWithin n) (render layout (depth + 1) e'.2).toList e'.2 :=
        fun e' he => ih e' he (hasLongInteger_of_mem_entries hlong he) (depth + 1)
      have hbegins : ∀ e' ∈ e :: entries, Begins (render layout (depth + 1) e'.2).toList :=
        fun e' he => begins_render (hentries e' he) (depth + 1)
      have hread := entries_render hl hkey hreads hbegins (hl.lineBreak_blank depth)
        (hl.lineBreak_blank (depth + 1)) rest
      rw [← valueWithin_brace, scalar_distinct_eq_self hkey hnodup] at hread
      simpa [render, entryChars] using hread

/-- A plain document is read back from its text. -/
theorem read_render {layout : Layout} (hl : layout.Readable) {n : Nat} {d : Document}
    (h : PlainWithin n d) (hlong : d.hasLongInteger = false) (depth : Nat) :
    read n (render layout depth d) = .ok d := by
  have hvalue := valueWithin_render hl h hlong depth [] fun _ hc => by cases hc
  obtain ⟨c, hhead, hc, -⟩ := (begins_render h depth : Begins (render layout depth d).toList)
  obtain ⟨t, ht⟩ := List.head?_eq_some_iff.mp hhead
  rw [List.append_nil] at hvalue
  have hskip : skipBlanks (render layout depth d).toList = (render layout depth d).toList := by
    rw [ht, skipBlanks_cons hc]
  rw [read, hskip, hvalue]
  rfl


end DhallSyntax.Json
