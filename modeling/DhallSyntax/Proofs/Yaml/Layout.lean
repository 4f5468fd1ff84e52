import DhallSyntax.Proofs.Yaml.Allowed

/-!
The tokens of rendered documents. Main statements: `reads_of_shaped`, behind a key or a dash the
lexer reads the text of a document as its tokens; `ofText_render`, so it does with a whole text.
-/

namespace DhallSyntax.Yaml

open Document (Shaped IsFieldKey fieldNames)

/-! ## Tokens of documents -/

mutual

/-- The tokens of a document whose entries stand at an indentation. The texts in it are indented as
far. -/
def valueTokens (indent : Nat) : Document → List Token
  | .scalar s => [Lexer.scalarToken indent s]
  | .list [] => [.flowStart .list, .flowEnd .list]
  | .list (item :: rest) => itemsTokens indent (item :: rest)
  | .object entries => .blockStart .mapping :: entriesTokens indent entries ++ [.blockEnd]
  | _ => []

def itemsTokens (indent : Nat) : List Document → List Token
  | [] => []
  | item :: rest => .item :: valueTokens indent item ++ itemsTokens indent rest

def entriesTokens (indent : Nat) : List (Scalar × Document) → List Token
  | [] => []
  | (key, value) :: rest =>
    .key :: .scalar true (String.ofList (keyText key)) :: .value ::
      valueTokens (indent + step) value ++ entriesTokens indent rest

end

namespace Lexer

open Scan

variable {place : Cursor} {rest s : List Char} {tokens opened : List Token}
  {indents outer : List Nat} {allows : Bool} {c : Char} {k n m indent column : Nat}
  {d : Document}

/-- A document behind a key is read, with the line break behind it. -/
def ReadsValue (k : Nat) (d : Document) : Prop :=
  ∀ ⦃place : Cursor⦄ ⦃column n : Nat⦄ ⦃rest : List Char⦄ ⦃tokens : List Token⦄ ⦃indents : List Nat⦄
    ⦃allows : Bool⦄,
    n ≤ k → BeginsTokenLine rest → k ≤ place.column → k ≤ column →
    place.rest = valueText k column d ++ (newLine n ++ rest) →
    Runs (between place tokens (k :: indents) allows)
      (between (place.forward ((valueText k column d).length + (n + 1)))
        ((valueTokens (k + Yaml.step) d).reverse ++ tokens) (k :: indents) true)

/-- A document behind a dash is read, with the line break behind it. -/
def ReadsItem (k : Nat) (d : Document) : Prop :=
  ∀ ⦃place : Cursor⦄ ⦃n : Nat⦄ ⦃rest : List Char⦄ ⦃tokens : List Token⦄ ⦃indents : List Nat⦄,
    n ≤ k → BeginsTokenLine rest → place.column = k + 1 →
    place.rest = itemText k d ++ (newLine n ++ rest) →
    Runs (between place tokens (k :: indents) true)
      (between (place.forward ((itemText k d).length + (n + 1)))
        ((valueTokens (k + Yaml.step) d).reverse ++ tokens) (k :: indents) true)

theorem readsValue_scalar {s : Scalar} (h : Document.IsLeaf s) (k : Nat) :
    ReadsValue k (.scalar s) := by
  intro place column n rest tokens indents allows hn hrest hcolumn hfold hplace
  exact .scalar h (Nat.lt_add_of_pos_right (by decide)) (Nat.add_le_add_right hfold 2) hn hrest
    hcolumn hplace

theorem readsItem_scalar {s : Scalar} (h : Document.IsLeaf s) (k : Nat) :
    ReadsItem k (.scalar s) := by
  intro place n rest tokens indents hn hrest hcolumn hplace
  exact .scalar h (Nat.lt_add_of_pos_right (by decide)) (by simp [Yaml.step]) hn hrest (by omega)
    hplace

theorem beginsLine_of_solid (hsolid : BeginsSolid rest)
    (hmark : ∀ place : Cursor, place.rest = rest → place.isAtAnyMark = false) :
    BeginsLine rest := by
  refine ⟨hsolid, fun k place h => ?_⟩
  cases k with
  | zero => exact hmark place h
  | succ k => exact isAtAnyMark_replicate (Nat.succ_pos k) h

theorem beginsTokenLine_word (hc : isWordChar c = true) : BeginsTokenLine (c :: rest) := by
  have hbegins : BeginsToken (c :: rest) := beginsToken_word hc
  have hmarks : c ≠ '-' ∧ c ≠ '.' := ⟨ne_of_word hc _ (by decide), ne_of_word hc _ (by decide)⟩
  exact ⟨beginsLine_of_solid hbegins.1 fun place h => isAtAnyMark_cons h hmarks, hbegins⟩

theorem beginsTokenLine_dash : BeginsTokenLine ('-' :: ' ' :: rest) := by
  refine ⟨beginsLine_of_solid rfl fun place h => ?_, rfl, nofun, nofun⟩
  rw [Cursor.isAtAnyMark, Cursor.isAtMark, Cursor.isAtMark, h]
  rfl

theorem beginsTokenLine_nil : BeginsTokenLine [] := by
  refine ⟨beginsLine_of_solid rfl fun place h => ?_, rfl, nofun, nofun⟩
  rw [Cursor.isAtAnyMark, Cursor.isAtMark, Cursor.isAtMark, h]
  rfl

theorem head?_scalarText {s : Scalar} : (scalarText indent column s).head? = some ' ' := by
  cases s with
  | bool b => cases b <;> rfl
  | text t =>
    change (textScalar indent column t).head? = _
    delta textScalar
    cases h : styleOf t.toList <;> simp only [h] <;> rfl
  | _ => rfl

theorem head?_valueText {n : Nat} (h : Shaped n d) (t : List Char) :
    (valueText k column d ++ t).head?.all isBlankOrBreak = true := by
  cases h with
  | @scalar _ s _ =>
    have hhead : (valueText k column (.scalar s)).head? = some ' ' := head?_scalarText
    rw [List.head?_append, hhead]
    rfl
  | @list _ items => cases items <;> rfl
  | @object _ entries => cases entries <;> rfl

theorem entriesText_single (key : Scalar) (value : Document) :
    entriesText column [(key, value)] =
      keyText key ++ ':' :: valueText column (column + (keyText key).length + 1) value := by
  simp [entriesText]

theorem entriesText_cons {entries : List (Scalar × Document)} (hne : entries ≠ []) (key : Scalar)
    (value : Document) : entriesText column ((key, value) :: entries) =
      keyText key ++ ':' :: (valueText column (column + (keyText key).length + 1) value ++
        (newLine column ++ entriesText column entries)) := by
  simp [entriesText, hne]

theorem beginsTokenLine_entries {entries : List (Scalar × Document)} (hne : entries ≠ [])
    (hkeys : ∀ e ∈ entries, IsFieldKey e.1) (t : List Char) :
    BeginsTokenLine (entriesText column entries ++ t) := by
  obtain ⟨⟨key, value⟩, entries, rfl⟩ := List.exists_cons_of_ne_nil hne
  have hkey := keyWord_of_fieldKey (hkeys _ List.mem_cons_self)
  obtain ⟨c, word, hword⟩ := List.exists_cons_of_ne_nil hkey.ne_nil
  have hc : isWordChar c = true := hkey.word c (by simp [hword])
  rw [entriesText, hword]
  exact beginsTokenLine_word hc

/-- An entry of an object, if it is known how its value is read. -/
theorem Runs.entry {key : Scalar} {value : Document} (hkey : IsFieldKey key)
    (hvalue : Shaped m value) (hread : ReadsValue column value) (hcolumn : place.column = column)
    (hopens : Opens column indents opened outer) (hn : n ≤ column) (hrest : BeginsTokenLine rest)
    (h : place.rest = entriesText column [(key, value)] ++ (newLine n ++ rest)) :
    Runs (between place tokens indents true)
      (between (place.forward ((entriesText column [(key, value)]).length + (n + 1)))
        ((entriesTokens column [(key, value)]).reverse ++ (opened ++ tokens)) (column :: outer)
        true) := by
  subst hcolumn
  have hword := keyWord_of_fieldKey hkey
  rw [entriesText_single, List.append_assoc, List.cons_append] at h
  have hwide : ∀ c ∈ keyText key ++ [':'], Cursor.IsWide c := by
    intro c hc
    obtain hc | hc := List.mem_append.mp hc
    · exact isWide_of_word (hword.word c hc)
    · obtain rfl := List.mem_singleton.mp hc
      decide
  have hbehind :=
    @Cursor.forward_run place (keyText key ++ [':']) _ (by rw [h, List.append_cons]) hwide
  rw [List.length_append, List.length_singleton] at hbehind
  have hrun := @hread (place.forward ((keyText key).length + 1))
    (place.column + (keyText key).length + 1) n rest
    (.value :: .scalar true (String.ofList (keyText key)) :: .key :: (opened ++ tokens)) outer false
    hn hrest (by rw [hbehind]; exact Nat.le_add_right _ _) (by omega) (by rw [hbehind])
  have hlength : (entriesText place.column [(key, value)]).length + (n + 1) =
      (keyText key).length + 1 +
        ((valueText place.column (place.column + (keyText key).length + 1) value).length +
          (n + 1)) := by
    rw [entriesText_single, List.length_append, List.length_cons]
    omega
  rw [Cursor.forward_add, ← hlength] at hrun
  have htokens : (entriesTokens place.column [(key, value)]).reverse =
      (valueTokens (place.column + Yaml.step) value).reverse ++
        [.value, .scalar true (String.ofList (keyText key)), .key] := by
    simp [entriesTokens]
  rw [htokens, List.append_assoc]
  exact .trans (.key hopens hword (head?_valueText hvalue _) h) hrun

/-- A further line behind the line break of what was read. -/
theorem Runs.line {first more text : List Char} {read last : List Token} {l : Lexer}
    (h : place.rest = first ++ (newLine column ++ (more ++ text)))
    (hfirst : Runs l
      (between (place.forward (first.length + (column + 1))) read (column :: outer) true))
    (hmore : ∀ next : Cursor, next.column = column → next.rest = more ++ text →
      Runs (between next read (column :: outer) true)
        (between (next.forward (more.length + m)) last (column :: outer) true)) :
    Runs l (between (place.forward ((first ++ (newLine column ++ more)).length + m)) last
      (column :: outer) true) := by
  have hplace := Cursor.forward_newLine (Cursor.forward_rest_append h)
  rw [Cursor.forward_add] at hplace
  have hlength : (first ++ (newLine column ++ more)).length + m =
      first.length + (column + 1) + (more.length + m) := by
    rw [List.length_append, List.length_append, length_newLine]
    omega
  rw [hlength, ← Cursor.forward_add]
  exact hfirst.trans (hmore _ (by rw [hplace]) (by rw [hplace]))

/-- The entries of an object, if it is known of their values how these are read. -/
theorem Runs.entries {entries : List (Scalar × Document)} (hne : entries ≠ [])
    (hkeys : ∀ e ∈ entries, IsFieldKey e.1) (hvalues : ∀ e ∈ entries, Shaped m e.2)
    (hreads : ∀ e ∈ entries, ReadsValue column e.2)
    (hcolumn : place.column = column) (hopens : Opens column indents opened outer)
    (hn : n ≤ column) (hrest : BeginsTokenLine rest)
    (h : place.rest = entriesText column entries ++ (newLine n ++ rest)) :
    Runs (between place tokens indents true)
      (between (place.forward ((entriesText column entries).length + (n + 1)))
        ((entriesTokens column entries).reverse ++ (opened ++ tokens)) (column :: outer) true) := by
  induction entries generalizing place tokens indents opened with
  | nil => exact absurd rfl hne
  | cons e entries ih =>
    obtain ⟨key, value⟩ := e
    have hkey := hkeys _ List.mem_cons_self
    have hvalue := hvalues _ List.mem_cons_self
    have hread := hreads _ List.mem_cons_self
    by_cases hlast : entries = []
    · subst hlast
      exact .entry hkey hvalue hread hcolumn hopens hn hrest h
    · have htext : entriesText column ((key, value) :: entries) =
          entriesText column [(key, value)] ++ (newLine column ++ entriesText column entries) := by
        rw [entriesText_cons hlast, entriesText_single]
        simp
      have htokens : (entriesTokens column ((key, value) :: entries)).reverse =
          (entriesTokens column entries).reverse ++
            (entriesTokens column [(key, value)]).reverse := by
        simp [entriesTokens]
      have hkeys' := fun e he => hkeys e (List.mem_cons_of_mem _ he)
      have hline := @beginsTokenLine_entries column entries hlast hkeys' (newLine n ++ rest)
      rw [htext, List.append_assoc, List.append_assoc] at h
      rw [htext, htokens, List.append_assoc]
      refine .line h (.entry hkey hvalue hread hcolumn hopens (Nat.le_refl _) hline h) ?_
      exact fun place hcolumn h => ih hlast hkeys'
        (fun e he => hvalues e (List.mem_cons_of_mem _ he))
        (fun e he => hreads e (List.mem_cons_of_mem _ he)) hcolumn .stays h

theorem beginsTokenLine_items {items : List Document} (hne : items ≠ [])
    (hbegins : ∀ d ∈ items, (itemText column d).head? = some ' ') (t : List Char) :
    BeginsTokenLine (itemsText column items ++ t) := by
  obtain ⟨d, items, rfl⟩ := List.exists_cons_of_ne_nil hne
  obtain ⟨text, htext⟩ := List.head?_eq_some_iff.mp (hbegins d List.mem_cons_self)
  rw [itemsText, htext]
  exact beginsTokenLine_dash

/-- An item of a list, if it is known how it is read. -/
theorem Runs.item (hread : ReadsItem column d) (hbegins : (itemText column d).head? = some ' ')
    (hcolumn : place.column = column) (hn : n ≤ column) (hrest : BeginsTokenLine rest)
    (h : place.rest = itemsText column [d] ++ (newLine n ++ rest)) :
    Runs (between place tokens (column :: outer) true)
      (between (place.forward ((itemsText column [d]).length + (n + 1)))
        ((itemsTokens (column + Yaml.step) [d]).reverse ++ tokens) (column :: outer) true) := by
  have htext : itemsText column [d] = '-' :: itemText column d := by simp [itemsText]
  have htokens : itemsTokens (column + Yaml.step) [d] =
      .item :: valueTokens (column + Yaml.step) d := by simp [itemsTokens]
  obtain ⟨t, ht⟩ := List.head?_eq_some_iff.mp hbegins
  rw [htext] at h ⊢
  have hdash : place.rest = '-' :: ' ' :: (t ++ (newLine n ++ rest)) := by rw [h, ht]; rfl
  have hnext := Cursor.next_wide hdash (by decide)
  have hrun := @hread place.next n rest (.item :: tokens) outer hn hrest (by rw [hnext, hcolumn])
    (Cursor.forward_rest_cons h)
  have hlength : ('-' :: itemText column d).length + (n + 1) =
      (itemText column d).length + (n + 1) + 1 := by
    rw [List.length_cons]
    omega
  rw [htokens, hlength, List.reverse_cons, List.append_assoc]
  exact .trans (.dash hcolumn hdash) hrun

/-- The items of a list, if it is known how these are read. -/
theorem Runs.items {items : List Document} (hne : items ≠ [])
    (hreads : ∀ d ∈ items, ReadsItem column d)
    (hbegins : ∀ d ∈ items, (itemText column d).head? = some ' ')
    (hcolumn : place.column = column) (hn : n ≤ column) (hrest : BeginsTokenLine rest)
    (h : place.rest = itemsText column items ++ (newLine n ++ rest)) :
    Runs (between place tokens (column :: outer) true)
      (between (place.forward ((itemsText column items).length + (n + 1)))
        ((itemsTokens (column + Yaml.step) items).reverse ++ tokens) (column :: outer) true) := by
  induction items generalizing place tokens with
  | nil => exact absurd rfl hne
  | cons d items ih =>
    have hread := hreads _ List.mem_cons_self
    have hbegin := hbegins _ List.mem_cons_self
    by_cases hlast : items = []
    · subst hlast
      exact .item hread hbegin hcolumn hn hrest h
    · have htext : itemsText column (d :: items) =
          itemsText column [d] ++ (newLine column ++ itemsText column items) := by
        simp [itemsText, hlast]
      have htokens : (itemsTokens (column + Yaml.step) (d :: items)).reverse =
          (itemsTokens (column + Yaml.step) items).reverse ++
            (itemsTokens (column + Yaml.step) [d]).reverse := by
        simp [itemsTokens]
      have hbegins' := fun e he => hbegins e (List.mem_cons_of_mem _ he)
      have hline := @beginsTokenLine_items column items hlast hbegins' (newLine n ++ rest)
      rw [htext, List.append_assoc, List.append_assoc] at h
      rw [htext, htokens, List.append_assoc]
      refine .line h (.item hread hbegin hcolumn (Nat.le_refl _) hline h) ?_
      exact fun place hcolumn h => ih hlast (fun e he => hreads e (List.mem_cons_of_mem _ he))
        hbegins' hcolumn h

/-- What is read on the next line. -/
theorem Runs.nextLine {more text : List Char} {read : List Token}
    (h : place.rest = newLine column ++ more ++ text) (hbegins : BeginsToken (more ++ text))
    (hmore : ∀ next : Cursor, next.column = column → next.rest = more ++ text →
      Runs (between next tokens indents true)
        (between (next.forward (more.length + m)) read outer true)) :
    Runs (between place tokens indents allows)
      (between (place.forward ((newLine column ++ more).length + m)) read outer true) := by
  rw [List.append_assoc] at h
  have hplace := Cursor.forward_newLine h
  have hgap := @Runs.settle place (newLine column) _ tokens indents none allows _ .line h hbegins
    (by simp)
  rw [Bool.or_true, length_newLine] at hgap
  have hrun := hmore (place.forward (column + 1)) (by rw [hplace]) (by rw [hplace])
  rw [Cursor.forward_add] at hrun
  rw [List.length_append, length_newLine, Nat.add_assoc]
  exact hgap.trans hrun

/-- The entries of an object as a block of their own. -/
theorem Runs.object {entries : List (Scalar × Document)} (hne : entries ≠ [])
    (hkeys : ∀ e ∈ entries, IsFieldKey e.1) (hvalues : ∀ e ∈ entries, Shaped m e.2)
    (hreads : ∀ e ∈ entries, ReadsValue (k + Yaml.step) e.2)
    (hcolumn : place.column = k + Yaml.step) (hn : n ≤ k) (hrest : BeginsTokenLine rest)
    (h : place.rest = entriesText (k + Yaml.step) entries ++ (newLine n ++ rest)) :
    Runs (between place tokens (k :: outer) true)
      (between (place.forward ((entriesText (k + Yaml.step) entries).length + (n + 1)))
        ((valueTokens (k + Yaml.step) (.object entries)).reverse ++ tokens) (k :: outer) true) := by
  have hdeeper : ∀ j ∈ (k :: outer).head?, j < k + Yaml.step := by
    rintro _ ⟨⟩
    exact Nat.lt_add_of_pos_right (by decide)
  have hrun := @Runs.entries place rest tokens _ _ _ n m _ _ hne hkeys hvalues hreads hcolumn
    (.opens hdeeper) (Nat.le_trans hn (Nat.le_add_right k _)) hrest h
  have hlast := Cursor.forward_newLine (Cursor.forward_rest_append h)
  rw [Cursor.forward_add] at hlast
  have htokens : (valueTokens (k + Yaml.step) (.object entries)).reverse ++ tokens =
      .blockEnd :: ((entriesTokens (k + Yaml.step) entries).reverse ++
        ([.blockStart .mapping] ++ tokens)) := by
    simp [valueTokens]
  rw [htokens]
  refine hrun.trans (.close (by rw [hlast]; exact hrest.2) ?_)
  rw [hlast]
  exact Nat.lt_of_le_of_lt hn (Nat.lt_add_of_pos_right (by decide))

theorem readsValue_object {entries : List (Scalar × Document)} (hne : entries ≠ [])
    (hkeys : ∀ e ∈ entries, IsFieldKey e.1) (hvalues : ∀ e ∈ entries, Shaped m e.2)
    (hreads : ∀ e ∈ entries, ∀ k, ReadsValue k e.2) (k : Nat) : ReadsValue k (.object entries) := by
  intro place column n rest tokens indents allows hn hrest hcolumn hfold h
  have htext : valueText k column (.object entries) =
      newLine (k + Yaml.step) ++ entriesText (k + Yaml.step) entries := by
    obtain ⟨e, entries, rfl⟩ := List.exists_cons_of_ne_nil hne
    rfl
  rw [htext] at h ⊢
  exact .nextLine h (beginsTokenLine_entries hne hkeys _).2 fun next hcolumn h =>
    .object hne hkeys hvalues (fun e he => hreads e he _) hcolumn hn hrest h

theorem readsItem_object {entries : List (Scalar × Document)} (hne : entries ≠ [])
    (hkeys : ∀ e ∈ entries, IsFieldKey e.1) (hvalues : ∀ e ∈ entries, Shaped m e.2)
    (hreads : ∀ e ∈ entries, ∀ k, ReadsValue k e.2) (k : Nat) : ReadsItem k (.object entries) := by
  intro place n rest tokens indents hn hrest hcolumn h
  have htext : itemText k (.object entries) = ' ' :: entriesText (k + Yaml.step) entries := by
    obtain ⟨e, entries, rfl⟩ := List.exists_cons_of_ne_nil hne
    rfl
  rw [htext] at h ⊢
  have hnext := Cursor.next_wide h (by decide)
  have hrun := @Runs.object place.next rest tokens indents k n m entries hne hkeys hvalues
    (fun e he => hreads e he _) (by rw [hnext, hcolumn]; rfl) hn hrest (Cursor.forward_rest_cons h)
  rw [List.length_cons, Nat.add_right_comm]
  exact .space h (beginsTokenLine_entries hne hkeys _).2 hrun

theorem readsValue_list {items : List Document} (hreads : ∀ d ∈ items, ∀ k, ReadsItem k d)
    (hbegins : ∀ d ∈ items, ∀ k, (itemText k d).head? = some ' ') (k : Nat) :
    ReadsValue k (.list items) := by
  intro place column n rest tokens indents allows hn hrest hcolumn hfold h
  by_cases hne : items = []
  · subst hne
    have htext : valueText k column (.list []) = [' ', '[', ']'] := rfl
    rw [htext] at h ⊢
    have hnext : place.forward 1 = _ := Cursor.next_wide h (by decide)
    have hcolumn' : k < (place.forward 1).column := by
      rw [hnext]
      exact Nat.lt_succ_of_le hcolumn
    have hbrackets := Cursor.forward_rest_cons h
    have hlength : [' ', '[', ']'].length + (n + 1) = 2 + (n + 1) + 1 := by
      rw [List.length_cons, List.length_cons, List.length_singleton]
      omega
    rw [hlength]
    exact .space h ⟨rfl, nofun, nofun⟩ (.emptyList hrest.2 hcolumn' hbrackets)
  · have htext : valueText k column (.list items) = newLine k ++ itemsText k items := by
      obtain ⟨d, items, rfl⟩ := List.exists_cons_of_ne_nil hne
      rfl
    have htokens : valueTokens (k + Yaml.step) (.list items) =
        itemsTokens (k + Yaml.step) items := by
      obtain ⟨d, items, rfl⟩ := List.exists_cons_of_ne_nil hne
      rfl
    rw [htext] at h ⊢
    rw [htokens]
    exact .nextLine h (beginsTokenLine_items hne (fun d hd => hbegins d hd k) _).2
      fun next hcolumn h => .items hne (fun d hd => hreads d hd k) (fun d hd => hbegins d hd k)
        hcolumn hn hrest h

/-- Documents of leaves with the keys of trees are read as they are laid out. -/
theorem reads_of_shaped (h : Shaped m d) : (∀ k, ReadsValue k d) ∧
    ((∀ parts, d ≠ .list parts) → ∀ k, ReadsItem k d ∧ (itemText k d).head? = some ' ') := by
  induction h with
  | scalar hs =>
    exact ⟨readsValue_scalar hs, fun _ k => ⟨readsItem_scalar hs k, head?_scalarText⟩⟩
  | list _ hlists ih =>
    refine ⟨readsValue_list (fun d hd k => ((ih d hd).2 (hlists d hd) k).1)
      fun d hd k => ((ih d hd).2 (hlists d hd) k).2, fun h => absurd rfl (h _)⟩
  | @object _ entries hne hkeys _ hvalues ih =>
    have hreads := fun e he => (ih e he).1
    refine ⟨readsValue_object hne hkeys hvalues hreads, fun _ k =>
      ⟨readsItem_object hne hkeys hvalues hreads k, ?_⟩⟩
    obtain ⟨e, entries, rfl⟩ := List.exists_cons_of_ne_nil hne
    rfl

theorem tokensFrom_entries {m : Nat} {entries : List (Scalar × Document)} (hne : entries ≠ [])
    (hkeys : ∀ e ∈ entries, IsFieldKey e.1) (hvalues : ∀ e ∈ entries, Shaped m e.2) {bound : Nat}
    (hbound : (entriesText 0 entries ++ ['\n']).length < bound) :
    tokensFrom bound (.start (entriesText 0 entries ++ ['\n'])) =
      .blockStart .mapping :: entriesTokens 0 entries ++ [.blockEnd, .textEnd] := by
  have hstart : (Cursor.start (entriesText 0 entries ++ ['\n'])).rest =
      entriesText 0 entries ++ (newLine 0 ++ []) := by
    rw [List.append_nil]
    rfl
  have hrun := @Runs.entries (.start (entriesText 0 entries ++ ['\n'])) [] []
    [.blockStart .mapping] [] [] 0 m 0 entries hne hkeys hvalues
    (fun e he => (reads_of_shaped (hvalues e he)).1 0) rfl (.opens (by simp)) (Nat.le_refl 0)
    beginsTokenLine_nil hstart
  have hlast := Cursor.forward_newLine (Cursor.forward_rest_append hstart)
  rw [Cursor.forward_add] at hlast
  have hlexes := hrun _ (.ofEnd (by rw [hlast]))
  refine (hlexes.tokensFrom hbound).trans ?_
  simp

end Lexer

/-- A rendered object is read as the tokens of its entries. -/
theorem ofText_render {m : Nat} {entries : List (Scalar × Document)}
    (h : Shaped m (.object entries)) :
    Token.ofText (render (.object entries)).toList =
      .blockStart .mapping :: entriesTokens 0 entries ++ [.blockEnd, .textEnd] := by
  cases h with
  | object hne hkeys _ hvalues =>
    have hrender : (render (.object entries)).toList = entriesText 0 entries ++ ['\n'] := by
      obtain ⟨e, entries, rfl⟩ := List.exists_cons_of_ne_nil hne
      rw [render, String.toList_ofList]
    have hallowed : (entriesText 0 entries ++ ['\n']).all isAllowed = true := by
      rw [List.all_eq_true]
      refine allowed_append.mpr
        ⟨allowed_entriesText hkeys fun e he => (allowed_of_shaped (hvalues e he)).1, ?_⟩
      exact allowed_newLine 0
    rw [hrender, Token.ofText, if_pos hallowed]
    exact Lexer.tokensFrom_entries hne hkeys hvalues (Nat.lt_succ_self _)

end DhallSyntax.Yaml
