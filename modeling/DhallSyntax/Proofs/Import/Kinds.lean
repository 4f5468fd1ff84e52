import DhallSyntax.Proofs.Context.Whole
import DhallSyntax.Proofs.Reading.Addresses

/-!
Where an import comes from, with another end of the text. Behind whitespace and braces no name and
no address goes on, so that an import in front of one end is the same in front of another that
begins with one of them. A dash may go on with both, which is why line comments are not among them.
Main statement: `Seam.steady_importType`.
-/

namespace DhallSyntax

open CharClass Grammar

variable {α β σ : Type}

/-- What whitespace begins with, apart from the dash of a line comment. -/
abbrev edges : List Char := [' ', '\t', '\n', '\r', '{']

/-- An import that is not fetched with headers. -/
def ImportKind.NoHeaders (kind : ImportKind String) : Prop :=
  ∀ url headers, kind ≠ .urlUsing url headers

/-- No character of the text is an edge. -/
def Edgeless (text : List Char) : Prop := ∀ c ∈ text, c ∉ edges

instance (text : List Char) : Decidable (Edgeless text) := List.decidableBAll _ text

theorem edgeless_of_class {chars : CharClass} (hc : edges.all (fun c => !chars c) = true)
    {text : List Char} (h : ∀ c ∈ text, chars c = true) : Edgeless text := by
  intro c hm hedge
  have hnot := List.all_eq_true.mp hc c hedge
  rw [h c hm] at hnot
  cases hnot

/-- Characters of a class without edges, and percent escapes. -/
theorem edgeless_piece {chars : CharClass} (hc : edges.all (fun c => !chars c) = true)
    {piece : List Char} (h : ∀ c ∈ piece, chars c = true ∨ c = '%' ∨ hexDigit c = true) :
    Edgeless piece := by
  have hhex : edges.all (fun c => !hexDigit c) = true := by decide
  intro c hm
  obtain hchar | rfl | hdigit := h c hm
  · exact edgeless_of_class hc (List.forall_mem_singleton.mpr hchar) c List.mem_cons_self
  · decide
  · exact edgeless_of_class hhex (List.forall_mem_singleton.mpr hdigit) c List.mem_cons_self

namespace Seam

variable {T : Seam} {n : Nat} {x y v : List Char}

/-- Wherever a part lands in front of the seam, there is a steady way to the same place with another
end of the text. -/
def Stays (T : Seam) (v : List Char) (n : Nat) (E : α → List Char → Prop) (g : Grammar α) : Prop :=
  ∀ x a y, T.Lands n g x a y → E a y → Steady .bare 0 0 (.term g) (x ++ v) (some (a, y ++ v))

/-! ## Putting parts together -/

section Stays

variable {E : α → List Char → Prop} {F : β → List Char → Prop}

theorem Stays.pure (a : α) : T.Stays v n E (Pure.pure a) := by
  intro x b y h _
  obtain ⟨rfl, rfl⟩ := h.pure
  exact .plain trivial rfl

theorem Stays.fail (expectation : String) : T.Stays v n E (.fail expectation) :=
  fun _ _ _ h => nomatch h

theorem Stays.bind {first : Grammar β} {next : β → Grammar α} (h : T.Stays v n F first)
    (hl : ∀ b, T.Leads n E (F b) (next b)) (hn : ∀ b, T.Stays v n E (next b)) :
    T.Stays v n E (first >>= next) := by
  intro x a y ha he
  obtain ⟨b, z, hb, hnext⟩ := ha.bind
  exact .bind (h x b z hb (hl b z a y hnext he)) (hn b z a y hnext he)

/-- A part that stays whatever follows it. -/
theorem Stays.andThen {first : Grammar β} {next : β → Grammar α}
    (h : T.Stays v n (fun _ _ => True) first) (hn : ∀ b, T.Stays v n E (next b)) :
    T.Stays v n E (first >>= next) :=
  Stays.bind h (fun _ _ _ _ _ _ => trivial) hn

theorem Stays.ite {p : Prop} [Decidable p] {g g' : Grammar α} (h : p → T.Stays v n E g)
    (h' : ¬ p → T.Stays v n E g') : T.Stays v n E (if p then g else g') := by
  split
  · exact h ‹_›
  · exact h' ‹_›

theorem Stays.optional? {part : Grammar α} {E : Option α → List Char → Prop}
    (h : T.Stays v n (fun a => E (some a)) part)
    (hm : ∀ x, E none x → T.Fails n part x → Steady .bare 0 0 (.term part) (x ++ v) none) :
    T.Stays v n E (Grammar.optional? part) := by
  intro x r y hl he
  obtain ⟨a, rfl, ha⟩ | ⟨rfl, rfl, hf⟩ := hl.optional?
  · exact .left (.bind (h x a y ha he) (.plain trivial rfl))
  · exact .right (.miss (hm y he hf)) (.plain trivial rfl)

theorem Stays.iterate {step : σ → Grammar (σ ⊕ α)} (I : σ → List Char → Prop)
    (hstep : ∀ state, T.Stays v n (Sum.elim I E) (step state))
    (hlead : ∀ state, T.Leads n (Sum.elim I E) (I state) (step state))
    (hshort : ∀ state x state' z, T.Lands n (step state) x (.inl state') z →
      z.length < x.length) {state : σ} : T.Stays v n E (.iterate state step) := by
  intro x a y h he
  suffices hloop : Steady .bare 0 0 (.loop step state) (x ++ v) (some (a, y ++ v)) ∧ I state x from
    .iterate hloop.1
  refine Lands.iterate_induction (P := fun state x =>
    Steady .bare 0 0 (.loop step state) (x ++ v) (some (a, y ++ v)) ∧ I state x) ?_ ?_ h
  · intro state x hl
    exact ⟨.last (hstep state x _ y hl he), hlead state x _ y hl he⟩
  · rintro state x state' z hl ⟨hsteady, hi⟩
    have hlt : (z ++ v).length < (x ++ v).length := by
      rw [List.length_append, List.length_append]
      exact Nat.add_lt_add_right (hshort state x state' z hl) _
    exact ⟨.next (hstep state x _ z hl hi) hlt hsteady, hlead state x _ z hl hi⟩

/-- A repeated part stays if it does and does not match where the repetition ends. -/
theorem Stays.many {part : Grammar α} {E : List α → List Char → Prop} {P : List Char → Prop}
    (hpart : T.Stays v n (fun _ => P) part) (hlead : T.Leads n (fun _ => P) P part)
    (hshort : ∀ x a z, T.Lands n part x a z → z.length < x.length)
    (hlast : ∀ values x, E values x → P x ∧ Steady .bare 0 0 (.term part) (x ++ v) none) :
    T.Stays v n E (Grammar.many part) := by
  refine Stays.bind (F := fun values => E values.reverse) ?_ (fun _ => .pure fun _ h => h)
    fun _ => .pure _
  refine Stays.iterate (fun _ => P) (fun state => ?_)
    (leads_foldStep hlead fun state x he => (hlast _ x he).1) (foldStep_short hshort)
  refine Stays.bind (F := fun value y => value.elim (E state.reverse y) fun _ => P y)
    (Stays.optional? hpart fun x hx _ => (hlast _ x hx).2) (fun value => ?_) fun value => ?_
  · cases value <;> exact .pure fun _ h => h
  · cases value <;> exact .pure _

end Stays

/-! ## Literals and runs -/

section Leaves

variable {E : α → List Char → Prop} (hv : HeadIn edges v)

/-- What the other end begins with belongs to no literal and no run without edges. -/
theorem beginning_in_front (hv : HeadIn edges v) {text : List Char} (ht : Edgeless text)
    (h : text <+: x ++ v) : text <+: x := by
  obtain h' | ⟨rest, rfl⟩ := List.prefix_or_prefix_of_prefix h (List.prefix_append x v)
  · exact h'
  · cases rest with
    | nil => exact (List.append_nil x).symm ▸ List.prefix_rfl
    | cons c rest =>
      obtain ⟨later, hl⟩ := h
      rw [List.append_assoc] at hl
      have hhead : v.head? = some c := by rw [← List.append_cancel_left hl]; rfl
      exact absurd (hv c hhead) (ht c (List.mem_append_right _ List.mem_cons_self))

theorem head_at_edge (hv : HeadIn edges v) {chars : CharClass}
    (hc : edges.all (fun c => !chars c) = true) (h : (T.was y).head?.any chars = false) :
    (y ++ v).head?.any chars = false := by
  cases y with
  | nil => exact hv.any hc
  | cons c y => exact h

theorem stays_expect {literal : String} {E : Unit → List Char → Prop} :
    T.Stays v n E (expect literal) := by
  intro x _ y h _
  obtain rfl := lands_expect h
  refine .plain doesOnly_expect ?_
  rw [Grammar.read, readBy_expect, List.append_assoc, isPrefixOf_append, if_pos rfl, List.drop_left]
  rfl

theorem stays_takeLength {length : List Char → Nat} (hle : ∀ s, length s ≤ s.length)
    (hnow : ∀ w y, length (T.was (w ++ y)) = w.length → length (w ++ (y ++ v)) = w.length)
    {E : String → List Char → Prop} : T.Stays v n E (takeLength length) := by
  intro x text y h _
  obtain ⟨w, rfl, rfl, hw⟩ := lands_takeLength hle h
  refine .plain (by simp [takeLength]) ?_
  rw [List.append_assoc]
  exact readBy_takeLength (hnow w y hw)

theorem stays_takeIf_some {chars : CharClass} {next : Option Char → Grammar α}
    (hnone : ∀ x a y, ¬ T.Lands n (next none) x a y)
    (hn : ∀ c, T.Stays v n E (next (some c))) : T.Stays v n E (takeIf chars >>= next) := by
  intro x a y ha he
  obtain ⟨r, z, hr, hnext⟩ := ha.bind
  obtain ⟨c, rfl, rfl, hc⟩ | ⟨rfl, -, -⟩ := lands_takeIf hr
  · refine .bind (.plain doesOnly_takeIf ?_) (hn c z a y hnext he)
    rw [List.cons_append, Grammar.read, readBy_takeIf_cons, if_pos hc]
    rfl
  · exact absurd hnext (hnone z a y)

include hv

theorem stays_accept {literal : String} (hl : Edgeless literal.toList)
    {E : Bool → List Char → Prop} : T.Stays v n E (accept literal) := by
  intro x b y h _
  refine .plain doesOnly_accept ?_
  obtain ⟨rfl, rfl⟩ | ⟨rfl, rfl, hnot⟩ := lands_accept h
  · rw [Grammar.read, readBy_accept, List.append_assoc, isPrefixOf_append, if_pos rfl,
      List.drop_left]
    rfl
  · refine readBy_accept_of_not fun hp => ?_
    have hwas : literal.toList <+: T.was y :=
      (beginning_in_front hv hl hp).trans (List.prefix_append y _)
    exact Bool.false_ne_true (hnot.symm.trans (List.isPrefixOf_iff_prefix.mpr hwas))

theorem stays_keyword (word : String) {E : Unit → List Char → Prop} :
    T.Stays v n E (keyword word) := by
  intro x _ y h _
  obtain ⟨rfl, hstop⟩ := lands_keyword h
  refine .plain doesOnly_keyword ?_
  rw [Grammar.read, readBy_keyword, List.append_assoc, isPrefixOf_append, List.drop_left,
    head_at_edge hv (by decide) hstop]
  rfl

/-- A run of characters ends where it did, if no edge is of the class or something is left. -/
theorem stays_takeWhile {chars : CharClass} {E : List Char → List Char → Prop}
    (hc : edges.all (fun c => !chars c) = true ∨ ∀ run y, E run y → y ≠ []) :
    T.Stays v n E (takeWhile chars) := by
  intro x run y h he
  obtain ⟨rfl, hrun, hstop⟩ := lands_takeWhile h
  refine .plain doesOnly_takeWhile ?_
  have hnow : (y ++ v).head?.any chars = false := by
    obtain hc | hne := hc
    · exact head_at_edge hv hc hstop
    · obtain ⟨c, t, rfl⟩ := List.exists_cons_of_ne_nil (hne run y he)
      exact hstop
  obtain ⟨htake, hdrop⟩ := takeWhile_append_stop hrun hnow
  rw [Grammar.read, readBy_takeWhile, List.append_assoc, htake, hdrop]
  rfl

theorem stays_takeWhile1 {chars : CharClass} {E : List Char → List Char → Prop}
    (hc : edges.all (fun c => !chars c) = true ∨ ∀ run y, E run y → y ≠ []) (expected : String) :
    T.Stays v n E (takeWhile1 chars expected) :=
  Stays.bind (F := E) (stays_takeWhile hv hc)
    (fun _ => .ite (fun _ => .fail _) fun _ => .pure fun _ h => h)
    fun _ => .ite (fun _ => .fail _) fun _ => .pure _

/-- A run of characters and percent escapes. -/
theorem stays_run {chars : CharClass} (hc : edges.all (fun c => !chars c) = true)
    (hpercent : chars '%' = false) {E : String → List Char → Prop} :
    T.Stays v n E (takeLength (Host.runLength chars)) := by
  refine stays_takeLength (Host.runLength_le chars) fun w y h => ?_
  rw [was_append] at h
  obtain ⟨hw, hstop⟩ := Host.runLength_split h
  refine Host.runLength_append_of_stop hpercent hw ?_
  refine Decidable.byContradiction fun hgoes => ?_
  obtain ⟨piece, rest, hpiece, hagain, hall⟩ := Host.runLength_piece hpercent hgoes
  obtain ⟨t, rfl⟩ := beginning_in_front hv (edgeless_piece hc hall) ⟨rest, hpiece.symm⟩
  exact hagain _ (by rwa [was_append] at hstop)

theorem stays_port {E : String → List Char → Prop} :
    T.Stays v n E (takeLength fun s => (s.takeWhile digit).length) := by
  refine stays_takeLength (fun s => (List.takeWhile_prefix _).length_le) fun w y h => ?_
  rw [was_append] at h
  obtain ⟨hall, hstop⟩ := takeWhile_length h
  rw [(takeWhile_append_stop hall (head_at_edge hv (by decide) hstop)).1]

theorem stays_marked {mark : String} (hm : Edgeless mark.toList) {length : List Char → Nat}
    (hlength : ∀ {E : String → List Char → Prop}, T.Stays v n E (takeLength length))
    {E : Option String → List Char → Prop} : T.Stays v n E (marked mark length) :=
  .andThen (stays_accept hv hm) fun _ => .ite (fun _ => .andThen hlength fun _ => .pure _)
    fun _ => .pure _

end Leaves

/-! ## Paths -/

/-- Neither a further component of a path nor a quote is next. -/
def PathEnds (y : List Char) : Prop := ∀ c ∈ y.head?, c ≠ '/' ∧ c ≠ '"'

theorem PathEnds.head (hv : HeadIn edges v) (h : PathEnds y) : ∀ c ∈ (y ++ v).head?, c ≠ '/' := by
  cases y with
  | nil => exact hv.ne (by decide)
  | cons c y => exact fun d hd => (h d hd).1

theorem PathEnds.noQuote (h : PathEnds y) : NoQuote y := by
  rintro t rfl
  exact (h '"' rfl).2 rfl

section Addresses

variable (hv : HeadIn edges v)

include hv

theorem stays_pathComponent {E : String → List Char → Prop} : T.Stays v n E pathComponent := by
  apply Stays.andThen stays_expect
  intro _
  refine .andThen (stays_accept hv (by decide)) fun _ => .ite (fun _ => ?_) fun _ => ?_
  · apply Stays.bind (F := fun _ z => z ≠ []) (stays_takeWhile1 hv (.inr fun _ _ h => h) _)
    · intro _
      exact .front (leads_expect fun y _ => List.cons_ne_nil _ _)
    · exact fun _ => .andThen stays_expect fun _ => .pure _
  · exact .andThen (stays_takeWhile1 hv (.inl (by decide)) _) fun _ => .pure _

theorem stays_anchor {E : Anchor → List Char → Prop} : T.Stays v n E anchor := by
  refine .andThen (stays_accept hv (by decide)) fun _ => .ite (fun _ => .pure _) fun _ => ?_
  refine .andThen (stays_accept hv (by decide)) fun _ => .ite (fun _ => .pure _) fun _ => ?_
  exact .andThen (stays_accept hv (by decide)) fun _ => .ite (fun _ => .pure _) fun _ => .pure _

theorem stays_localImport : T.Stays v n (fun _ => PathEnds) localImport := by
  refine .andThen (stays_anchor hv) fun _ => .andThen (stays_pathComponent hv) fun _ => ?_
  refine Stays.bind (F := fun _ => PathEnds) ?_ (fun _ => .pure fun _ h => h) fun _ => .pure _
  refine Stays.many (P := fun _ => True) (stays_pathComponent hv) (.any _) ?_ ?_
  · exact fun x a z h => pathComponent_shrinks (K := fun _ => True) x a z h trivial
  · intro _ x h
    have hslash : (expect "/").read (x ++ v) = .mismatch := by
      rw [Grammar.read, readBy_expect, if_neg]
      exact Bool.eq_false_iff.mp (isPrefixOf_of_head_ne (h.head hv))
    exact ⟨trivial, .miss (.plain doesOnly_expect hslash)⟩

/-! ## URLs -/

theorem stays_host {E : String → List Char → Prop} : T.Stays v n E host := by
  intro x a y h _
  obtain ⟨w, rfl, rfl, hl⟩ := lands_host h
  have hcut : Host.length? (w ++ y) = some w.length :=
    Host.length?_cut hl (by rw [List.length_append]; omega)
  have hnow : Host.length? (w ++ (y ++ v)) = some w.length := by
    rw [← List.append_assoc]
    exact Host.length?_append hcut (hv.any (by decide))
  refine .plain doesOnly_host ?_
  rw [List.append_assoc, Grammar.read, host, readBy_bind, readBy_look, hnow, Reading.bind_value]
  exact readBy_takeLength rfl

theorem steady_no_userinfo (h : T.Fails n userinfoPart x) :
    Steady .bare 0 0 (.term userinfoPart) (x ++ v) none := by
  have hwas := (fails_iff userinfoPart_free userinfoPart_free).mp h
  refine .plain userinfoPart_free (readBy_userinfoPart_eq_mismatch.mpr fun w hp hfull => ?_)
  have hchars : edges.all (fun c => !Host.userinfoChar c) = true := by decide
  have hat : Edgeless "@".toList := by decide
  have hedgeless : Edgeless (w ++ "@".toList) := by
    refine List.forall_mem_append.mpr ⟨edgeless_piece hchars fun c hc => ?_, hat⟩
    exact Host.mem_take_runLength (by rwa [hfull, List.take_length])
  have hfront : w ++ "@".toList <+: T.was x :=
    (beginning_in_front hv hedgeless hp).trans (List.prefix_append x _)
  exact readBy_userinfoPart_eq_mismatch.mp hwas w hfront hfull

theorem stays_userinfo {E : Option String → List Char → Prop} : T.Stays v n E userinfo := by
  refine Stays.optional? ?_ fun _ _ hf => steady_no_userinfo hv hf
  refine .andThen (stays_run hv (by decide) (by decide)) fun _ => ?_
  refine .andThen (stays_accept hv (by decide)) fun _ => .ite (fun _ => .pure _) fun _ => ?_
  exact fun _ _ _ h => nomatch h

theorem stays_urlComponent : T.Stays v n (fun _ => NoQuote) urlComponent := by
  intro x a y hl hy
  obtain ⟨t, rfl, h⟩ := lands_urlComponent hl
  clear hl
  have hlook : Steady .bare 0 0 (.term (look fun s => s.head? == some '/')) ('/' :: t ++ v)
      (some (true, '/' :: t ++ v)) := .plain trivial rfl
  apply Steady.bind hlook
  rw [if_pos rfl]
  obtain h | ⟨hf, h⟩ := h.orElse
  · exact .left (stays_pathComponent (E := fun _ _ => True) hv _ a y h trivial)
  · have hwas := head_of_no_component
      ((fails_iff doesOnly_pathComponent doesOnly_pathComponent).mp hf)
    have hquote : (t ++ v).head?.any (· == '"') = false := by
      cases t with
      | nil => exact hv.any (by decide)
      | cons c t => exact beq_false_of_ne fun hc => noQuote_of_segment h hy t (by rw [hc])
    have hmiss : pathComponent.read ('/' :: (t ++ v)) = .mismatch :=
      (readBy_pathComponent_eq_mismatch hquote).mpr (head_at_edge hv (by decide) hwas)
    refine .right (.plain doesOnly_pathComponent hmiss) ?_
    exact .bind (.plain trivial rfl) (stays_run (E := fun _ _ => True) hv (by decide) (by decide)
      t a y (lands_pathSegment h) trivial)

theorem stays_urlPath : T.Stays v n (fun _ => PathEnds) urlPath := by
  refine Stays.many (P := NoQuote) (stays_urlComponent hv) leads_urlComponent ?_ ?_
  · exact fun x a z h => urlComponent_shrinks (K := fun _ => True) x a z h trivial
  · intro _ x h
    have hslash : (look fun s => s.head? == some '/').read (x ++ v) = .value false (x ++ v) := by
      rw [Grammar.read, readBy_look, beq_eq_false_iff_ne.mpr fun hc => h.head hv '/' hc rfl]
    exact ⟨h.noQuote, .bind (.plain trivial hslash) (.plain trivial rfl)⟩

theorem stays_scheme {E : Scheme → List Char → Prop} : T.Stays v n E scheme :=
  .andThen (stays_accept hv (by decide)) fun _ => .ite (fun _ => .pure _) fun _ =>
    .andThen stays_expect fun _ => .pure _

/-- Where a URL ends: neither its path nor a clause with headers goes on. -/
structure UrlEnds (v y : List Char) : Prop where
  path : PathEnds y
  noUsing : Steady .bare 0 0 (.term usingClause) (y ++ v) none

theorem stays_httpImport :
    T.Stays v n (fun kind y => kind.NoHeaders ∧ UrlEnds v y) httpImport := by
  apply Stays.andThen (stays_scheme hv)
  intro scheme
  apply Stays.andThen stays_expect
  intro _
  apply Stays.andThen (stays_userinfo hv)
  intro userinfo
  apply Stays.andThen (stays_host hv)
  intro host
  apply Stays.andThen (stays_marked hv (by decide) (stays_port hv))
  intro port
  have hlast : ∀ {finish : Option (Import String) → Grammar (ImportKind String)}
      {address : Url String}, finish none = (return .url address) →
      (∀ headers, finish (some headers) = (return .urlUsing address headers)) → ∀ headers,
      T.Leads n (fun (kind : ImportKind String) y => kind.NoHeaders ∧ UrlEnds v y)
        (fun y => headers = none ∧ UrlEnds v y) (finish headers) := by
    intro finish address hnone hsome headers
    cases headers with
    | none =>
      rw [hnone]
      exact .pure fun _ h => ⟨rfl, h.2⟩
    | some headers =>
      rw [hsome]
      exact .pure fun _ h => absurd rfl (h.1 address headers)
  apply Stays.bind (F := fun _ => PathEnds) (stays_urlPath hv)
  · intro path
    refine Leads.bind (F := fun _ => PathEnds) ?_ fun query =>
      Leads.bind (F := fun headers y => headers = none ∧ UrlEnds v y) ?_ (hlast rfl fun _ => rfl)
    · intro x a y hl hy
      obtain ⟨b, z, hb, h⟩ := Lands.bind hl
      clear hl
      obtain ⟨rfl, rfl⟩ | ⟨rfl, rfl, -⟩ := lands_accept hb
      · rintro c ⟨⟩
        exact ⟨by decide, by decide⟩
      · obtain ⟨-, rfl⟩ := Lands.pure h
        exact hy
    · exact Leads.optional? (fun _ _ _ _ h => by cases h.1) fun _ h => h.2.path
  · intro path
    refine Stays.andThen (stays_marked hv (by decide) (stays_run hv (by decide) (by decide))) ?_
    intro query
    refine Stays.bind (F := fun headers y => headers = none ∧ UrlEnds v y) ?_
      (hlast rfl fun _ => rfl) ?_
    · exact Stays.optional? (fun _ _ _ _ h => by cases h.1) fun _ h _ => h.2.noUsing
    · intro headers
      cases headers <;> exact .pure _

/-! ## Environment variables -/

theorem stays_bashName {E : String → List Char → Prop} : T.Stays v n E bashName := by
  intro x a y hl he
  obtain ⟨c, t, rfl, halpha, h⟩ := lands_bashName hl
  refine .bind (.plain (by simp [peek]) rfl) ?_
  change Steady .bare 0 0 (.term (if (alpha c || c == '_') = true then _ else _)) (c :: t ++ v) _
  rw [if_pos halpha]
  exact Stays.andThen (stays_takeWhile hv (.inl (by decide))) (fun _ => .pure _) _ a y h he

theorem stays_quotedNameStep (name : List Char) {E : List Char ⊕ String → List Char → Prop} :
    T.Stays v n E (quotedNameStep name) := by
  intro x a y hl he
  obtain ⟨c, t, rfl⟩ := List.exists_cons_of_ne_nil
    (Shrinks.leads (E := fun _ _ => True) (quotedNameStep_shrinks name) x a y hl trivial)
  obtain ⟨b, z, hb, h⟩ := Lands.bind hl
  obtain ⟨rfl, rfl⟩ := lands_look hb
  clear hl hb
  refine .bind (.plain trivial rfl) ?_
  change T.Lands n (if (some c == some '"' && !name.isEmpty) = true then _ else _) _ a y at h
  change Steady .bare 0 0
    (.term (if (some c == some '"' && !name.isEmpty) = true then _ else _)) _ _
  split at h
  · rename_i hclose
    rw [if_pos hclose]
    obtain ⟨_, u, hu, h⟩ := Lands.bind h
    obtain ⟨-, rfl⟩ := List.cons.inj (lands_advance_one rfl hu)
    obtain ⟨rfl, rfl⟩ := Lands.pure h
    exact .bind (.plain trivial rfl) (.plain trivial rfl)
  · rename_i hclose
    rw [if_neg hclose]
    refine Stays.andThen (stays_accept hv (by decide)) (fun _ => ?_) _ a y h he
    refine .ite (fun _ => ?_) fun _ => ?_
    · intro x a y hl _
      obtain ⟨c, meaning, hm, rfl, rfl⟩ := lands_quotedNameEscape hl
      refine .bind (.plain (by simp [peek]) rfl) ?_
      simp only [List.cons_append, List.head?_cons, Option.bind_some, hm]
      exact .bind (.plain trivial rfl) (.plain trivial rfl)
    · exact stays_takeIf_some (fun _ _ _ h => by cases h) fun _ => .pure _

theorem stays_envImport {E : ImportKind String → List Char → Prop} : T.Stays v n E envImport := by
  refine .andThen stays_expect fun _ => .andThen (stays_accept hv (by decide)) fun _ => ?_
  refine .ite (fun _ => .andThen ?_ fun _ => .pure _) fun _ =>
    .andThen (stays_bashName hv) fun _ => .pure _
  exact Stays.iterate (fun _ _ => True) (fun name => stays_quotedNameStep hv name) (fun _ => .any _)
    fun name x next z h => quotedNameStep_shrinks (K := fun _ => True) name x _ z h trivial

/-! ## Kinds -/

/-- An import that lands in front of one end comes from the same place with the other one. -/
theorem steady_importType {kind : ImportKind String} (h : T.Lands n (call .importType) x kind y)
    (hkind : kind.NoHeaders) (hy : UrlEnds v y) :
    Steady .bare 2 0 (.term (call .importType)) (x ++ v) (some (kind, y ++ v)) := by
  refine .call trivial ?_
  have hm : "missing".toList.head?.any "m".toList.contains = true := by decide
  obtain h | ⟨-, h⟩ := h.body.choice
  · exact .left ((Stays.andThen (E := fun _ _ => True) (stays_keyword hv "missing")
      (fun _ => .pure _) x kind y h trivial).mono (Nat.zero_le 1))
  obtain h | ⟨-, h⟩ := h.choice
  · obtain ⟨c, t, rfl, hc⟩ := h.first
    have hc : "./~".toList.contains c = true := hc
    refine .right (.miss ?_) (.left (.call trivial ?_))
    · exact steady_opening (Rule.opens_keyword _ hm) hc trivial (by decide) (Nat.zero_le 1)
    · exact stays_localImport hv _ kind y h.body hy.path
  obtain h | ⟨-, h⟩ := h.choice
  · obtain ⟨c, t, rfl, hc⟩ := h.first
    have hc : "h".toList.contains c = true := hc
    refine .right (.miss ?_) (.right ?_ (.left (.call trivial ?_)))
    · exact steady_opening (Rule.opens_keyword _ hm) hc trivial (by decide) (Nat.zero_le 1)
    · exact steady_opening Rule.opens_localImport hc trivial (by decide) (by decide)
    · exact stays_httpImport hv _ kind y h.body ⟨hkind, hy⟩
  obtain h | ⟨-, h⟩ := h.choice
  · obtain ⟨c, t, rfl, hc⟩ := h.first
    have hc : "e".toList.contains c = true := hc
    refine .right (.miss ?_) (.right ?_ (.right ?_ (.left (.call trivial ?_))))
    · exact steady_opening (Rule.opens_keyword _ hm) hc trivial (by decide) (Nat.zero_le 1)
    · exact steady_opening Rule.opens_localImport hc trivial (by decide) (by decide)
    · exact steady_opening Rule.opens_httpImport hc trivial (by decide) (by decide)
    · exact stays_envImport (E := fun _ _ => True) hv _ kind y h.body trivial
  · cases h

end Addresses

end Seam

/-- The whole text is read up to the first end, which is replaced by the second one. -/
theorem steady_importType_of_read {x y e v : List Char} {kind : ImportKind String}
    (h : Rule.importType.read (x ++ e) = .value kind (y ++ e)) (hv : HeadIn edges v)
    (hkind : kind.NoHeaders) (hy : Seam.UrlEnds v y) :
    Steady .bare 2 0 (.term (call .importType)) (x ++ v) (some (kind, y ++ v)) := by
  let T : Seam := ⟨[], e, [], 0, .inl rfl, .inl rfl⟩
  obtain ⟨n, hlands⟩ : ∃ n, T.Lands n (call .importType) x kind y := Seam.lands_of_read h
  exact Seam.steady_importType hv hlands hkind hy

end DhallSyntax
