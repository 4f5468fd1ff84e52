import DhallSyntax.Proofs.Context.Embedding
import DhallSyntax.Proofs.Reading.Collections

/-!
Entries of a collection, each a text that ends with a line ending and is followed by a mark or by
what closes the collection. Main statements:

* `isEntry_of_parse`: a source that is parsed is an entry that is read as its expression;
* `iterates_entries`: entries with a mark in front of each are read one after the other, whatever
  comes of what is behind them;
* `read_furtherEntries_marked`, `iterates_projection`: both kinds of repetitions keep all entries in
  their order, with or without a mark behind the last one.
-/

namespace DhallSyntax

open Grammar
open Reading (Iterates)
open Whitespace (Tight Blank)

namespace Collection

/-! ## What ends an entry -/

/-- What is behind an entry and its whitespace. A bar with another one behind it is an operator. -/
inductive EndsEntry : List Char → Prop where
  | closing {c : Char} (hc : c ∈ [')', ']', '}', '>', ',']) (r : List Char) : EndsEntry (c :: r)
  | bar {r : List Char} (hr : r.head? ≠ some '|') : EndsEntry ('|' :: r)

namespace EndsEntry

variable {t : List Char} (h : EndsEntry t)

include h

theorem head {chars : CharClass}
    (hc : [')', ']', '}', '>', ',', '|'].all (fun c => !chars c) = true) :
    t.head?.any chars = false := by
  cases h with
  | @closing c hm r =>
    have hmem : c ∈ [')', ']', '}', '>', ',', '|'] := List.mem_append_left ['|'] hm
    simpa using List.all_eq_true.mp hc c hmem
  | bar => simpa using List.all_eq_true.mp hc '|' (by decide)

theorem tight : Tight t := Whitespace.tight_of_head (h.head (by decide))

/-- Behind whole chunks of whitespace it is what is next. -/
theorem behind_blank {gap : List Char} (hgap : Blank gap) :
    whitespace.read (gap ++ t) = .value () t :=
  (readBy_whitespace_blank hgap t).trans (readBy_whitespace_tight h.tight)

theorem edge {T : Seam} (hspace : whitespace.read (T.now []) = .value () t) (hl : 5 ≤ T.levels) :
    T.EdgeExpression t := by
  cases h with
  | @closing c hm r =>
    refine Seam.edgeExpression hspace ?_ fun _ => hl
    rw [List.head?_cons, Option.any_some, List.contains_iff_mem.mpr hm]
    rfl
  | bar hr => exact Seam.edgeExpression_bar hspace hr fun _ => hl

end EndsEntry

/-- A bar is no whitespace. -/
theorem bar_behind {s v : List Char} (h : whitespace.read s = .value () v)
    (hv : v.head? ≠ some '|') : s.head? ≠ some '|' := by
  intro hs
  have htight : Tight s := Whitespace.tight_of_head (by rw [hs]; rfl)
  have hsame := (Reading.value.inj ((readBy_whitespace_tight htight).symm.trans h)).2
  exact hv (hsame ▸ hs)

/-! ## Entries -/

/-- Neither a mark nor what closes a collection is next. -/
def Unmarked (v : List Char) : Prop := v.head?.any (fun c => !Rule.expression.first c) = false

namespace Unmarked

variable {v : List Char} (h : Unmarked v)

include h

theorem accept_false {literal : String}
    (hl : literal.toList.head?.any (fun c => !Rule.expression.first c) = true) :
    (accept literal).read v = .value false v :=
  readBy_accept_of_head literal hl h

theorem head_ne {c : Char} (hc : Rule.expression.first c = false) : v.head? ≠ some c := by
  intro hv
  rw [Unmarked, hv, Option.any_some, hc] at h
  cases h

end Unmarked

/-- A text where an entry begins behind whitespace. -/
structure Leads (s v : List Char) : Prop where
  space : whitespace.read s = .value () v
  head : Unmarked v

namespace Leads

variable {s v : List Char} (h : Leads s v)

include h

theorem head_ne_bar : s.head? ≠ some '|' := bar_behind h.space (h.head.head_ne (by decide))

theorem behind_blank {gap : List Char} (hgap : Blank gap) : Leads (gap ++ s) v :=
  ⟨(readBy_whitespace_blank hgap s).trans h.space, h.head⟩

end Leads

/-- A text that is read as an entry of a collection, up to the whitespace at its end. -/
def IsEntry {α : Type} (entry : Grammar α) (text : List Char) (value : α) : Prop :=
  ∀ t, EndsEntry t → ∃ v u, Leads (text ++ t) v ∧ entry.read v = .value value u ∧
    whitespace.read u = .value () t

/-- What is parsed as a whole is read up to the line ending behind it. -/
theorem isEntry_of_core {settings : Settings} {lead taken behind gap : List Char} {e : Expr}
    {s : State} (h : Core settings lead taken behind e s) (hgap : Blank gap) :
    IsEntry (call .expression) (lead ++ taken ++ behind ++ '\n' :: gap) e := by
  intro t ht
  have hput : whitespace.read (gap ++ t) = .value () t := ht.behind_blank hgap
  have hreads := h.reads_edge (ht.edge (h.space_behind hput) (Nat.le_refl 5))
  refine ⟨_, _, ⟨?_, h.head_now _⟩, hreads.read_now, h.space_behind hput⟩
  have hspace := h.space_now (gap ++ t)
  simpa [Seam.now, Seam.continued] using hspace

/-- A source that is parsed is an entry, with a line ending behind it. -/
theorem isEntry_of_parse {settings : Settings} {source : String} {e : Expr} {gap : List Char}
    (h : parse settings source = .ok e) (hgap : Blank gap) :
    IsEntry (call .expression) (source.toList ++ '\n' :: gap) e := by
  obtain ⟨lead, taken, behind, s, hsource, hcore⟩ := exists_core h
  rw [hsource]
  exact isEntry_of_core hcore hgap

/-- A label in backquotes is an entry by itself. -/
theorem isEntry_label {l : String} {gap : List Char} (hl : IsLabel l) (hgap : Blank gap) :
    IsEntry (call .label) (Rendering.label l ++ '\n' :: gap) l := by
  intro t ht
  have hlabel : (call .label).read (Rendering.label l ++ '\n' :: (gap ++ t)) =
      .value l ('\n' :: (gap ++ t)) := read_label hl _
  have hshape : Rendering.label l ++ '\n' :: gap ++ t = Rendering.label l ++ '\n' :: (gap ++ t) :=
    List.append_assoc ..
  rw [hshape]
  exact ⟨_, _, ⟨readBy_whitespace_tight (by rfl), rfl⟩, hlabel, ht.behind_blank hgap.newline⟩

/-! ## Entries with marks between them -/

variable {α β : Type} {entry : Grammar α} {literal : String} {mark closing : Char}
  {gap s t : List Char} {text : β → List Char} {value : β → α} {entries : List β}

/-- Entries with a mark and whitespace in front of each. -/
def marked (mark : Char) (gap : List Char) (texts : List (List Char)) : List Char :=
  texts.flatMap fun text => mark :: (gap ++ text)

/-- A mark that begins no expression and ends an entry, and a character that closes what is between
the entries. -/
structure Delimits (literal : String) (mark closing : Char) : Prop
    extends Separates literal mark closing where
  marks : mark = ',' ∨ mark = '|'
  closes : closing ∈ [']', '}', '>']

namespace Delimits

variable (h : Delimits literal mark closing)

include h

theorem noClosing : Rule.expression.first closing = false := by
  have hall : [']', '}', '>'].all (fun c => !Rule.expression.first c) = true := by decide
  simpa only [Bool.not_eq_true'] using List.all_eq_true.mp hall closing h.closes

theorem noMark : literal.toList.head?.any (fun c => !Rule.expression.first c) = true := by
  rw [h.literal_eq]
  obtain hm | hm := h.marks <;> rw [hm] <;> decide

theorem ends_closing (t : List Char) : EndsEntry (closing :: t) :=
  .closing (List.mem_cons_of_mem ')' (List.mem_append_left [','] h.closes)) t

theorem ends_mark {r : List Char} (hr : r.head? ≠ some '|') : EndsEntry (mark :: r) := by
  obtain rfl | rfl := h.marks
  · exact .closing (by decide) r
  · exact .bar hr

theorem ends_marked (hgap : Blank gap) (hentries : ∀ e ∈ entries, IsEntry entry (text e) (value e))
    (ht : EndsEntry t) : EndsEntry (marked mark gap (entries.map text) ++ t) := by
  induction entries with
  | nil => exact ht
  | cons e entries ih =>
    obtain ⟨he, hrest⟩ := List.forall_mem_cons.mp hentries
    obtain ⟨v, u, hv, -⟩ := he _ (ih hrest)
    have hbar := (hv.behind_blank hgap).head_ne_bar
    simpa [marked] using h.ends_mark hbar

end Delimits

section Repetitions

/-- A mark with whitespace behind it, if there is one. -/
def optionalMark (mark : Char) (gap : List Char) (present : Bool) : List Char :=
  if present then mark :: gap else []

variable (hd : Delimits literal mark closing) (hgap : Blank gap)
  (hentries : ∀ e ∈ entries, IsEntry entry (text e) (value e))

include hd hgap hentries

/-- Entries with a mark in front of each are taken, and the repetition goes on behind them. -/
theorem iterates_entries {r : Reading (List α)} {done : List α} (ht : EndsEntry t)
    (hs : whitespace.read s = .value () (marked mark gap (entries.map text) ++ t))
    (hnext : ∀ s, whitespace.read s = .value () t →
      Iterates (fun values s => (Seam.furtherStep literal closing entry values).read s)
        ((entries.map value).reverse ++ done) s r) :
    Iterates (fun values s => (Seam.furtherStep literal closing entry values).read s) done s r := by
  induction entries generalizing s done with
  | nil => exact hnext s hs
  | cons e entries ih =>
    obtain ⟨he, hrest⟩ := List.forall_mem_cons.mp hentries
    obtain ⟨v, u, hv, hread, hspace⟩ := he _ (hd.ends_marked hgap hrest ht)
    have hs : whitespace.read s =
        .value () (mark :: (gap ++ (text e ++ (marked mark gap (entries.map text) ++ t)))) := by
      simpa [marked] using hs
    have hshorter : u.length < s.length := by
      have hfront := (readBy_leaves readers_leave _ _ _ _ hs).length_le
      have hbehind := (readBy_leaves readers_leave _ _ _ _ (hv.behind_blank hgap).space).length_le
      have hentry := (readBy_leaves readers_leave _ _ _ _ hread).length_le
      simp only [List.length_cons] at hfront
      omega
    have hpeek : (v.head? == some closing) = false := beq_false_of_ne (hv.head.head_ne hd.noClosing)
    have hstep : (Seam.furtherStep literal closing entry done).read s =
        .value (.inl (value e :: done)) u := by
      simp only [Seam.furtherStep, Seam.behindMark, readBy_bind, hs, Reading.bind_value,
        hd.accept_mark, if_true, (hv.behind_blank hgap).space, readBy_peek,
        hpeek, Bool.false_eq_true, if_false, hread, readBy_pure]
    refine .next hstep hshorter (ih hrest hspace fun s' hs' => ?_)
    have hdone : ((e :: entries).map value).reverse ++ done =
        (entries.map value).reverse ++ value e :: done := by simp
    exact hdone ▸ hnext s' hs'

omit hentries in
/-- So does what is behind the last entry. -/
theorem ends_last (trailing : Bool) (t : List Char) :
    EndsEntry (optionalMark mark gap trailing ++ closing :: t) := by
  have hclosing := hd.ends_closing t
  cases trailing with
  | false => exact hclosing
  | true =>
    have hne : closing ≠ '|' := by
      rintro rfl
      exact absurd hd.closes (by decide)
    refine hd.ends_mark (bar_behind (hclosing.behind_blank hgap) fun hbar => ?_)
    exact hne (Option.some.inj hbar)

/-- All entries are kept in their order, with a mark behind the last one or without it. -/
theorem read_furtherEntries_marked (trailing : Bool)
    (hs : whitespace.read s = .value () (marked mark gap (entries.map text) ++
      (optionalMark mark gap trailing ++ closing :: t))) :
    (furtherEntries literal closing entry).read s = .value (entries.map value) (closing :: t) := by
  have hsteps : Iterates (fun values s => (Seam.furtherStep literal closing entry values).read s) []
      s (.value (entries.map value).reverse (closing :: t)) := by
    refine iterates_entries hd hgap hentries (ends_last hd hgap trailing t) hs fun s' hs' => ?_
    rw [List.append_nil]
    refine .last ?_
    cases trailing with
    | false =>
      have hs' : whitespace.read s' = .value () (closing :: t) := hs'
      simp only [Seam.furtherStep, readBy_bind, hs', Reading.bind_value, hd.accept_closing,
        Bool.false_eq_true, if_false, readBy_pure]
    | true =>
      have hs' : whitespace.read s' = .value () (mark :: (gap ++ closing :: t)) := hs'
      have hclosing := (hd.ends_closing t).behind_blank hgap
      have hpeek : ((closing :: t).head? == some closing) = true := beq_self_eq_true _
      simp only [Seam.furtherStep, Seam.behindMark, readBy_bind, hs', Reading.bind_value,
        hd.accept_mark, if_true, hclosing, readBy_peek, hpeek, readBy_pure]
  simp only [furtherEntries, readBy_bind]
  refine (congrArg (Reading.bind · _) (readBy_iterate hsteps)).trans ?_
  simp only [Reading.bind_value, readBy_pure, List.reverse_reverse]

/-- Where one of them does not match, none is kept. -/
theorem read_furtherEntries_mismatch {x v : List Char} (hx : Leads x v)
    (hmiss : entry.read v = .mismatch)
    (hs : whitespace.read s =
      .value () (marked mark gap (entries.map text) ++ mark :: (gap ++ x))) :
    (furtherEntries literal closing entry).read s = .mismatch := by
  have hsteps : Iterates (fun values s => (Seam.furtherStep literal closing entry values).read s) []
      s .mismatch := by
    have hx := hx.behind_blank hgap
    have hpeek : (v.head? == some closing) = false := beq_false_of_ne (hx.head.head_ne hd.noClosing)
    refine iterates_entries hd hgap hentries (hd.ends_mark hx.head_ne_bar) hs fun s' hs' => .none ?_
    simp only [Seam.furtherStep, Seam.behindMark, readBy_bind, hs', Reading.bind_value,
      hd.accept_mark, if_true, hx.space, readBy_peek, hpeek, Bool.false_eq_true,
      if_false, hmiss, Reading.bind_mismatch]
  simp only [furtherEntries, readBy_bind]
  exact congrArg (Reading.bind · _) (readBy_iterate hsteps)

end Repetitions

/-! ## Labels of a projection -/

theorem delimits_record : Delimits "," ',' '}' where
  toSeparates := separates_record
  marks := .inl rfl
  closes := by decide

/-- The rounds of a projection from a label on. -/
theorem iterates_projection (hgap : Blank gap) (trailing : Bool) {text : String → List Char}
    {labels : List String} (h : ∀ l ∈ labels, IsEntry (call .label) (text l) l) {l : String}
    {v u : List Char} (hv : Unmarked v) (hl : (call .label).read v = .value l u)
    (hu : whitespace.read u = .value () (marked ',' gap (labels.map text) ++
      (optionalMark ',' gap trailing ++ '}' :: t))) (done : List String) :
    Iterates (fun labels s => (projectionStep labels).read s) done v
      (.value ((l :: labels).reverse ++ done) ('}' :: t)) := by
  have hends := ends_last delimits_record hgap trailing t
  have hcomma : ∀ r, (accept ",").read (',' :: r) = .value true r := delimits_record.accept_mark
  have hclose : ∀ r, (accept ",").read ('}' :: r) = .value false ('}' :: r) :=
    delimits_record.accept_closing
  -- A comma goes on with what is behind it.
  have hround : ∀ {v u r w : List Char} {l : String} (done : List String), Unmarked v →
      (call .label).read v = .value l u → whitespace.read u = .value () (',' :: r) →
      whitespace.read r = .value () w →
      (projectionStep done).read v = .value (.inl (l :: done)) w ∧ w.length < v.length := by
    intro v u r w l done hv hl hu hr
    have hpeek : (v.head? == some '}') = false := beq_false_of_ne (hv.head_ne (by decide))
    have hlabel := (readBy_leaves readers_leave _ _ _ _ hl).length_le
    have hfront := (readBy_leaves readers_leave _ _ _ _ hu).length_le
    have hbehind := (readBy_leaves readers_leave _ _ _ _ hr).length_le
    simp only [List.length_cons] at hfront
    constructor
    · simp only [projectionStep, readBy_bind, readBy_peek, Reading.bind_value, hpeek,
        Bool.false_eq_true, if_false, hl, hu, hcomma, if_true, hr, readBy_pure]
    · omega
  induction labels generalizing l v u done with
  | nil =>
    have hlast : ([l] : List String).reverse ++ done = l :: done := rfl
    rw [hlast]
    cases trailing with
    | false =>
      have hpeek : (v.head? == some '}') = false := beq_false_of_ne (hv.head_ne (by decide))
      have hu : whitespace.read u = .value () ('}' :: t) := hu
      refine .last ?_
      simp only [projectionStep, readBy_bind, readBy_peek, Reading.bind_value, hpeek,
        Bool.false_eq_true, if_false, hl, hu, hclose, readBy_pure]
    | true =>
      have hu : whitespace.read u = .value () (',' :: (gap ++ '}' :: t)) := hu
      have hclosing := (delimits_record.ends_closing t).behind_blank hgap
      obtain ⟨hstep, hshorter⟩ := hround done hv hl hu hclosing
      refine .next hstep hshorter (.last ?_)
      have hpeek : (('}' :: t).head? == some '}') = true := rfl
      simp only [projectionStep, readBy_bind, readBy_peek, Reading.bind_value, hpeek, if_true,
        readBy_pure]
  | cons l' labels ih =>
    obtain ⟨hl', hrest⟩ := List.forall_mem_cons.mp h
    obtain ⟨v', u', hv', hread, hspace⟩ :=
      hl' _ (delimits_record.ends_marked hgap hrest hends)
    have hu : whitespace.read u = .value () (',' :: (gap ++ (text l' ++
        (marked ',' gap (labels.map text) ++ (optionalMark ',' gap trailing ++ '}' :: t))))) := by
      simpa [marked] using hu
    obtain ⟨hstep, hshorter⟩ := hround done hv hl hu (hv'.behind_blank hgap).space
    have hnext := ih hrest hv'.head hread hspace (l :: done)
    have hdone : (l' :: labels).reverse ++ l :: done =
        (l :: l' :: labels).reverse ++ done := by simp
    exact .next hstep hshorter (hdone ▸ hnext)

end Collection

end DhallSyntax
