import DhallSyntax.Proofs.Collection.Entries

/-!
Collections written from sources that are parsed, one line ending behind each entry. Every entry is
kept in its place. Main statement: `entries_in_order`.
-/

namespace DhallSyntax

open Grammar
open Whitespace (Tight Blank)

namespace Collection

/-! ## Writing -/

/-- A source and what it is parsed as. -/
structure Source where
  text : String
  value : Expr
  parsed : ∃ settings, parse settings text = .ok value

/-- What is between the label of a field and its source. -/
inductive Separator where
  | equals
  | colon
deriving DecidableEq

namespace Separator

def char : Separator → Char
  | equals => '='
  | colon => ':'

/-- The separator of the first field decides what a record is. -/
def record : Separator → List (String × Option Expr) → Expr
  | equals => .record
  | colon => .recordType

end Separator

structure Field where
  label : String
  isLabel : IsLabel label
  separator : Separator
  source : Source

/-- What a record has of a field. -/
def Field.entry (f : Field) : String × Option Expr := (f.label, some f.source.value)

structure Alternative where
  label : String
  isLabel : IsLabel label
  type : Option Source

/-- What a union has of an alternative. -/
def Alternative.entry (a : Alternative) : String × Option Expr := (a.label, a.type.map Source.value)

/-- How a collection is written: with which whitespace behind its marks, and whether with a mark in
front of the first entry and behind the last one. Whitespace behind an opening brace begins with no
dash, as that would begin a comment. -/
structure Layout where
  gap : List Char
  blank : Blank gap
  noDash : gap.head? ≠ some '-'
  leading : Bool
  trailing : Bool

namespace Layout

variable (L : Layout)

def source (s : Source) : List Char := s.text.toList ++ '\n' :: L.gap

def label (l : String) : List Char := Rendering.label l ++ '\n' :: L.gap

def labelled (l : String) (separator : Separator) (s : Source) : List Char :=
  Rendering.label l ++ (L.gap ++ separator.char :: ' ' :: (L.gap ++ L.source s))

def field (f : Field) : List Char := L.labelled f.label f.separator f.source

def alternative (a : Alternative) : List Char :=
  match a.type with
  | some s => L.labelled a.label .colon s
  | none => L.label a.label

/-- Entries between two characters, with a mark between any two of them. -/
def enclose (opening mark closing : Char) (entries : List (List Char)) : List Char :=
  opening :: (L.gap ++ (optionalMark mark L.gap L.leading ++
    ((mark :: L.gap).intercalate entries ++ (optionalMark mark L.gap L.trailing ++ [closing]))))

def record (fields : List Field) : List Char := L.enclose '{' ',' '}' (fields.map L.field)

def union (alternatives : List Alternative) : List Char :=
  L.enclose '<' '|' '>' (alternatives.map L.alternative)

def list (elements : List Source) : List Char := L.enclose '[' ',' ']' (elements.map L.source)

/-- A projection out of a source in parentheses. -/
def projection (s : Source) (labels : List String) : List Char :=
  '(' :: (L.source s ++ ')' :: '.' :: L.enclose '{' ',' '}' (labels.map L.label))

/-! ## Reading entries -/

theorem isEntry_source (s : Source) : IsEntry (call .expression) (L.source s) s.value := by
  obtain ⟨settings, hs⟩ := s.parsed
  exact isEntry_of_parse hs L.blank

theorem isEntry_projected {l : String} (h : IsLabel l) : IsEntry (call .label) (L.label l) l :=
  isEntry_label h L.blank

theorem tight_separator (separator : Separator) (r : List Char) : Tight (separator.char :: r) := by
  cases separator <;> rfl

/-- Behind a label and whitespace its separator is next. -/
theorem read_label_separator {l : String} (h : IsLabel l) (separator : Separator) (r : List Char) :
    (call .label).read (Rendering.label l ++ (L.gap ++ separator.char :: r)) =
        .value l (L.gap ++ separator.char :: r) ∧
      whitespace.read (L.gap ++ separator.char :: r) = .value () (separator.char :: r) :=
  ⟨read_label h _, (readBy_whitespace_blank L.blank _).trans
    (readBy_whitespace_tight (tight_separator separator r))⟩

/-- Behind the separator there is whitespace, and then the source of the value. -/
theorem leads_behind_separator {s : Source} {v t : List Char} (h : Leads (L.source s ++ t) v) :
    whitespace.read (' ' :: (L.gap ++ (L.source s ++ t))) = .value () v ∧
      whitespace1.read (' ' :: (L.gap ++ (L.source s ++ t))) = .value () v := by
  have hspace : whitespace.read (' ' :: (L.gap ++ (L.source s ++ t))) = .value () v :=
    (h.behind_blank (.space L.blank)).space
  refine ⟨hspace, ?_⟩
  have hstarts : Whitespace.starts (' ' :: (L.gap ++ (L.source s ++ t))) = true := rfl
  simp only [whitespace1, Grammar.read, readBy_bind, readBy_look, Reading.bind_value, hstarts,
    if_true]
  exact hspace

theorem isEntry_field {f : Field} {separators : List String}
    (h : ∀ r, (expectAny separators).read (f.separator.char :: r) =
      .value (String.singleton f.separator.char) r) :
    IsEntry (recordEntry separators) (L.field f)
      (f.label, String.singleton f.separator.char, f.source.value) := by
  intro t ht
  obtain ⟨v, u, hv, hread, hspace⟩ := L.isEntry_source f.source t ht
  have hshape : L.field f ++ t = Rendering.label f.label ++ (L.gap ++ f.separator.char ::
      ' ' :: (L.gap ++ (L.source f.source ++ t))) := by
    simp [field, labelled]
  obtain ⟨hlabel, hgap⟩ := L.read_label_separator f.isLabel f.separator
    (' ' :: (L.gap ++ (L.source f.source ++ t)))
  obtain ⟨hbehind, hbehind1⟩ := L.leads_behind_separator hv
  rw [hshape]
  refine ⟨_, u, ⟨readBy_whitespace_tight (by rfl), rfl⟩, ?_, hspace⟩
  simp only [recordEntry, readBy_bind, hlabel, hgap, h, Reading.bind_value]
  split
  · simp only [readBy_bind, hbehind1, Reading.bind_value, hread, readBy_pure]
  · simp only [readBy_bind, hbehind, Reading.bind_value, hread, readBy_pure]

theorem isEntry_alternative (a : Alternative) :
    IsEntry unionAlternative (L.alternative a) a.entry := by
  obtain ⟨l, hl, type⟩ := a
  intro t ht
  cases type with
  | none =>
    obtain ⟨v, u, hv, hread, hspace⟩ := L.isEntry_projected hl t ht
    have hcolon : colon.read u = .mismatch := by
      have hhead : t.head?.any (· == ':') = false := ht.head (by decide)
      have hexpect : (expect ":").read t = .mismatch := beginsWith_expect ":" (by decide) t hhead
      simp only [colon, readBy_bind, hspace, hexpect, Reading.bind_value, Reading.bind_mismatch]
    refine ⟨v, u, hv, ?_, hspace⟩
    simp only [unionAlternative, readBy_bind, hread, Reading.bind_value, readBy_optional?, hcolon,
      Reading.bind_mismatch, Reading.orElse_mismatch, readBy_pure]
    rfl
  | some s =>
    obtain ⟨v, u, hv, hread, hspace⟩ := L.isEntry_source s t ht
    have hshape : L.labelled l .colon s ++ t =
        Rendering.label l ++ (L.gap ++ ':' :: ' ' :: (L.gap ++ (L.source s ++ t))) := by
      simp [labelled, Separator.char]
    have hlabel := L.read_label_separator hl .colon (' ' :: (L.gap ++ (L.source s ++ t)))
    rw [Separator.char] at hlabel
    have hcolon : colon.read (L.gap ++ ':' :: ' ' :: (L.gap ++ (L.source s ++ t))) =
        .value () v := by
      have hexpect : ∀ r, (expect ":").read (':' :: r) = .value () r := fun _ => rfl
      simp only [colon, readBy_bind, hlabel.2, hexpect, Reading.bind_value,
        (L.leads_behind_separator hv).2]
    rw [alternative, hshape]
    refine ⟨_, u, ⟨readBy_whitespace_tight (by rfl), rfl⟩, ?_, hspace⟩
    simp only [unionAlternative, readBy_bind, hlabel.1, Reading.bind_value, readBy_optional?,
      hcolon, hread, Reading.orElse_value, readBy_pure]
    rfl

/-! ## Reading collections -/

theorem intercalate_cons (sep text : List Char) (texts : List (List Char)) :
    sep.intercalate (text :: texts) = text ++ texts.flatMap (sep ++ ·) := by
  induction texts generalizing text with
  | nil => simp [List.intercalate]
  | cons text' texts ih =>
    rw [List.intercalate_cons_cons, ih, List.flatMap_cons]
    simp only [List.append_assoc]

variable {α : Type} {literal : String} {opening mark closing : Char} {text : List Char}
  {texts : List (List Char)}

/-- What is behind the whitespace and the mark that the first entry may have in front of it. -/
abbrev behindFirst (L : Layout) (mark closing : Char) (text : List Char)
    (texts : List (List Char)) : List Char :=
  text ++ (marked mark L.gap texts ++ (optionalMark mark L.gap L.trailing ++ [closing]))

theorem enclose_cons : L.enclose opening mark closing (text :: texts) = opening ::
    (L.gap ++ (optionalMark mark L.gap L.leading ++ L.behindFirst mark closing text texts)) := by
  rw [enclose, intercalate_cons, List.append_assoc]
  rfl

/-- A mark in front of the first entry is left out. -/
theorem read_behind_opening (hd : Delimits literal mark closing) {x v : List Char} (hx : Leads x v)
    (next : Grammar α) :
    (do
      whitespace
      if ← accept literal then whitespace
      next : Grammar α).read (L.gap ++ (optionalMark mark L.gap L.leading ++ x)) = next.read v := by
  have hgap := (hx.behind_blank L.blank).space
  have hnone := hx.head.accept_false hd.noMark
  cases L.leading with
  | false =>
    have hfront : optionalMark mark L.gap false ++ x = x := rfl
    simp only [hfront, readBy_bind, hgap, hnone, Reading.bind_value, Bool.false_eq_true, if_false]
  | true =>
    have hfront : optionalMark mark L.gap true ++ x = mark :: (L.gap ++ x) := rfl
    have hmark : whitespace.read (L.gap ++ mark :: (L.gap ++ x)) =
        .value () (mark :: (L.gap ++ x)) :=
      (readBy_whitespace_blank L.blank _).trans (readBy_whitespace_tight (hd.tight_mark _))
    simp only [hfront, readBy_bind, hmark, hd.accept_mark, hgap, Reading.bind_value, if_true]

/-! ### Records -/

theorem read_expect_brace (r : List Char) : (expect "\x7b").read ('{' :: r) = .value () r ∧
    (expect "\x7d").read ('}' :: r) = .value () r := ⟨rfl, rfl⟩

theorem allowed_separator (separator : Separator) : ∀ separators ∈ [[":", "="],
      [String.singleton separator.char]],
    ∀ r, (expectAny separators).read (separator.char :: r) =
      .value (String.singleton separator.char) r := by
  simp only [List.forall_mem_cons]
  cases separator <;> exact ⟨fun r => rfl, fun r => rfl, fun _ h => nomatch h⟩

/-- A further entry of a record with the separator of the first one. -/
abbrev furtherField (separator : Separator) : Grammar (String × Option Expr) := do
  let (label, _, value) ← recordEntry [String.singleton separator.char]
  return (label, some value)

theorem isEntry_furtherField (f : Field) :
    IsEntry (furtherField f.separator) (L.field f) f.entry := by
  intro t ht
  have hallowed := allowed_separator f.separator [String.singleton f.separator.char] (by simp)
  obtain ⟨v, u, hv, hread, hspace⟩ := L.isEntry_field hallowed t ht
  refine ⟨v, u, hv, ?_, hspace⟩
  simp only [furtherField, readBy_bind, hread, Reading.bind_value, readBy_pure]
  rfl

/-- A record is read as its first entry, and the further ones behind it. -/
theorem read_recordExpression (first : Field) {x : List Char} (hx : EndsEntry x) :
    ∃ u, whitespace.read u = .value () x ∧
      Rule.recordExpression.read ('{' :: (L.gap ++ (optionalMark ',' L.gap L.leading ++
        (L.field first ++ x)))) =
        ((furtherEntries "," '}' (furtherField first.separator)).read u).bind fun rest s =>
          ((expect "\x7d").read s).bind fun _ s =>
            .value (first.separator.record (first.entry :: rest)) s := by
  have hallowed := allowed_separator first.separator [":", "="] (by simp)
  obtain ⟨v, u, hv, hread, hspace⟩ := L.isEntry_field hallowed x hx
  refine ⟨u, hspace, ?_⟩
  have hopen : ∀ r, Rule.recordExpression.read ('{' :: r) = (do
      whitespace
      if ← accept "," then whitespace
      Seam.recordBody : Grammar Expr).read r := fun r => Rule.read_eq .recordExpression _
  have hequals : (accept "=").read v = .value false v := hv.head.accept_false (by decide)
  have hclose : (accept "\x7d").read v = .value false v := hv.head.accept_false (by decide)
  rw [hopen, L.read_behind_opening delimits_record hv]
  simp only [Seam.recordBody, readBy_bind, hequals, hclose, Reading.bind_value, Bool.false_eq_true,
    if_false, recordEntries, hread, readBy_pure]
  cases first.separator <;> rfl

/-- Nothing but a record begins with a brace. -/
theorem read_primitiveExpression_brace {s : List Char} (hs : s.head? = some '{')
    (h : Rule.recordExpression.read s = .mismatch) :
    Rule.primitiveExpression.read s = .mismatch := by
  have hmisses := Rule.read_of_head hs
  have hhead : s.head?.any (· == '(') = false := by rw [hs]; rfl
  have hexpect : (expect "(").read s = .mismatch := beginsWith_expect "(" (by decide) s hhead
  have hparenthesis : parenthesized.read s = .mismatch := by
    simp only [parenthesized, readBy_bind, hexpect, Reading.bind_mismatch]
  rw [read_primitiveExpression, hmisses .doubleLiteral rfl, hmisses .naturalLiteral rfl,
    hmisses .integerLiteral rfl, hmisses .textLiteral rfl, h, hmisses .unionType rfl,
    hmisses .listLiteral rfl, hmisses .identifier rfl, hparenthesis]
  rfl

/-- What is behind the first entry of a record and the mark in front of it. -/
theorem record_cons (first : Field) (rest : List Field) : L.record (first :: rest) =
    '{' :: (L.gap ++ (optionalMark ',' L.gap L.leading ++ (L.field first ++
      (marked ',' L.gap (rest.map L.field) ++ (optionalMark ',' L.gap L.trailing ++ ['}']))))) :=
  L.enclose_cons

/-- What is behind an opening brace does not make it the opening of a comment. -/
theorem tight_brace {x : List Char} (hx : x.head? ≠ some '-') :
    Tight ('{' :: (L.gap ++ (optionalMark ',' L.gap L.leading ++ x))) := by
  refine Whitespace.tight_of_second (.inr rfl) fun hdash => ?_
  have hnoDash := L.noDash
  cases hgap : L.gap with
  | nil =>
    cases hl : L.leading with
    | false =>
      rw [hgap, hl] at hdash
      exact hx hdash
    | true =>
      rw [hgap, hl] at hdash
      cases hdash
  | cons c gap =>
    rw [hgap] at hdash hnoDash
    exact hnoDash hdash

theorem read_record (first : Field) (rest : List Field)
    (h : ∀ f ∈ rest, f.separator = first.separator) :
    Rule.recordExpression.read (L.record (first :: rest)) =
      .value (first.separator.record ((first :: rest).map Field.entry)) [] := by
  have hentries : ∀ f ∈ rest, IsEntry (furtherField first.separator) (L.field f) f.entry :=
    fun f hf => h f hf ▸ L.isEntry_furtherField f
  have hlast := ends_last delimits_record L.blank L.trailing []
  obtain ⟨u, hspace, hrecord⟩ :=
    L.read_recordExpression first (delimits_record.ends_marked L.blank hentries hlast)
  have hfurther := read_furtherEntries_marked delimits_record L.blank hentries L.trailing hspace
  rw [record_cons, hrecord, hfurther]
  simp only [Reading.bind_value, (read_expect_brace []).2, List.map_cons]

/-- A field with another separator than the first one has. -/
theorem read_record_mismatch (first : Field) (before after : List Field) (bad : Field)
    (h : ∀ f ∈ before, f.separator = first.separator) (hbad : bad.separator ≠ first.separator) :
    Rule.recordExpression.read (L.record (first :: (before ++ bad :: after))) = .mismatch := by
  have hentries : ∀ f ∈ before, IsEntry (furtherField first.separator) (L.field f) f.entry :=
    fun f hf => h f hf ▸ L.isEntry_furtherField f
  let more := marked ',' L.gap (after.map L.field) ++ (optionalMark ',' L.gap L.trailing ++ ['}'])
  have hleads : Leads (L.field bad ++ more) (L.field bad ++ more) :=
    ⟨readBy_whitespace_tight (by rfl), rfl⟩
  have hshape : marked ',' L.gap ((before ++ bad :: after).map L.field) ++
      (optionalMark ',' L.gap L.trailing ++ ['}']) =
        marked ',' L.gap (before.map L.field) ++ ',' :: (L.gap ++ (L.field bad ++ more)) := by
    simp [marked, more]
  have hmiss : (furtherField first.separator).read (L.field bad ++ more) = .mismatch := by
    have htext : L.field bad ++ more = Rendering.label bad.label ++ (L.gap ++ bad.separator.char ::
        ' ' :: (L.gap ++ (L.source bad.source ++ more))) := by
      simp [field, labelled]
    obtain ⟨hlabel, hgap⟩ := L.read_label_separator bad.isLabel bad.separator
      (' ' :: (L.gap ++ (L.source bad.source ++ more)))
    have hother : ∀ r, (expectAny [String.singleton first.separator.char]).read
        (bad.separator.char :: r) = .mismatch := by
      cases hf : first.separator <;> cases hb : bad.separator
      · exact absurd (hb.trans hf.symm) hbad
      · exact fun r => rfl
      · exact fun r => rfl
      · exact absurd (hb.trans hf.symm) hbad
    rw [htext]
    simp only [furtherField, recordEntry, readBy_bind, hlabel, hgap, hother, Reading.bind_value,
      Reading.bind_mismatch]
  have hbehind := (hleads.behind_blank L.blank).head_ne_bar
  obtain ⟨u, hspace, hrecord⟩ := L.read_recordExpression first
    (delimits_record.ends_marked L.blank hentries (delimits_record.ends_mark hbehind))
  have hfurther := read_furtherEntries_mismatch delimits_record L.blank hentries hleads hmiss hspace
  rw [record_cons, hshape, hrecord, hfurther, Reading.bind_mismatch]

/-! ### Unions, lists and projections -/

theorem delimits_union : Delimits "|" '|' '>' where
  toSeparates := separates_union
  marks := .inr rfl
  closes := by decide

theorem delimits_list : Delimits "," ',' ']' where
  toSeparates := separates_list
  marks := .inl rfl
  closes := by decide

theorem read_union (first : Alternative) (rest : List Alternative) :
    Rule.unionType.read (L.union (first :: rest)) =
      .value (.union ((first :: rest).map Alternative.entry)) [] := by
  have hentries : ∀ a ∈ rest, IsEntry unionAlternative (L.alternative a) a.entry :=
    fun a _ => L.isEntry_alternative a
  have hlast := ends_last delimits_union L.blank L.trailing []
  obtain ⟨v, u, hv, hread, hspace⟩ :=
    L.isEntry_alternative first _ (delimits_union.ends_marked L.blank hentries hlast)
  have hfurther := read_furtherEntries_marked delimits_union L.blank hentries L.trailing hspace
  have hopen : ∀ r, Rule.unionType.read ('<' :: r) = (do
      whitespace
      if ← accept "|" then whitespace
      let alternatives ← unionAlternatives
      expect ">"
      return .union alternatives : Grammar Expr).read r := fun r => Rule.read_eq .unionType _
  have hclose : (expect ">").read ['>'] = .value () [] := rfl
  have hpeek : (v.head? == some '>') = false := beq_false_of_ne (hv.head.head_ne (by decide))
  rw [union, List.map_cons, enclose_cons, hopen, L.read_behind_opening delimits_union hv]
  simp only [unionAlternatives, readBy_bind, readBy_peek, hpeek, Bool.false_eq_true, if_false,
    hread, hfurther, hclose, Reading.bind_value, readBy_pure, List.map_cons]

theorem read_list (first : Source) (rest : List Source) :
    Rule.listLiteral.read (L.list (first :: rest)) =
        .value (.list ((first :: rest).map Source.value)) [] ∧
      Rule.emptyListExpression.read (L.list (first :: rest)) = .mismatch := by
  have hentries : ∀ s ∈ rest, IsEntry (call .expression) (L.source s) s.value :=
    fun s _ => L.isEntry_source s
  have hlast := ends_last delimits_list L.blank L.trailing []
  obtain ⟨v, u, hv, hread, hspace⟩ :=
    L.isEntry_source first _ (delimits_list.ends_marked L.blank hentries hlast)
  have hfurther := read_furtherEntries_marked delimits_list L.blank hentries L.trailing hspace
  have hopen : ∀ r, Rule.listLiteral.read ('[' :: r) = (do
      whitespace
      if ← accept "," then whitespace
      let first ← call .expression
      let rest ← furtherEntries "," ']' (call .expression)
      expect "]"
      return .list (first :: rest) : Grammar Expr).read r := fun r => Rule.read_eq .listLiteral _
  have hclose : (expect "]").read [']'] = .value () [] := rfl
  constructor
  · rw [list, List.map_cons, enclose_cons, hopen, L.read_behind_opening delimits_list hv]
    simp only [readBy_bind, hread, hfurther, hclose, Reading.bind_value, readBy_pure, List.map_cons]
  · -- The brackets of an empty list are closed at once.
    obtain ⟨w, hw, hne⟩ : ∃ w, whitespace.read (L.gap ++ (optionalMark ',' L.gap L.leading ++
        L.behindFirst ',' ']' (L.source first) (rest.map L.source))) = .value () w ∧
          w.head?.any (· == ']') = false := by
      cases L.leading with
      | false =>
        have hhead : v.head? ≠ some ']' := hv.head.head_ne (by decide)
        refine ⟨v, (hv.behind_blank L.blank).space, ?_⟩
        cases v with
        | nil => rfl
        | cons c v => exact beq_false_of_ne fun he => hhead (congrArg some he)
      | true =>
        exact ⟨_, (readBy_whitespace_blank L.blank _).trans
          (readBy_whitespace_tight (delimits_list.tight_mark _)), rfl⟩
    have hbracket : ∀ r, (expect "[").read ('[' :: r) = .value () r := fun _ => rfl
    have hnot : (expect "]").read w = .mismatch := beginsWith_expect "]" (by decide) w hne
    rw [list, List.map_cons, enclose_cons, Rule.read_eq]
    simp only [Rule.body, emptyListExpression, readBy_bind, hbracket, hw, hnot, Reading.bind_value,
      Reading.bind_mismatch]

theorem read_source_parenthesis (s : Source) (r : List Char) :
    completeExpression.read (L.source s ++ ')' :: r) = .value s.value (')' :: r) := by
  obtain ⟨v, u, hv, hread, hspace⟩ :=
    L.isEntry_source s (')' :: r) (.closing (by decide) r)
  simp only [completeExpression, readBy_bind, hv.space, hread, hspace, Reading.bind_value,
    readBy_pure]

theorem read_projection_labels {first : String} {rest : List String}
    (h : ∀ l ∈ first :: rest, IsLabel l) :
    selector.read ('.' :: L.enclose '{' ',' '}' ((first :: rest).map L.label)) =
      .value (.labels (first :: rest)) [] := by
  obtain ⟨hfirst, hrest⟩ := List.forall_mem_cons.mp h
  have hentries : ∀ l ∈ rest, IsEntry (call .label) (L.label l) l :=
    fun l hl => L.isEntry_projected (hrest l hl)
  have hlast := ends_last delimits_record L.blank L.trailing []
  obtain ⟨v, u, hv, hread, hspace⟩ :=
    L.isEntry_projected hfirst _ (delimits_record.ends_marked L.blank hentries hlast)
  have htight : Tight ('{' :: (L.gap ++ (optionalMark ',' L.gap L.leading ++
      L.behindFirst ',' '}' (L.label first) (rest.map L.label)))) :=
    L.tight_brace (by simp [label, Rendering.label])
  have hlabels : projectionLabels.read (L.gap ++ (optionalMark ',' L.gap L.leading ++
      L.behindFirst ',' '}' (L.label first) (rest.map L.label))) = .value (first :: rest) [] := by
    have hrounds := iterates_projection L.blank L.trailing hentries hv.head hread hspace []
    rw [List.append_nil] at hrounds
    have hclose := (read_expect_brace []).2
    have hbehind := L.read_behind_opening delimits_record hv (do
      let labels ← iterate [] projectionStep
      expect "\x7d"
      return labels.reverse : Grammar (List String))
    refine hbehind.trans ?_
    simp only [readBy_bind]
    refine (congrArg (Reading.bind · _) (readBy_iterate hrounds)).trans ?_
    simp only [Reading.bind_value, hclose, readBy_pure, List.reverse_reverse]
  have hdot : ∀ r, whitespace.read ('.' :: r) = .value () ('.' :: r) ∧
      (expect ".").read ('.' :: r) = .value () r := fun r => ⟨readBy_whitespace_tight (by rfl), rfl⟩
  have hbrace : ∀ r, (accept "\x7b").read ('{' :: r) = .value true r := fun _ => rfl
  rw [List.map_cons, enclose_cons]
  simp only [selector, readBy_bind, (hdot _).1, (hdot _).2, readBy_whitespace_tight htight, hbrace,
    hlabels, Reading.bind_value, if_true, readBy_pure]

/-- A selection out of a source in parentheses is read as a whole. -/
theorem read_selection (s : Source) {x : List Char} {selected : Selector}
    (h : selector.read x = .value selected []) (hx : x ≠ []) :
    Rule.expression.read ('(' :: (L.source s ++ ')' :: x)) =
      .value (selected.apply s.value) [] := by
  have hopen : ∀ r, (expect "(").read ('(' :: r) = .value () r := fun _ => rfl
  have hclose : (expect ")").read (')' :: x) = .value () x := rfl
  have hgroup : parenthesized.read ('(' :: (L.source s ++ ')' :: x)) = .value s.value x := by
    simp only [parenthesized, readBy_bind, hopen, L.read_source_parenthesis s x, hclose,
      Reading.bind_value, readBy_pure]
  have hrecord : (call .primitiveExpression).read ('(' :: (L.source s ++ ')' :: x)) =
      .value s.value x :=
    (read_primitiveExpression_parenthesis _).trans (by rw [hgroup]; rfl)
  have hplain : PlainStart ('(' :: (L.source s ++ ')' :: x)) := plainStart_of_first rfl
  have hends := endsExpression_nil
  have hselector : Rule.selectorExpression.read ('(' :: (L.source s ++ ')' :: x)) =
      .value (selected.apply s.value) [] := by
    rw [Rule.read_eq]
    simp only [Rule.body, selectorExpression, readBy_bind, hrecord, Reading.bind_value]
    exact readBy_foldMany (.some h (List.length_pos_iff.mpr hx)
      (.none _ _ hends.operation.application.operand))
  exact read_expression_operator hplain.noForm (read_operatorExpression
    (read_applicationExpression (read_firstApplicationExpression hplain.noWord
      (read_importExpression_selector hplain.noImport hselector)) hends.operation.application)
    hends.operation) hends

/-! ## Parsing collections -/

/-- What is read as an expression up to the end of a source is what it is parsed as. -/
theorem parsesAs_of_expression {s : List Char} {e : Expr} (hs : Tight s)
    (h : Rule.expression.read s = .value e []) :
    ParsesAs (String.ofList s) (· = .ok e) := by
  apply parsesAs_of_read
  have h : (call .expression).read s = .value e [] := h
  have hnil : whitespace.read [] = .value () [] := readBy_whitespace_tight rfl
  rw [String.toList_ofList]
  simp only [completeExpression, readBy_bind, readBy_whitespace_tight hs, h, hnil,
    Reading.bind_value, readBy_pure]

theorem parsesAs_of_expression_mismatch {s : List Char} (hs : Tight s)
    (h : Rule.expression.read s = .mismatch) : ParsesAs (String.ofList s) IsMismatch := by
  apply parsesAs_of_read_mismatch
  have h : (call .expression).read s = .mismatch := h
  rw [String.toList_ofList]
  simp only [completeExpression, readBy_bind, readBy_whitespace_tight hs, h, Reading.bind_value,
    Reading.bind_mismatch]

theorem parse_record (first : Field) (rest : List Field)
    (h : ∀ f ∈ rest, f.separator = first.separator) :
    ParsesAs (String.ofList (L.record (first :: rest)))
      (· = .ok (first.separator.record ((first :: rest).map Field.entry))) := by
  refine parsesAs_of_expression ?_ (read_expression_plain (plainStart_of_first rfl)
    (read_primitiveExpression_record rfl (L.read_record first rest h)) endsExpression_nil)
  rw [record_cons]
  exact L.tight_brace (by simp [field, labelled, Rendering.label])

theorem parse_record_mismatch (first : Field) (rest : List Field)
    (h : ∃ f ∈ rest, f.separator ≠ first.separator) :
    ParsesAs (String.ofList (L.record (first :: rest))) IsMismatch := by
  -- The first field with another separator decides.
  obtain ⟨f, hf, hne⟩ := h
  have hsome : (rest.find? fun f => decide (f.separator ≠ first.separator)).isSome :=
    List.find?_isSome.mpr ⟨f, hf, decide_eq_true hne⟩
  obtain ⟨bad, hfind⟩ := Option.isSome_iff_exists.mp hsome
  obtain ⟨hbad, before, after, rfl, hbefore⟩ := List.find?_eq_some_iff_append.mp hfind
  have hsame : ∀ f ∈ before, f.separator = first.separator := by
    intro f hf
    simpa using hbefore f hf
  have hrecord := L.read_record_mismatch first before after bad hsame (of_decide_eq_true hbad)
  refine parsesAs_of_expression_mismatch ?_ (read_expression_plain_mismatch
    (plainStart_of_first rfl) (read_primitiveExpression_brace rfl hrecord))
  rw [record_cons]
  exact L.tight_brace (by simp [field, labelled, Rendering.label])

theorem parse_union (first : Alternative) (rest : List Alternative) :
    ParsesAs (String.ofList (L.union (first :: rest)))
      (· = .ok (.union ((first :: rest).map Alternative.entry))) :=
  parsesAs_of_expression rfl (read_expression_plain (plainStart_of_first rfl)
    (read_primitiveExpression_union rfl (L.read_union first rest)) endsExpression_nil)

theorem parse_list (first : Source) (rest : List Source) :
    ParsesAs (String.ofList (L.list (first :: rest)))
      (· = .ok (.list ((first :: rest).map Source.value))) := by
  obtain ⟨hlist, hempty⟩ := L.read_list first rest
  have hmisses := Rule.read_of_head (by rfl : (L.list (first :: rest)).head? = some '[')
  have hplain : PlainStart (L.list (first :: rest)) :=
    { noImport := hmisses .importClause rfl
      noWord := noApplicationWord_of_first rfl
      noForm :=
        { lambda := hmisses .lambdaExpression rfl
          conditional := hmisses .ifExpression rfl
          letIn := hmisses .letExpression rfl
          pi := hmisses .forallExpression rfl
          merge := hmisses .mergeExpression rfl
          emptyList := hempty
          toMap := hmisses .toMapExpression rfl } }
  refine parsesAs_of_expression rfl (read_expression_plain hplain ?_ endsExpression_nil)
  rw [read_primitiveExpression, hmisses .doubleLiteral rfl, hmisses .naturalLiteral rfl,
    hmisses .integerLiteral rfl, hmisses .textLiteral rfl, hmisses .recordExpression rfl,
    hmisses .unionType rfl, hlist]
  rfl

theorem parse_projection (s : Source) (first : String) (rest : List String)
    (h : ∀ l ∈ first :: rest, IsLabel l) :
    ParsesAs (String.ofList (L.projection s (first :: rest)))
      (· = .ok (.projection s.value (first :: rest))) :=
  parsesAs_of_expression rfl
    (L.read_selection s (L.read_projection_labels h) (List.cons_ne_nil _ _))

end Layout

/-- A collection has all of the entries that it is written with in their order, the repeated ones
too, whatever they are and whether or not a mark is in front of the first one and behind the last
one. A record with different separators is refused. -/
theorem entries_in_order (L : Layout) :
    (∀ fields : List Field, fields ≠ [] → ∀ separator, (∀ f ∈ fields, f.separator = separator) →
      ParsesAs (String.ofList (L.record fields))
        (· = .ok (separator.record (fields.map Field.entry)))) ∧
    (∀ (first : Field) (rest : List Field), (∃ f ∈ rest, f.separator ≠ first.separator) →
      ParsesAs (String.ofList (L.record (first :: rest))) IsMismatch) ∧
    (∀ alternatives : List Alternative, alternatives ≠ [] →
      ParsesAs (String.ofList (L.union alternatives))
        (· = .ok (.union (alternatives.map Alternative.entry)))) ∧
    (∀ elements : List Source, elements ≠ [] →
      ParsesAs (String.ofList (L.list elements)) (· = .ok (.list (elements.map Source.value)))) ∧
    ∀ (record : Source) (labels : List String), labels ≠ [] → (∀ l ∈ labels, IsLabel l) →
      ParsesAs (String.ofList (L.projection record labels))
        (· = .ok (.projection record.value labels)) := by
  refine ⟨fun fields hne separator hall => ?_, L.parse_record_mismatch, fun alternatives hne => ?_,
    fun elements hne => ?_, fun record labels hne hlabels => ?_⟩
  · obtain ⟨first, rest, rfl⟩ := List.exists_cons_of_ne_nil hne
    obtain ⟨rfl, hrest⟩ := List.forall_mem_cons.mp hall
    exact L.parse_record first rest hrest
  · obtain ⟨first, rest, rfl⟩ := List.exists_cons_of_ne_nil hne
    exact L.parse_union first rest
  · obtain ⟨first, rest, rfl⟩ := List.exists_cons_of_ne_nil hne
    exact L.parse_list first rest
  · obtain ⟨first, rest, rfl⟩ := List.exists_cons_of_ne_nil hne
    exact L.parse_projection record first rest hlabels

/-- A label that stands twice, and a source that ends with a comment. -/
theorem entries_in_order_repeated :
    ParsesAs "\x7b , \x60a\x60 =  1 -- b\n , \x60a\x60 =  x\n , \x7d"
      (· = .ok (.record [("a", some (.natural 1)), ("a", some (.variable "x" 0))])) ∧
    ParsesAs "\x7b , \x60a\x60 =  1 -- b\n , \x60a\x60 :  x\n , \x7d" IsMismatch ∧
    ParsesAs "< \x60a\x60\n | \x60a\x60 :  x\n | \x60\x60\n >"
      (· = .ok (.union [("a", none), ("a", some (.variable "x" 0)), ("", none)])) ∧
    ParsesAs "[ 1 -- b\n , x\n , 1 -- b\n ]"
      (· = .ok (.list [.natural 1, .variable "x" 0, .natural 1])) ∧
    ParsesAs "(1 -- b\n ).\x7b , \x60a\x60\n , \x60a\x60\n , \x7d"
      (· = .ok (.projection (.natural 1) ["a", "a"])) := by
  let one : Source := ⟨"1 -- b", .natural 1, .standard, eq_ok_of_toOption (by decide +kernel)⟩
  let x : Source := ⟨"x", .variable "x" 0, .standard, eq_ok_of_toOption (by decide +kernel)⟩
  let bare : Layout := ⟨[' '], .space .nil, by decide, false, false⟩
  let full : Layout := ⟨[' '], .space .nil, by decide, true, true⟩
  obtain ⟨hrecord, hmismatch, -, -, hprojection⟩ := entries_in_order full
  obtain ⟨-, -, hunion, hlist, -⟩ := entries_in_order bare
  let twice (separator : Separator) : List Field :=
    [⟨"a", by decide, .equals, one⟩, ⟨"a", by decide, separator, x⟩]
  let alternatives : List Alternative :=
    [⟨"a", by decide, none⟩, ⟨"a", by decide, some x⟩, ⟨"", by decide, none⟩]
  refine ⟨?_, ?_, ?_, ?_, ?_⟩
  · have htext : String.ofList (full.record (twice .equals)) =
        "\x7b , \x60a\x60 =  1 -- b\n , \x60a\x60 =  x\n , \x7d" := by decide +kernel
    exact htext ▸ hrecord (twice .equals) (by simp [twice]) .equals (by simp [twice])
  · have htext : String.ofList (full.record (twice .colon)) =
        "\x7b , \x60a\x60 =  1 -- b\n , \x60a\x60 :  x\n , \x7d" := by decide +kernel
    exact htext ▸ hmismatch ⟨"a", by decide, .equals, one⟩ [⟨"a", by decide, .colon, x⟩] (by simp)
  · have htext : String.ofList (bare.union alternatives) =
        "< \x60a\x60\n | \x60a\x60 :  x\n | \x60\x60\n >" := by decide +kernel
    exact htext ▸ hunion alternatives (by simp [alternatives])
  · have htext : String.ofList (bare.list [one, x, one]) = "[ 1 -- b\n , x\n , 1 -- b\n ]" := by
      decide +kernel
    exact htext ▸ hlist [one, x, one] (by simp)
  · have htext : String.ofList (full.projection one ["a", "a"]) =
        "(1 -- b\n ).\x7b , \x60a\x60\n , \x60a\x60\n , \x7d" := by decide +kernel
    exact htext ▸ hprojection one ["a", "a"] (by simp) (by decide)

end Collection

end DhallSyntax
