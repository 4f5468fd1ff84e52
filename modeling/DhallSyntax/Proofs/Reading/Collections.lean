import DhallSyntax.Proofs.Reading.Forms

/-!
Written lists, records, unions and projections are read back if what is in them is. All of them
hold entries between an opening and a closing character, with a mark between any two.
-/

namespace DhallSyntax

open Grammar
open Reading (Iterates)
open Rendering (grouped word)
open Whitespace (Tight)

variable {a : List Char} {x : Expr}

/-! ## Entries -/

/-- What follows an entry: a mark, or the character that closes the collection. -/
inductive Follows (mark closing : Char) : List Char → Prop where
  | mark (r : List Char) : Follows mark closing (' ' :: mark :: ' ' :: r)
  | closing (r : List Char) : Follows mark closing (' ' :: closing :: r)

/-- The text of an entry is read as its value, whatever follows entries. -/
structure WritesEntry {α : Type} (entry : Grammar α) (mark closing : Char) (cs : List Char)
    (value : α) : Prop where
  tight : ∀ t, Tight (cs ++ t)
  opens : ∀ t, (cs ++ t).head? ≠ some closing
  read : ∀ t, Follows mark closing t → entry.read (cs ++ t) = .value value t

/-- The text of the entries behind the first one, each with its mark in front. -/
def furtherText (mark : Char) (texts : List (List Char)) : List Char :=
  texts.flatMap fun cs => ' ' :: mark :: ' ' :: cs

theorem separated_cons (mark : Char) (cs : List Char) (texts : List (List Char)) :
    Rendering.separated mark (cs :: texts) = cs ++ furtherText mark texts := by
  induction texts generalizing cs with
  | nil => simp [Rendering.separated, furtherText]
  | cons cs' texts ih => simp [Rendering.separated, ih, furtherText]

theorem enclosed_cons (opening mark closing : Char) (cs t : List Char)
    (texts : List (List Char)) :
    Rendering.enclosed opening mark closing (cs :: texts) ++ t =
      opening :: ' ' :: (cs ++ (furtherText mark texts ++ ' ' :: closing :: t)) := by
  simp [Rendering.enclosed, separated_cons]

theorem follows_further (mark closing : Char) (texts : List (List Char)) (t : List Char) :
    Follows mark closing (furtherText mark texts ++ ' ' :: closing :: t) := by
  cases texts with
  | nil => exact .closing t
  | cons cs texts =>
    have h : Follows mark closing
        (' ' :: mark :: ' ' :: (cs ++ (furtherText mark texts ++ ' ' :: closing :: t))) :=
      .mark _
    simpa [furtherText] using h

/-- A mark and a closing character that can be told apart, and from whitespace. -/
structure Separates (literal : String) (mark closing : Char) : Prop where
  literal_eq : literal.toList = [mark]
  ne : mark ≠ closing
  tight_mark : ∀ r, Tight (mark :: r)
  tight_closing : ∀ r, Tight (closing :: r)

theorem Separates.accept_mark {literal : String} {mark closing : Char}
    (h : Separates literal mark closing) (r : List Char) :
    (accept literal).read (mark :: r) = .value true r := by
  rw [Grammar.read, readBy_accept, h.literal_eq]
  simp

theorem Separates.accept_closing {literal : String} {mark closing : Char}
    (h : Separates literal mark closing) (r : List Char) :
    (accept literal).read (closing :: r) = .value false (closing :: r) := by
  rw [Grammar.read, readBy_accept, h.literal_eq]
  simp [h.ne]

theorem read_furtherEntries {α β : Type} {entry : Grammar α} {literal : String}
    {mark closing : Char} (hs : Separates literal mark closing) {text : β → List Char}
    {value : β → α} {entries : List β}
    (h : ∀ e ∈ entries, WritesEntry entry mark closing (text e) (value e)) (t : List Char) :
    (furtherEntries literal closing entry).read
      (furtherText mark (entries.map text) ++ ' ' :: closing :: t) =
        .value (entries.map value) (closing :: t) := by
  have hsteps : ∀ (entries : List β) (done : List α),
      (∀ e ∈ entries, WritesEntry entry mark closing (text e) (value e)) →
      (Grammar.iterate done fun values => do
        whitespace
        if ← accept literal then
          whitespace
          if (← peek) == some closing then return .inr values
          else return .inl ((← entry) :: values)
        else
          return .inr values : Grammar (List α)).read
        (furtherText mark (entries.map text) ++ ' ' :: closing :: t) =
          .value ((entries.map value).reverse ++ done) (closing :: t) := by
    intro entries done h
    refine readBy_iterate ?_
    induction entries generalizing done with
    | nil =>
      refine .last ?_
      simp only [List.map_nil, furtherText, List.flatMap_nil, List.nil_append, readBy_bind,
        readBy_whitespace_space (hs.tight_closing t), hs.accept_closing, Reading.bind_value,
        Bool.false_eq_true, if_false, readBy_pure, List.reverse_nil]
    | cons e entries ih =>
      obtain ⟨he, hrest⟩ := List.forall_mem_cons.mp h
      have hnext := ih (value e :: done) hrest
      have hread := he.read _ (follows_further mark closing (entries.map text) t)
      have hopens :
          ((text e ++ (furtherText mark (entries.map text) ++ ' ' :: closing :: t)).head?
            == some closing) = false := beq_false_of_ne (he.opens _)
      have hshape : furtherText mark ((e :: entries).map text) ++ ' ' :: closing :: t =
          ' ' :: mark :: ' ' ::
            (text e ++ (furtherText mark (entries.map text) ++ ' ' :: closing :: t)) := by
        simp [furtherText]
      rw [hshape, List.map_cons, List.reverse_cons, List.append_assoc, List.singleton_append]
      refine .next ?_ ?_ hnext
      · simp only [readBy_bind, readBy_whitespace_space (hs.tight_mark _), hs.accept_mark,
          Reading.bind_value, if_true, readBy_whitespace_space (he.tight _), readBy_peek, hopens,
          Bool.false_eq_true, if_false, hread, readBy_pure]
      · simp only [List.length_cons, List.length_append]
        omega
  have hentries := hsteps entries [] h
  rw [List.append_nil] at hentries
  simp only [furtherEntries, readBy_bind]
  refine (congrArg (Reading.bind · _) hentries).trans ?_
  simp only [Reading.bind_value, readBy_pure, List.reverse_reverse]

theorem Follows.ends {mark closing : Char} (hm : mark ∈ [',', '|'])
    (hc : closing ∈ [']', '}', '>']) {t : List Char} (h : Follows mark closing t) :
    EndsExpression t := by
  cases h with
  | mark r =>
    simp only [List.mem_cons, List.not_mem_nil, or_false] at hm
    obtain rfl | rfl := hm
    · exact endsExpression_closing (by decide) _
    · exact endsExpression_mark (by decide) r
  | closing r => exact endsExpression_closing ((by decide : [']', '}', '>'] ⊆ _) hc) r

/-! ## Lists -/

theorem separates_list : Separates "," ',' ']' := ⟨rfl, by decide, fun _ => rfl, fun _ => rfl⟩

theorem Writes.entry (h : Writes a x) :
    WritesEntry (call .expression) ',' ']' (grouped a) x where
  tight t := rfl
  opens t h := absurd (Option.some.inj h) (by decide)
  read t ht := h.read_expression (ht.ends (by decide) (by decide))

theorem listChars_eq_map (elements : List Expr) :
    Rendering.listChars elements = elements.map fun e => grouped (Rendering.chars e) := by
  induction elements with
  | nil => rfl
  | cons e elements ih => rw [Rendering.listChars, ih, List.map_cons]

theorem writes_list {elements : List Expr} (hne : elements ≠ [])
    (h : ∀ e ∈ elements, Writes (Rendering.chars e) e) :
    Writes (Rendering.enclosed '[' ',' ']' (Rendering.listChars elements)) (.list elements) := by
  obtain ⟨e, rest, rfl⟩ := List.exists_cons_of_ne_nil hne
  obtain ⟨he, hrest⟩ := List.forall_mem_cons.mp h
  refine ⟨fun t => rfl, fun t ht => ?_⟩
  rw [listChars_eq_map, List.map_cons, enclosed_cons]
  generalize htext : furtherText ',' (rest.map fun e => grouped (Rendering.chars e)) ++
    ' ' :: ']' :: t = further
  have hfirst : (call .expression).read (grouped (Rendering.chars e) ++ further) =
      .value e further :=
    he.entry.read further (htext ▸ follows_further _ _ _ _)
  have hfurther : (furtherEntries "," ']' (call .expression)).read further =
      .value rest (']' :: t) := by
    rw [← htext]
    exact (read_furtherEntries separates_list (fun e he => (hrest e he).entry) t).trans
      (by rw [List.map_id'])
  have hopen : ∀ s, (expect "[").read ('[' :: s) = .value () s := fun _ => rfl
  have hcomma : (accept ",").read (grouped (Rendering.chars e) ++ further) =
      .value false (grouped (Rendering.chars e) ++ further) := rfl
  have hclose : ∀ s, (expect "]").read (']' :: s) = .value () s := fun _ => rfl
  have hlist : Rule.listLiteral.read ('[' :: ' ' :: (grouped (Rendering.chars e) ++ further)) =
      .value (.list (e :: rest)) t := by
    rw [Rule.read_eq]
    simp only [Rule.body, listLiteral, readBy_bind, hopen, Reading.bind_value,
      readBy_whitespace_space (tight_grouped _ _), hcomma, Bool.false_eq_true, if_false,
      readBy_pure, hfirst, hfurther, hclose]
  have hmisses := Rule.read_of_head
    (by rfl : ('[' :: ' ' :: (grouped (Rendering.chars e) ++ further)).head? = some '[')
  -- An empty list would be closed at once.
  have hempty : Rule.emptyListExpression.read
      ('[' :: ' ' :: (grouped (Rendering.chars e) ++ further)) = .mismatch := by
    have hnot : (expect "]").read (grouped (Rendering.chars e) ++ further) = .mismatch := rfl
    rw [Rule.read_eq]
    simp only [Rule.body, emptyListExpression, readBy_bind, hopen, Reading.bind_value,
      readBy_whitespace_space (tight_grouped _ _), hnot, Reading.bind_mismatch]
  have hplain : PlainStart ('[' :: ' ' :: (grouped (Rendering.chars e) ++ further)) :=
    { noImport := hmisses .importClause rfl
      noWord := noApplicationWord_of_first rfl
      noForm :=
        { lambda := hmisses .lambdaExpression rfl
          conditional := hmisses .ifExpression rfl
          letIn := hmisses .letExpression rfl
          pi := hmisses .forallExpression rfl
          merge := hmisses .mergeExpression rfl
          emptyList := hempty
          toMap := hmisses .toMapExpression rfl } }
  refine read_expression_plain hplain ?_ ht.ends
  rw [read_primitiveExpression, hmisses .doubleLiteral rfl, hmisses .naturalLiteral rfl,
    hmisses .integerLiteral rfl, hmisses .textLiteral rfl, hmisses .recordExpression rfl,
    hmisses .unionType rfl, hlist]
  rfl

/-! ## Records -/

theorem separates_record : Separates "," ',' '}' := ⟨rfl, by decide, fun _ => rfl, fun _ => rfl⟩

/-- A field whose label and value are read back. -/
structure WritesField (f : String × Option Expr) : Prop where
  label : IsLabel f.1
  value : ∀ e, f.2 = some e → Writes (Rendering.chars e) e

theorem entriesChars_eq_map (separator : Char) (fields : List (String × Option Expr)) :
    Rendering.entriesChars separator fields =
      fields.map fun f => Rendering.entry separator f.1 (Rendering.optionChars f.2) := by
  induction fields with
  | nil => rfl
  | cons f fields ih => rw [Rendering.entriesChars, ih, List.map_cons]

/-- A label, a separator that is one of those allowed, and an expression. -/
theorem read_recordEntry {l : String} (hl : IsLabel l) (h : Writes a x) {separator : Char}
    (hspace : ∀ r, Tight (separator :: r)) {separators : List String}
    (hallowed : ∀ r, (expectAny separators).read (separator :: r) =
      .value (String.singleton separator) r) {t : List Char} (ht : EndsExpression t) :
    (recordEntry separators).read (Rendering.entry separator l (some a) ++ t) =
      .value (l, String.singleton separator, x) t := by
  have hshape : Rendering.entry separator l (some a) ++ t =
      Rendering.label l ++ ' ' :: separator :: ' ' :: (grouped a ++ t) := by
    simp only [Rendering.entry, List.append_assoc, List.cons_append]
  have hlabel : (call .label).read (Rendering.label l ++ ' ' :: separator :: ' ' ::
      (grouped a ++ t)) = .value l (' ' :: separator :: ' ' :: (grouped a ++ t)) :=
    read_label hl _
  have hvalue : (call .expression).read (grouped a ++ t) = .value x t := h.read_expression ht
  rw [hshape]
  simp only [recordEntry, readBy_bind, hlabel, readBy_whitespace_space (hspace _), hallowed,
    Reading.bind_value]
  split
  · simp only [readBy_bind, readBy_whitespace1_space (tight_grouped a t), Reading.bind_value,
      hvalue, readBy_pure]
  · simp only [readBy_bind, readBy_whitespace_space (tight_grouped a t), Reading.bind_value,
      hvalue, readBy_pure]

/-- What follows the first entry of a record has its separator. -/
theorem WritesField.entry {f : String × Option Expr} (h : WritesField f) (hf : f.2 ≠ none)
    {separator : Char} (hs : separator ∈ [':', '=']) :
    WritesEntry (do
        let (label, _, value) ← recordEntry [String.singleton separator]
        return (label, some value)) ',' '}'
      (Rendering.entry separator f.1 (Rendering.optionChars f.2)) f := by
  obtain ⟨l, value⟩ := f
  obtain ⟨e, rfl⟩ := Option.ne_none_iff_exists'.mp hf
  refine ⟨fun t => rfl, fun t h => absurd (Option.some.inj h) (by decide), fun t ht => ?_⟩
  simp only [List.mem_cons, List.not_mem_nil, or_false] at hs
  have hread : (recordEntry [String.singleton separator]).read
      (Rendering.entry separator l (some (Rendering.chars e)) ++ t) =
        .value (l, String.singleton separator, e) t := by
    refine read_recordEntry h.label (h.value e rfl) ?_ ?_ (ht.ends (by decide) (by decide))
    · obtain rfl | rfl := hs <;> exact fun _ => rfl
    · obtain rfl | rfl := hs <;> exact fun _ => rfl
  simp only [Rendering.optionChars, readBy_bind, hread, Reading.bind_value, readBy_pure]

/-- A record type or a record, as the separator says. -/
def recordOf (separator : Char) (fields : List (String × Option Expr)) : Expr :=
  if String.singleton separator == ":" then .recordType fields else .record fields

theorem read_primitiveExpression_record {s t : List Char} (hs : s.head? = some '{')
    (h : Rule.recordExpression.read s = .value x t) :
    Rule.primitiveExpression.read s = .value x t := by
  have hmisses := Rule.read_of_head hs
  rw [read_primitiveExpression, hmisses .doubleLiteral rfl, hmisses .naturalLiteral rfl,
    hmisses .integerLiteral rfl, hmisses .textLiteral rfl, h]
  rfl

theorem writes_fields {separator : Char} (hs : separator ∈ [':', '='])
    {fields : List (String × Option Expr)} (hne : fields ≠ []) (h : ∀ f ∈ fields, WritesField f)
    (hvalues : ∀ f ∈ fields, f.2 ≠ none) :
    Writes (Rendering.enclosed '{' ',' '}' (Rendering.entriesChars separator fields))
      (recordOf separator fields) := by
  obtain ⟨⟨l, value⟩, rest, rfl⟩ := List.exists_cons_of_ne_nil hne
  obtain ⟨hfirst, hrest⟩ := List.forall_mem_cons.mp h
  obtain ⟨hvalue, hothers⟩ := List.forall_mem_cons.mp hvalues
  obtain ⟨e, rfl⟩ := Option.ne_none_iff_exists'.mp hvalue
  refine ⟨fun t => rfl, fun t ht => ?_⟩
  rw [entriesChars_eq_map, List.map_cons, enclosed_cons]
  dsimp only [Rendering.optionChars]
  generalize htext : furtherText ',' (rest.map fun f =>
    Rendering.entry separator f.1 (Rendering.optionChars f.2)) ++ ' ' :: '}' :: t = further
  have hentry : (recordEntry [":", "="]).read
      (Rendering.entry separator l (some (Rendering.chars e)) ++ further) =
        .value (l, String.singleton separator, e) further := by
    have hfollows : Follows ',' '}' further := htext ▸ follows_further _ _ _ _
    simp only [List.mem_cons, List.not_mem_nil, or_false] at hs
    refine read_recordEntry hfirst.label (hfirst.value e rfl) ?_ ?_
      (hfollows.ends (by decide) (by decide))
    · obtain rfl | rfl := hs <;> exact fun _ => rfl
    · obtain rfl | rfl := hs <;> exact fun _ => rfl
  have hfurther := read_furtherEntries separates_record
    (fun f hf => (hrest f hf).entry (hothers f hf) hs) t
  rw [htext, List.map_id'] at hfurther
  have hmarks : ∀ r, (expect "\x7b").read ('{' :: r) = .value () r ∧
      (expect "\x7d").read ('}' :: r) = .value () r := fun _ => ⟨rfl, rfl⟩
  have hlabel : ∀ r, whitespace.read (' ' :: (Rendering.entry separator l
        (some (Rendering.chars e)) ++ r)) =
          .value () (Rendering.entry separator l (some (Rendering.chars e)) ++ r) ∧
      ∀ literal ∈ [",", "=", "\x7d"], (accept literal).read (Rendering.entry separator l
        (some (Rendering.chars e)) ++ r) =
          .value false (Rendering.entry separator l (some (Rendering.chars e)) ++ r) := by
    refine fun r => ⟨rfl, fun literal hliteral => ?_⟩
    simp only [List.mem_cons, List.not_mem_nil, or_false] at hliteral
    obtain rfl | rfl | rfl := hliteral <;> rfl
  have hrecord : Rule.recordExpression.read ('{' :: ' ' :: (Rendering.entry separator l
      (some (Rendering.chars e)) ++ further)) =
        .value (recordOf separator ((l, some e) :: rest)) t := by
    rw [Rule.read_eq]
    simp only [Rule.body, recordExpression, readBy_bind, hmarks, Reading.bind_value, hlabel,
      Bool.false_eq_true, if_false, readBy_pure, (hlabel further).2 "," (by decide),
      (hlabel further).2 "=" (by decide), (hlabel further).2 "\x7d" (by decide), recordEntries,
      hentry, hfurther]
    rfl
  exact read_expression_plain (plainStart_of_first rfl)
    (read_primitiveExpression_record rfl hrecord) ht.ends

theorem writes_recordType {fields : List (String × Option Expr)} (hne : fields ≠ [])
    (h : ∀ f ∈ fields, WritesField f) (hvalues : ∀ f ∈ fields, f.2 ≠ none) :
    Writes (Rendering.enclosed '{' ',' '}' (Rendering.entriesChars ':' fields))
      (.recordType fields) :=
  writes_fields (by decide) hne h hvalues

theorem writes_record {fields : List (String × Option Expr)}
    (h : ∀ f ∈ fields, WritesField f) (hvalues : ∀ f ∈ fields, f.2 ≠ none) :
    Writes (Rendering.enclosed '{' ',' '}' (Rendering.entriesChars '=' fields))
      (.record fields) := by
  cases fields with
  | nil =>
    refine ⟨fun t => rfl, fun t ht => ?_⟩
    have hrecord : Rule.recordExpression.read ('{' :: ' ' :: '}' :: t) = .value (.record []) t :=
      (Rule.read_eq .recordExpression _).trans rfl
    exact read_expression_plain (plainStart_of_first rfl)
      (read_primitiveExpression_record rfl hrecord) ht.ends
  | cons f rest => exact writes_fields (by decide) (List.cons_ne_nil f rest) h hvalues

/-! ## Unions -/

theorem separates_union : Separates "|" '|' '>' := ⟨rfl, by decide, fun _ => rfl, fun _ => rfl⟩

theorem WritesField.alternative {f : String × Option Expr} (h : WritesField f) :
    WritesEntry unionAlternative '|' '>'
      (Rendering.entry ':' f.1 (Rendering.optionChars f.2)) f := by
  obtain ⟨l, type⟩ := f
  refine ⟨?_, ?_, fun t ht => ?_⟩
  · cases type <;> exact fun t => rfl
  · cases type <;> exact fun t h => absurd (Option.some.inj h) (by decide)
  have hends : EndsExpression t := ht.ends (by decide) (by decide)
  cases type with
  | none =>
    have hlabel : (call .label).read (Rendering.label l ++ t) = .value l t := read_label h.label t
    simp only [Rendering.optionChars, Rendering.entry, unionAlternative, readBy_bind, hlabel,
      Reading.bind_value, readBy_optional?, hends.colon, Reading.bind_mismatch,
      Reading.orElse_mismatch, readBy_pure]
  | some e =>
    have hlabel : (call .label).read
        (Rendering.label l ++ ' ' :: ':' :: ' ' :: (grouped (Rendering.chars e) ++ t)) =
          .value l (' ' :: ':' :: ' ' :: (grouped (Rendering.chars e) ++ t)) :=
      read_label h.label _
    have hcolon : colon.read (' ' :: ':' :: ' ' :: (grouped (Rendering.chars e) ++ t)) =
        .value () (grouped (Rendering.chars e) ++ t) := rfl
    have htype : (call .expression).read (grouped (Rendering.chars e) ++ t) = .value e t :=
      (h.value e rfl).read_expression hends
    simp only [Rendering.optionChars, Rendering.entry, List.append_assoc, List.cons_append,
      unionAlternative, readBy_bind, hlabel, Reading.bind_value, readBy_optional?, hcolon, htype,
      Reading.orElse_value, readBy_pure]

theorem read_primitiveExpression_union {s t : List Char} (hs : s.head? = some '<')
    (h : Rule.unionType.read s = .value x t) : Rule.primitiveExpression.read s = .value x t := by
  have hmisses := Rule.read_of_head hs
  rw [read_primitiveExpression, hmisses .doubleLiteral rfl, hmisses .naturalLiteral rfl,
    hmisses .integerLiteral rfl, hmisses .textLiteral rfl, hmisses .recordExpression rfl, h]
  rfl

theorem writes_union {alternatives : List (String × Option Expr)}
    (h : ∀ f ∈ alternatives, WritesField f) :
    Writes (Rendering.enclosed '<' '|' '>' (Rendering.entriesChars ':' alternatives))
      (.union alternatives) := by
  cases alternatives with
  | nil =>
    refine ⟨fun t => rfl, fun t ht => ?_⟩
    have hunion : Rule.unionType.read ('<' :: ' ' :: '>' :: t) = .value (.union []) t :=
      (Rule.read_eq .unionType _).trans rfl
    exact read_expression_plain (plainStart_of_first rfl)
      (read_primitiveExpression_union rfl hunion) ht.ends
  | cons f rest =>
    obtain ⟨hfirst, hrest⟩ := List.forall_mem_cons.mp h
    refine ⟨fun t => rfl, fun t ht => ?_⟩
    rw [entriesChars_eq_map, List.map_cons, enclosed_cons]
    generalize htext : furtherText '|' (rest.map fun f =>
      Rendering.entry ':' f.1 (Rendering.optionChars f.2)) ++ ' ' :: '>' :: t = further
    generalize hentry : Rendering.entry ':' f.1 (Rendering.optionChars f.2) = entry
    have hwrites := hentry ▸ hfirst.alternative
    have halternative : unionAlternative.read (entry ++ further) = .value f further :=
      hwrites.read further (htext ▸ follows_further _ _ _ _)
    have hfurther := read_furtherEntries separates_union
      (fun f hf => (hrest f hf).alternative) t
    rw [htext, List.map_id'] at hfurther
    have hopen : ∀ r, (expect "<").read ('<' :: r) = .value () r := fun _ => rfl
    have hclose : ∀ r, (expect ">").read ('>' :: r) = .value () r := fun _ => rfl
    have hbar : (accept "|").read (entry ++ further) = .value false (entry ++ further) := by
      rw [← hentry]
      cases f.2 <;> rfl
    have hpeek : ((entry ++ further).head? == some '>') = false :=
      beq_false_of_ne (hwrites.opens further)
    have hunion : Rule.unionType.read ('<' :: ' ' :: (entry ++ further)) =
        .value (.union (f :: rest)) t := by
      rw [Rule.read_eq]
      simp only [Rule.body, unionType, readBy_bind, hopen, Reading.bind_value,
        readBy_whitespace_space (hwrites.tight further), hbar, Bool.false_eq_true, if_false,
        readBy_pure, unionAlternatives, readBy_peek, hpeek, halternative, hfurther, hclose]
    exact read_expression_plain (plainStart_of_first rfl)
      (read_primitiveExpression_union rfl hunion) ht.ends

/-! ## Projections -/

/-- One round through the labels of a projection. -/
def projectionStep (labels : List String) : Grammar (List String ⊕ List String) := do
  if (← peek) == some '}' then return .inr labels
  else
    let labels := (← call .label) :: labels
    whitespace
    if ← accept "," then
      whitespace
      return .inl labels
    else
      return .inr labels

/-- The rounds of a projection that has a label. -/
theorem iterates_labels {labels : List String} (h : ∀ l ∈ labels, IsLabel l) (l : String)
    (hl : IsLabel l) (done : List String) (t : List Char) :
    Iterates (fun labels s => (projectionStep labels).read s) done
      (Rendering.label l ++ (furtherText ',' (labels.map Rendering.label) ++ ' ' :: '}' :: t))
      (.value ((l :: labels).reverse ++ done) ('}' :: t)) := by
  induction labels generalizing l done with
  | nil =>
    have hlabel : (call .label).read (Rendering.label l ++ ' ' :: '}' :: t) =
        .value l (' ' :: '}' :: t) := read_label hl _
    have hpeek : ((Rendering.label l ++ ' ' :: '}' :: t).head? == some '}') = false := rfl
    have hcomma : ∀ r, (accept ",").read ('}' :: r) = .value false ('}' :: r) := fun _ => rfl
    have htight : ∀ r, Tight ('}' :: r) := fun _ => rfl
    refine .last ?_
    simp only [projectionStep, List.map_nil, furtherText, List.flatMap_nil, List.nil_append,
      readBy_bind, readBy_peek, Reading.bind_value, hpeek, Bool.false_eq_true, if_false, hlabel,
      readBy_whitespace_space (htight t), hcomma, readBy_pure, List.reverse_cons, List.reverse_nil,
      List.cons_append]
  | cons l' labels ih =>
    obtain ⟨hl', hrest⟩ := List.forall_mem_cons.mp h
    have hnext := ih hrest l' hl' (l :: done)
    generalize htext : Rendering.label l' ++ (furtherText ',' (labels.map Rendering.label) ++
      ' ' :: '}' :: t) = text at hnext
    have hshape : furtherText ',' ((l' :: labels).map Rendering.label) ++ ' ' :: '}' :: t =
        ' ' :: ',' :: ' ' :: text := by
      simp [furtherText, ← htext]
    have hlabel : (call .label).read (Rendering.label l ++ ' ' :: ',' :: ' ' :: text) =
        .value l (' ' :: ',' :: ' ' :: text) := read_label hl _
    have hpeek : ((Rendering.label l ++ ' ' :: ',' :: ' ' :: text).head? == some '}') = false :=
      rfl
    have hcomma : ∀ r, (accept ",").read (',' :: r) = .value true r := fun _ => rfl
    have hmark : ∀ r, Tight (',' :: r) := fun _ => rfl
    have htight : Tight text := htext ▸ tight_label l' _
    rw [hshape, List.reverse_cons, List.append_assoc, List.singleton_append]
    refine .next ?_ ?_ hnext
    · simp only [projectionStep, readBy_bind, readBy_peek, Reading.bind_value, hpeek,
        Bool.false_eq_true, if_false, hlabel, readBy_whitespace_space (hmark _), hcomma, if_true,
        readBy_whitespace_space htight, readBy_pure]
    · simp only [List.length_cons, List.length_append]
      omega

theorem readBy_projectionLabels {text t : List Char} {labels : List String} (ht : Tight text)
    (hcomma : (accept ",").read text = .value false text)
    (h : Iterates (fun labels s => (projectionStep labels).read s) [] text
      (.value labels.reverse ('}' :: t))) :
    selector.read (word " . " ++ '{' :: ' ' :: text) = .value (.labels labels) t := by
  have hclose : ∀ r, (expect "\x7d").read ('}' :: r) = .value () r := fun _ => rfl
  have hlabels : projectionLabels.read (' ' :: text) = .value labels t := by
    simp only [projectionLabels, readBy_bind, readBy_whitespace_space ht, Reading.bind_value,
      hcomma, Bool.false_eq_true, if_false, readBy_pure]
    refine (congrArg (Reading.bind · _) (readBy_iterate h)).trans ?_
    simp only [Reading.bind_value, hclose, List.reverse_reverse]
  have hselector : selector.read (word " . " ++ '{' :: ' ' :: text) =
      (projectionLabels.read (' ' :: text)).bind fun labels s => .value (.labels labels) s := rfl
  rw [hselector, hlabels, Reading.bind_value]

theorem read_projection {labels : List String} (h : ∀ l ∈ labels, IsLabel l) (t : List Char) :
    selector.read (word " . " ++ (Rendering.enclosed '{' ',' '}' (labels.map Rendering.label) ++
      t)) = .value (.labels labels) t := by
  cases labels with
  | nil =>
    refine readBy_projectionLabels (by rfl : Tight ('}' :: t)) rfl (.last ?_)
    simp [projectionStep]
  | cons l labels =>
    obtain ⟨hl, hrest⟩ := List.forall_mem_cons.mp h
    have hiterates := iterates_labels hrest l hl [] t
    rw [List.append_nil] at hiterates
    rw [List.map_cons, enclosed_cons]
    exact readBy_projectionLabels rfl rfl hiterates

theorem writes_projection {labels : List String} (h : Writes a x)
    (hl : ∀ l ∈ labels, IsLabel l) :
    Writes (Rendering.selection a (Rendering.enclosed '{' ',' '}' (labels.map Rendering.label)))
      (.projection x labels) :=
  writes_selection (s := .labels labels) h fun t _ => read_projection hl t

end DhallSyntax
