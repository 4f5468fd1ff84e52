import DhallSyntax.Proofs.Document.Spread

/-!
Documents that are read as trees, however leniently, and are written and read once more. Main
statements:

* `LooseTree.ensures_readWithin`: a tree that is read is no deeper than the reader goes, and nothing
  in it stands in the way of writing and reading it again;
* `LooseTree.reread`: it is written, and read as the same tree, unless a natural or an integer in it
  is a truth value.
-/

namespace DhallSyntax

/-! ## What reading ensures -/

variable {α β : Type} {P : α → Prop} {Q : β → Prop}

/-- Whatever is read has a property. -/
def Ensures (P : α → Prop) (x : Except ReadError α) : Prop := ∀ a, x = .ok a → P a

namespace Ensures

theorem value {a : α} (h : P a) : Ensures P (Pure.pure a) := by
  rintro _ ⟨⟩
  exact h

theorem error {e : ReadError} : Ensures P (.error e) := nofun

theorem any {x : Except ReadError α} : Ensures (fun _ => True) x := fun _ _ => trivial

theorem bind {x : Except ReadError α} {f : α → Except ReadError β} (hx : Ensures P x)
    (hf : ∀ a, P a → Ensures Q (f a)) : Ensures Q (x >>= f) := by
  intro b hb
  cases h : x with
  | error e =>
    rw [h] at hb
    cases hb
  | ok a =>
    rw [h, ok_bind] at hb
    exact hf a (hx a h) b hb

theorem map {x : Except ReadError α} {f : α → β} (hx : Ensures P x) (hf : ∀ a, P a → Q (f a)) :
    Ensures Q (f <$> x) :=
  hx.bind fun a ha => value (hf a ha)

theorem mapM {l : List α} {f : α → Except ReadError β} (h : ∀ a ∈ l, Ensures Q (f a)) :
    Ensures (fun bs => ∀ b ∈ bs, Q b) (l.mapM f) := by
  induction l with
  | nil => exact value nofun
  | cons a l ih =>
    obtain ⟨ha, hl⟩ := List.forall_mem_cons.mp h
    rw [List.mapM_cons]
    exact ha.bind fun b hb => (ih hl).bind fun bs hbs =>
      value (List.forall_mem_cons.mpr ⟨hb, hbs⟩)

end Ensures

/-! ## Parts of documents -/

namespace Document

/-- A document has no knot. -/
def Ends (d : Document) : Prop := d.isEndless = false

variable {d : Document} {entries : List (Scalar × Document)} {key : String}

theorem Ends.opened (h : d.Ends) : d.opened = d := by
  cases d with
  | knot label collection => cases h
  | _ => rfl

theorem ends_list_iff {items : List Document} :
    (Document.list items).Ends ↔ ∀ item ∈ items, item.Ends := by
  simp [Ends, spreads_isEndless.list]

theorem ends_object_iff : (Document.object entries).Ends ↔ ∀ entry ∈ entries, entry.2.Ends := by
  simp [Ends, spreads_isEndless.object]

theorem ends_fields (h : d.Ends) :
    Ensures (fun entries => ∀ entry ∈ entries, entry.2.Ends) d.fields := by
  rw [fields, h.opened]
  split
  · rintro _ ⟨⟩
    exact ends_object_iff.mp h
  · exact .error

theorem ends_items (h : d.Ends) : Ensures (fun items => ∀ item ∈ items, item.Ends) d.items := by
  rw [items, h.opened]
  split
  · rintro _ ⟨⟩
    exact ends_list_iff.mp h
  · rintro _ ⟨⟩
    exact List.forall_mem_map.mpr fun _ _ => rfl
  · rintro _ ⟨⟩
    exact List.forall_mem_map.mpr fun _ _ => rfl
  · exact .error

section Fields

variable (h : ∀ entry ∈ entries, entry.2.Ends)

include h

theorem ends_lookup (hd : lookup key entries = some d) : d.Ends := by
  obtain ⟨entry, hentry, rfl⟩ := Option.map_eq_some_iff.mp hd
  exact h entry (List.mem_of_find?_eq_some hentry)

theorem ends_required : Ensures Ends (required key entries) := by
  rw [required]
  split
  · rintro _ ⟨⟩
    exact ends_lookup h ‹_›
  · exact .error

theorem ends_optional (hd : optional? key entries = some d) : d.Ends ∧ d ≠ .null := by
  rw [optional?_eq_bind] at hd
  obtain ⟨d', hlookup, hpart⟩ := Option.bind_eq_some_iff.mp hd
  unfold part? at hpart
  split at hpart
  · cases hpart
  · cases hpart
    exact ⟨ends_lookup h hlookup, ‹_›⟩

theorem ends_optionalItems :
    Ensures (fun items => ∀ item ∈ items, item.Ends) (optionalItems key entries) := by
  rw [optionalItems]
  cases hlookup : lookup key entries with
  | none => exact ends_items (d := .list []) rfl
  | some d => exact ends_items (ends_lookup h hlookup)

end Fields

end Document

open Document (Ends)

/-! ## Trees that are read -/

namespace LooseTree

variable {n : Nat} {t : LooseTree}

/-- What holds of a tree that is read: it is no deeper than the reader goes, its document has an
end, and the URLs in it tell what is absent. -/
structure Accepted (n : Nat) (t : LooseTree) : Prop where
  depth_le : t.depth ≤ n
  ends : (Tree.toDocument .loose t).Ends
  tellsAbsent : t.TellsAbsent .loose

/-- The same of the kind of an import. -/
structure AcceptedKind (n : Nat) (kind : ImportKind Document) : Prop where
  depth_le : Import.kindDepth kind ≤ n
  ends : ∀ d ∈ kind.texts, d.Ends
  tellsAbsent : kind.TellsAbsent .loose

theorem ends_toDocument_iff :
    (Tree.toDocument .loose t).Ends ↔
      (∀ d ∈ t.texts, d.Ends) ∧ ∀ s ∈ t.children, (Tree.toDocument .loose s).Ends := by
  have hiff : (Tree.toDocument .loose t).isEndless = true ↔ _ :=
    Document.spreads_isEndless.toDocument_iff
  simp only [Ends, ← Bool.not_eq_true, hiff]
  have hindex : ∀ i : Int, (Document.int i).isEndless = false := fun _ => rfl
  simp [hindex, Leaves.loose]

namespace Accepted

theorem node (htexts : ∀ d ∈ t.texts, d.Ends) (hne : ∀ i, t ≠ .embedded i)
    (h : ∀ s ∈ t.children, Accepted n s) : Accepted (n + 1) t where
  depth_le := (Tree.depth_le_succ_iff hne).mpr fun s hs => (h s hs).depth_le
  ends := ends_toDocument_iff.mpr ⟨htexts, fun s hs => (h s hs).ends⟩
  tellsAbsent := by
    intro i hi
    cases hi with
    | whole => exact absurd rfl (hne i)
    | inside hs hi => exact (h _ hs).tellsAbsent i hi

theorem embedded {kind : ImportKind Document} {hash : Option Digest} {mode : ImportMode}
    (h : AcceptedKind n kind) : Accepted (n + 1) (.embedded (.mk kind hash mode)) where
  depth_le := Nat.succ_le_succ h.depth_le
  ends := ends_toDocument_iff.mpr ⟨h.ends, nofun⟩
  tellsAbsent := Tree.tellsAbsent_embedded.mpr h.tellsAbsent

end Accepted

section Reading

variable {read : Document → Except ReadError LooseTree} {d : Document} {key : String}
  {entries : List (Scalar × Document)}
  (hread : ∀ d : Document, d.Ends → Ensures (Accepted n) (read d))

section Fields

variable (h : ∀ entry ∈ entries, entry.2.Ends)

include h

theorem ensures_readName : Ensures Ends (Tree.readName Leaves.loose key entries) :=
  (Document.ends_required h).bind fun _ hd => .value hd

theorem ensures_readOptionalText :
    Ensures (fun o => ∀ d ∈ o, d.Ends ∧ d ≠ .null)
      (Tree.readOptionalText Leaves.loose (Document.optional? key entries)) := by
  cases hd : Document.optional? key entries with
  | none => exact .value nofun
  | some d =>
    refine .value ?_
    rintro _ ⟨⟩
    exact Document.ends_optional h hd

include hread

theorem ensures_readField : Ensures (Accepted n) (Tree.readField read key entries) :=
  (Document.ends_required h).bind hread

theorem ensures_readOptional :
    Ensures (fun o => ∀ s ∈ o, Accepted n s)
      (Tree.readOptional read (Document.optional? key entries)) := by
  cases hd : Document.optional? key entries with
  | none => exact .value nofun
  | some d =>
    refine (hread d (Document.ends_optional h hd).1).map fun s hs => ?_
    rintro _ ⟨⟩
    exact hs

end Fields

theorem ensures_readTexts {items : List Document} (h : ∀ d ∈ items, d.Ends) :
    Ensures (fun texts => ∀ d ∈ texts, d.Ends) (items.mapM Leaves.loose.readText) :=
  .mapM fun d hd => .value (h d hd)

include hread

theorem ensures_readEntry (h : d.Ends) :
    Ensures (fun entry => entry.1.Ends ∧ ∀ s ∈ entry.2, Accepted n s)
      (Tree.readEntry .loose read d) :=
  (Document.ends_fields h).bind fun _ hentries =>
    (ensures_readName hentries).bind fun _ hlabel =>
      (ensures_readOptional hread hentries).bind fun _ hvalue => .value ⟨hlabel, hvalue⟩

theorem ensures_readChunk (h : d.Ends) :
    Ensures (fun chunk => chunk.1.Ends ∧ Accepted n chunk.2) (Tree.readChunk .loose read d) :=
  (Document.ends_fields h).bind fun _ hentries =>
    (ensures_readName hentries).bind fun _ htext =>
      (ensures_readField hread hentries).bind fun _ hvalue => .value ⟨htext, hvalue⟩

theorem ensures_readBinding (h : d.Ends) :
    Ensures (fun binding => binding.name.Ends ∧ (∀ s ∈ binding.annotation, Accepted n s) ∧
      Accepted n binding.value) (Tree.readBinding .loose read d) :=
  (Document.ends_fields h).bind fun _ hentries =>
    (ensures_readName hentries).bind fun _ hname =>
      (ensures_readOptional hread hentries).bind fun _ hnote =>
        (ensures_readField hread hentries).bind fun _ hvalue => .value ⟨hname, hnote, hvalue⟩

theorem ensures_readHeaders (h : ∀ entry ∈ entries, entry.2.Ends) :
    Ensures (fun o => ∀ i ∈ o, Accepted n (.embedded i)) (Tree.readHeaders read entries) := by
  refine (ensures_readOptional hread h).bind fun o ho => ?_
  split
  · exact .value nofun
  · refine .value ?_
    rintro _ ⟨⟩
    exact ho _ rfl
  · exact .error

theorem ensures_readRemote (h : ∀ entry ∈ entries, entry.2.Ends) :
    Ensures (AcceptedKind n) (Tree.readRemote .loose read entries) := by
  refine (ensures_readHeaders hread h).bind fun headers hheaders => Ensures.any.bind fun _ _ =>
    Ensures.any.bind fun scheme _ => (ensures_readName h).bind fun host hhost =>
      (Document.ends_optionalItems h).bind fun items hitems =>
        (ensures_readTexts hitems).bind fun path hpath =>
          (ensures_readOptionalText h).bind fun userinfo huserinfo =>
            (ensures_readOptionalText h).bind fun port hport =>
              (ensures_readOptionalText h).bind fun query hquery => ?_
  let address : Url Document := { scheme, host, path, userinfo, port, query }
  have hends : ∀ d ∈ address.texts, d.Ends := by
    simp [address, Url.texts, or_imp, forall_and]
    grind
  have habsent : address.TellsAbsent .loose := by
    simp [address, Url.TellsAbsent, Url.optionals, Leaves.loose]
    grind
  cases headers with
  | none => exact .value ⟨Nat.zero_le n, hends, habsent⟩
  | some headers =>
    have hi := hheaders headers rfl
    refine .value ⟨hi.depth_le, ?_, habsent, Tree.tellsAbsent_embedded.mp hi.tellsAbsent⟩
    exact List.forall_mem_append.mpr ⟨hends, (ends_toDocument_iff.mp hi.ends).1⟩

theorem ensures_readImportKind (h : d.Ends) :
    Ensures (AcceptedKind n) (Tree.readImportKind .loose read d) := by
  refine (Document.ends_fields h).bind fun entries hentries => Ensures.any.bind fun kind _ => ?_
  split
  · exact .value ⟨Nat.zero_le n, nofun, trivial⟩
  · exact Ensures.any.bind fun _ _ => Ensures.any.bind fun anchor _ =>
      (Document.ends_required hentries).bind fun d hd => (Document.ends_items hd).bind
        fun items hitems => (ensures_readTexts hitems).bind fun components hcomponents =>
          .value ⟨Nat.zero_le n, hcomponents, trivial⟩
  · exact ensures_readRemote hread hentries
  · refine (ensures_readName hentries).bind fun name hname =>
      .value ⟨Nat.zero_le n, ?_, trivial⟩
    exact List.forall_mem_singleton.mpr hname
  · exact .error

theorem ensures_readEntries {items : List Document} (h : ∀ d ∈ items, d.Ends) :
    Ensures (fun fields => (∀ d ∈ fields.map Prod.fst, d.Ends) ∧
      ∀ s ∈ fields.filterMap Prod.snd, Accepted n s) (items.mapM (Tree.readEntry .loose read)) := by
  intro fields hfields
  have hentry := Ensures.mapM (fun d hd => ensures_readEntry hread (h d hd)) fields hfields
  exact ⟨List.forall_mem_map.mpr fun entry he => (hentry entry he).1,
    List.forall_mem_filterMap.mpr fun entry he => (hentry entry he).2⟩

theorem ensures_readNode (h : ∀ entry ∈ entries, entry.2.Ends) (kind : String) :
    Ensures (Accepted (n + 1)) (Tree.readNode .loose read entries kind) := by
  have hname : ∀ {key}, Ensures Ends (Tree.readName Leaves.loose key entries) := ensures_readName h
  have hfield : ∀ {key}, Ensures (Accepted n) (Tree.readField read key entries) :=
    ensures_readField hread h
  have hrequired : ∀ {key}, Ensures Ends (Document.required key entries) := Document.ends_required h
  have htext : ∀ {d : Document}, d.Ends → ∀ x ∈ [d], x.Ends := List.forall_mem_singleton.mpr
  have hone : ∀ {a : LooseTree}, Accepted n a → ∀ s ∈ [a], Accepted n s :=
    List.forall_mem_singleton.mpr
  have htwo : ∀ {a b : LooseTree}, Accepted n a → Accepted n b → ∀ s ∈ [a, b], Accepted n s :=
    fun ha hb => List.forall_mem_cons.mpr ⟨ha, hone hb⟩
  unfold Tree.readNode
  split
  -- names only
  case h_1 =>
    exact hname.bind fun name hx => Ensures.any.bind fun index _ =>
      .value (.node (htext hx) nofun nofun)
  case h_2 => exact hname.bind fun name hx => .value (.node (htext hx) nofun nofun)
  -- fixed trees right below
  case h_3 | h_4 =>
    exact hname.bind fun param hx => hfield.bind fun domain ha => hfield.bind fun body hb =>
      .value (.node (htext hx) nofun (htwo ha hb))
  case h_5 | h_8 | h_20 =>
    exact hfield.bind fun a ha => hfield.bind fun b hb => .value (.node nofun nofun (htwo ha hb))
  case h_7 =>
    exact hfield.bind fun condition ha => hfield.bind fun yes hb => hfield.bind fun no hc =>
      .value (.node nofun nofun (List.forall_mem_cons.mpr ⟨ha, htwo hb hc⟩))
  case h_9 =>
    exact Ensures.any.bind fun _ _ => Ensures.any.bind fun operator _ =>
      hfield.bind fun left ha => hfield.bind fun right hb =>
        .value (.node nofun nofun (htwo ha hb))
  case h_12 | h_14 => exact hfield.bind fun a ha => .value (.node nofun nofun (hone ha))
  case h_18 =>
    exact hfield.bind fun subject ha => hname.bind fun label hx =>
      .value (.node (htext hx) nofun (hone ha))
  case h_19 =>
    exact hfield.bind fun subject ha => hrequired.bind fun _ hd =>
      (Document.ends_items hd).bind fun _ hitems => (ensures_readTexts hitems).bind fun labels hx =>
        .value (.node hx nofun (hone ha))
  -- trees that may be absent
  case h_10 =>
    refine hfield.bind fun handler ha => hfield.bind fun cases hb =>
      (ensures_readOptional hread h).bind fun type htype => .value (.node nofun nofun ?_)
    exact List.forall_mem_append.mpr ⟨htwo ha hb, fun s hs => htype s (Option.mem_toList.mp hs)⟩
  case h_11 =>
    refine hfield.bind fun subject ha => (ensures_readOptional hread h).bind fun type htype =>
      .value (.node nofun nofun ?_)
    exact List.forall_mem_cons.mpr ⟨ha, fun s hs => htype s (Option.mem_toList.mp hs)⟩
  -- lists of trees
  case h_6 =>
    refine hrequired.bind fun _ hd => (Document.ends_items hd).bind fun _ hitems =>
      (Ensures.mapM fun d hd => ensures_readBinding hread (hitems d hd)).bind fun bindings hbs =>
        hfield.bind fun body hbody => .value (.node ?_ nofun ?_)
    · exact List.forall_mem_map.mpr fun binding hb => (hbs binding hb).1
    · refine List.forall_mem_append.mpr ⟨List.forall_mem_flatMap.mpr fun binding hb => ?_,
        hone hbody⟩
      obtain ⟨-, hnote, hvalue⟩ := hbs binding hb
      exact List.forall_mem_append.mpr
        ⟨fun s hs => hnote s (Option.mem_toList.mp hs), hone hvalue⟩
  case h_13 =>
    exact hrequired.bind fun _ hd => (Document.ends_items hd).bind fun _ hitems =>
      (Ensures.mapM fun d hd => hread d (hitems d hd)).bind fun elements helements =>
        .value (.node nofun nofun helements)
  case h_15 | h_16 | h_17 =>
    exact (Document.ends_optionalItems h).bind fun _ hitems =>
      (ensures_readEntries hread hitems).bind fun fields hfields =>
        .value (.node hfields.1 nofun hfields.2)
  case h_21 =>
    refine (Document.ends_optionalItems h).bind fun _ hitems =>
      (Ensures.mapM fun d hd => ensures_readChunk hread (hitems d hd)).bind fun chunks hchunks =>
        Ensures.bind (P := Ends) ?_ fun suffix hx => .value (.node ?_ nofun ?_)
    · refine .value ?_
      cases hsuffix : Document.lookup "suffix" entries with
      | none => rfl
      | some d => exact Document.ends_lookup h hsuffix
    · exact List.forall_mem_append.mpr
        ⟨List.forall_mem_map.mpr fun chunk hc => (hchunks chunk hc).1, htext hx⟩
    · exact List.forall_mem_map.mpr fun chunk hc => (hchunks chunk hc).2
  -- numbers and imports
  case h_22 | h_23 | h_24 =>
    exact Ensures.any.bind fun _ _ => Ensures.any.bind fun value _ =>
      .value (.node nofun nofun nofun)
  case h_25 =>
    exact hrequired.bind fun _ hd => (ensures_readImportKind hread hd).bind fun kind hkind =>
      Ensures.any.bind fun hash _ => Ensures.any.bind fun mode _ => .value (.embedded hkind)
  case h_26 => exact .error

end Reading

theorem ensures_readWithin (n : Nat) {d : Document} (h : d.Ends) :
    Ensures (Accepted n) (Tree.readWithin .loose n d) := by
  induction n generalizing d with
  | zero => exact .error
  | succ n ih =>
    refine (Document.ends_fields h).bind fun entries hentries => Ensures.any.bind fun kind _ => ?_
    split
    · exact ensures_readNode (fun d hd => ih hd) hentries _
    · exact .error

/-! ## Truth values -/

/-- A natural or an integer in a tree is a truth value. -/
def HasFlag (t : LooseTree) : Prop :=
  ∃ b, Tree.PartOf (.natural (.flag b)) t ∨ Tree.PartOf (.integer (.flag b)) t

theorem everyNumber_iff_not_hasFlag :
    t.EveryNumber (fun n => ∀ b, n ≠ .flag b) ↔ ¬ t.HasFlag := by
  constructor
  · rintro h ⟨b, hpart | hpart⟩
    · exact h _ hpart (.flag b) rfl b rfl
    · exact h _ hpart (.flag b) rfl b rfl
  · rintro h s hs n hn b rfl
    cases s with
    | natural n =>
      cases hn
      exact h ⟨b, .inl hs⟩
    | integer n =>
      cases hn
      exact h ⟨b, .inr hs⟩
    | _ => cases hn

/-- A tree that was read from a document without knots, however leniently, can be written. What is
written is read as the same tree, unless a natural or an integer in it is a truth value: that is
written as a word, which is then refused as a number. -/
theorem reread {d : Document} {t : LooseTree} (hd : d.isEndless = false)
    (h : LooseTree.ofDocument d = .ok t) :
    ∃ d', t.toDocument? = some d' ∧ (¬ t.HasFlag → LooseTree.ofDocument d' = .ok t) ∧
      (t.HasFlag → LooseTree.ofDocument d' = .error .badNumber) := by
  have hread := ensures_readWithin Tree.depthLimit hd t h
  have hends : (Tree.toDocument .loose t).isEndless = false := hread.ends
  have hwritten : t.toDocument? = some (Tree.toDocument .loose t) := by
    rw [toDocument?, Tree.serialize?, if_pos hread.depth_le]
    exact Option.filter_eq_some_iff.mpr ⟨rfl, by simpa using hends⟩
  have hrestores := (Tree.restores_readWithin Leaves.loose_faithful hread.depth_le
    hread.tellsAbsent).congr everyNumber_iff_not_hasFlag
  exact ⟨_, hwritten, hrestores.ok, fun hflag => hrestores.refused (not_not_intro hflag)⟩

/-- A truth value for an index is a number, one for a natural is not. -/
theorem reread_application :
    let function : Document :=
      .object [("index", .bool true), ("name", .list []), ("kind", .text "Variable")]
    let apply (value : Document) : Document :=
      .object [("kind", .text "App"), ("fn", function),
        ("arg", .object [("kind", .text "NaturalLiteral"), ("value", value)])]
    let read (n : LooseNumber) : LooseTree := .app (.variable (.list []) 1) (.natural n)
    (LooseTree.ofDocument (apply (.int (-1))) = .ok (read (.number (-1))) ∧
      ∃ d', (read (.number (-1))).toDocument? = some d' ∧
        LooseTree.ofDocument d' = .ok (read (.number (-1)))) ∧
    (LooseTree.ofDocument (apply (.bool true)) = .ok (read (.flag true)) ∧
      ∃ d', (read (.flag true)).toDocument? = some d' ∧
        LooseTree.ofDocument d' = .error .badNumber) := by
  intro function apply read
  have hnumber : LooseTree.ofDocument (apply (.int (-1))) = .ok (read (.number (-1))) := by rfl
  have hflag : LooseTree.ofDocument (apply (.bool true)) = .ok (read (.flag true)) := by rfl
  have hnone : ¬ (read (.number (-1))).HasFlag := by
    rw [← everyNumber_iff_not_hasFlag, Tree.everyNumber_iff]
    refine ⟨nofun, List.forall_mem_cons.mpr ⟨?_, List.forall_mem_singleton.mpr ?_⟩⟩
    · exact Tree.everyNumber_iff.mpr ⟨nofun, nofun⟩
    · exact Tree.everyNumber_iff.mpr ⟨by simp [Tree.number?], nofun⟩
  have hsome : (read (.flag true)).HasFlag :=
    ⟨true, .inl (.inside (List.mem_cons_of_mem _ List.mem_cons_self) .whole)⟩
  obtain ⟨d₁, hwritten, hread, -⟩ := reread rfl hnumber
  obtain ⟨d₂, hwritten', -, hrefused⟩ := reread rfl hflag
  exact ⟨⟨hnumber, d₁, hwritten, hread hnone⟩, hflag, d₂, hwritten', hrefused hsome⟩

end LooseTree

end DhallSyntax
