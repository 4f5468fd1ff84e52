import Mathlib.Control.Monad.Basic
import DhallSyntax.Proofs.Document.Leaves
import DhallSyntax.Proofs.Tree.Parts

/-!
Trees read back from their documents. Main statements:

* `restores_readWithin`: a tree comes back whole from its document, whenever the bound of the reader
  is no less than its depth, unless a number in it is written as no number;
* `readWithin_toDocument`: a tree whose leaves are exact comes back whole.
-/

namespace DhallSyntax

namespace Document

@[simp] theorem lookup_cons (key name : String) (d : Document) (rest : List (Scalar × Document)) :
    lookup key ((.text name, d) :: rest) = if name = key then some d else lookup key rest := by
  by_cases h : name = key <;> simp [lookup, h]

@[simp] theorem fields_object (entries : List (Scalar × Document)) :
    (object entries).fields = .ok entries := rfl

@[simp] theorem items_list (ds : List Document) : (list ds).items = .ok ds := rfl

/-- A document unless it is null. -/
def part? : Document → Option Document
  | .null => none
  | d => some d

theorem part?_eq_some {d : Document} (h : d ≠ .null) : d.part? = some d := by
  unfold part?
  split
  · exact absurd rfl h
  · rfl

theorem optional?_eq_bind (key : String) (entries : List (Scalar × Document)) :
    optional? key entries = (lookup key entries).bind part? := by
  unfold optional? part?
  cases lookup key entries with
  | none => rfl
  | some d => dsimp only [Option.bind_some]; split <;> simp_all

theorem digest_part? (hash : Option Digest) :
    digest ((hash.map fun bytes => text (digestText bytes)).getD null).part? = .ok hash := by
  cases hash with
  | none => rfl
  | some bytes =>
    have hpart : (text (digestText bytes)).part? = some (text (digestText bytes)) :=
      part?_eq_some fun h => nomatch h
    rw [Option.map_some, Option.getD_some, hpart, digest, hashBytes?_digestText]

end Document

/-! ## What has to be told apart -/

section

variable {τ ν : Type}

/-- A part of a URL that is there is not written as one that is absent. -/
def Url.TellsAbsent (leaves : Leaves τ ν) (u : Url τ) : Prop :=
  ∀ o ∈ u.optionals, ∀ t ∈ o, leaves.writeText t ≠ .null

mutual

/-- The same of all URLs of an import, which are its own and those of its headers. -/
def Import.TellsAbsent (leaves : Leaves τ ν) : Import τ → Prop
  | .mk kind _ _ => kind.TellsAbsent leaves

def ImportKind.TellsAbsent (leaves : Leaves τ ν) : ImportKind τ → Prop
  | .url address => address.TellsAbsent leaves
  | .urlUsing address headers => address.TellsAbsent leaves ∧ headers.TellsAbsent leaves
  | .missing | .path .. | .env _ => True

end

mutual

/-- Where no text is null, what is absent always differs from what is there. -/
theorem Import.tellsAbsent {leaves : Leaves τ ν} (h : ∀ t, leaves.writeText t ≠ .null) :
    ∀ i : Import τ, i.TellsAbsent leaves
  | .mk kind _ _ => by
    rw [Import.TellsAbsent]
    exact kind.tellsAbsent h

theorem ImportKind.tellsAbsent {leaves : Leaves τ ν} (h : ∀ t, leaves.writeText t ≠ .null) :
    ∀ kind : ImportKind τ, kind.TellsAbsent leaves
  | .url _ => fun _ _ t _ => h t
  | .urlUsing _ headers => ⟨fun _ _ t _ => h t, headers.tellsAbsent h⟩
  | .missing | .path .. | .env _ => trivial

end

end

namespace Tree

open Document

variable {τ ν : Type} {leaves : Leaves τ ν}

/-! ## Parts of lists -/

def entryDocument (leaves : Leaves τ ν) (entry : τ × Option (Tree τ ν)) : Document :=
  .object [("label", leaves.writeText entry.1), ("value", optionToDocument leaves entry.2)]

def chunkDocument (leaves : Leaves τ ν) (chunk : τ × Tree τ ν) : Document :=
  .object [("text", leaves.writeText chunk.1), ("expression", toDocument leaves chunk.2)]

def bindingDocument (leaves : Leaves τ ν) (binding : Binding τ (Tree τ ν)) : Document :=
  .object
    [("name", leaves.writeText binding.name),
     ("annotation", optionToDocument leaves binding.annotation),
     ("value", toDocument leaves binding.value)]

theorem toDocuments_eq_map (ts : List (Tree τ ν)) :
    toDocuments leaves ts = ts.map (toDocument leaves) := by
  induction ts with
  | nil => rfl
  | cons t ts ih => rw [toDocuments, ih, List.map_cons]

theorem entriesToDocuments_eq_map (entries : List (τ × Option (Tree τ ν))) :
    entriesToDocuments leaves entries = entries.map (entryDocument leaves) := by
  induction entries with
  | nil => rfl
  | cons entry entries ih => rw [entriesToDocuments, ih, List.map_cons, entryDocument]

theorem chunksToDocuments_eq_map (chunks : List (τ × Tree τ ν)) :
    chunksToDocuments leaves chunks = chunks.map (chunkDocument leaves) := by
  induction chunks with
  | nil => rfl
  | cons chunk chunks ih => rw [chunksToDocuments, ih, List.map_cons, chunkDocument]

theorem bindingsToDocuments_eq_map (bindings : List (Binding τ (Tree τ ν))) :
    bindingsToDocuments leaves bindings = bindings.map (bindingDocument leaves) := by
  induction bindings with
  | nil => rfl
  | cons binding bindings ih => rw [bindingsToDocuments, ih, List.map_cons, bindingDocument]

/-! ## Properties of all parts -/

/-- The imports in a tree tell what is absent in their URLs. -/
def TellsAbsent (leaves : Leaves τ ν) (t : Tree τ ν) : Prop :=
  ∀ i, PartOf (.embedded i) t → i.TellsAbsent leaves

theorem TellsAbsent.child {s t : Tree τ ν} (h : t.TellsAbsent leaves) (hs : s ∈ t.children) :
    s.TellsAbsent leaves :=
  fun i hi => h i (.inside hs hi)

theorem tellsAbsent_embedded {i : Import τ} :
    (embedded i : Tree τ ν).TellsAbsent leaves ↔ i.TellsAbsent leaves := by
  constructor
  · exact fun h => h i .whole
  · intro h j hj
    cases hj with
    | whole => exact h
    | inside hs => cases hs

/-- All numbers in a tree are sound. -/
def EveryNumber (sound : ν → Prop) (t : Tree τ ν) : Prop :=
  ∀ s, PartOf s t → ∀ n ∈ s.number?, sound n

theorem everyNumber_iff {sound : ν → Prop} {t : Tree τ ν} :
    t.EveryNumber sound ↔
      (∀ n ∈ t.number?, sound n) ∧ ∀ s ∈ t.children, s.EveryNumber sound := by
  constructor
  · exact fun h => ⟨h t .whole, fun u hu s hs => h s (.inside hu hs)⟩
  · rintro ⟨hroot, hchildren⟩ s hs
    cases hs with
    | whole => exact hroot
    | inside hu hs => exact hchildren _ hu s hs

/-! ## Reading -/

theorem toDocument_ne_null (t : Tree τ ν) : toDocument leaves t ≠ .null := by
  cases t with
  | embedded i =>
    cases i
    exact fun h => nomatch h
  | _ => exact fun h => nomatch h

@[simp] theorem part?_optionToDocument (t : Option (Tree τ ν)) :
    (optionToDocument leaves t).part? = t.map (toDocument leaves) := by
  cases t with
  | none => rfl
  | some t => exact part?_eq_some (toDocument_ne_null t)

section

variable {sound : ν → Prop} {read : Document → Except ReadError (Tree τ ν)}

/-- A reader gives a tree back from its document. -/
abbrev Rereads (sound : ν → Prop) (leaves : Leaves τ ν)
    (read : Document → Except ReadError (Tree τ ν)) (t : Tree τ ν) : Prop :=
  Restores (t.EveryNumber sound) (read (toDocument leaves t)) t

theorem restores_optional {t : Option (Tree τ ν)} (h : ∀ s ∈ t, Rereads sound leaves read s) :
    Restores (∀ s ∈ t, s.EveryNumber sound) (readOptional read (t.map (toDocument leaves))) t := by
  cases t with
  | none => exact (Restores.value rfl).congr (by simp)
  | some t => exact ((h t rfl).map some).congr (by simp)

theorem restores_trees {ts : List (Tree τ ν)} (h : ∀ s ∈ ts, Rereads sound leaves read s) :
    Restores (∀ s ∈ ts, s.EveryNumber sound) ((toDocuments leaves ts).mapM read) ts := by
  rw [toDocuments_eq_map]
  exact Restores.mapM h

variable (hfaithful : leaves.Faithful sound)

include hfaithful

theorem restores_entries {entries : List (τ × Option (Tree τ ν))}
    (h : ∀ s ∈ entries.filterMap Prod.snd, Rereads sound leaves read s) :
    Restores (∀ s ∈ entries.filterMap Prod.snd, s.EveryNumber sound)
      ((entriesToDocuments leaves entries).mapM (readEntry leaves read)) entries := by
  rw [entriesToDocuments_eq_map]
  refine (Restores.mapM (r := fun entry => ∀ s ∈ entry.2, s.EveryNumber sound)
    fun entry he => ?_).congr List.forall_mem_filterMap.symm
  have hvalue := restores_optional fun s hs => h s (List.mem_filterMap.mpr ⟨entry, he, hs⟩)
  simp only [readEntry, entryDocument, readName, required, optional?_eq_bind, fields_object,
    lookup_cons, hfaithful.readText_writeText, part?_optionToDocument, ok_bind, String.reduceEq,
    if_true, if_false, Option.bind_some]
  exact Restores.congr (hvalue.bind (.value rfl)) (by rw [and_true])

theorem restores_chunks {chunks : List (τ × Tree τ ν)}
    (h : ∀ s ∈ chunks.map Prod.snd, Rereads sound leaves read s) :
    Restores (∀ s ∈ chunks.map Prod.snd, s.EveryNumber sound)
      ((chunksToDocuments leaves chunks).mapM (readChunk leaves read)) chunks := by
  rw [chunksToDocuments_eq_map]
  refine (Restores.mapM (r := fun chunk => chunk.2.EveryNumber sound)
    fun chunk hc => ?_).congr List.forall_mem_map.symm
  have hvalue := h chunk.2 (List.mem_map_of_mem hc)
  simp only [readChunk, chunkDocument, readName, readField, required, fields_object,
    lookup_cons, hfaithful.readText_writeText, ok_bind, String.reduceEq, if_true, if_false]
  exact Restores.congr (hvalue.bind (.value rfl)) (by rw [and_true])

/-- The trees in a definition. -/
def bindingParts (binding : Binding τ (Tree τ ν)) : List (Tree τ ν) :=
  binding.annotation.toList ++ [binding.value]

theorem restores_bindings {bindings : List (Binding τ (Tree τ ν))}
    (h : ∀ s ∈ bindings.flatMap bindingParts, Rereads sound leaves read s) :
    Restores (∀ s ∈ bindings.flatMap bindingParts, s.EveryNumber sound)
      ((bindingsToDocuments leaves bindings).mapM (readBinding leaves read)) bindings := by
  rw [bindingsToDocuments_eq_map]
  refine (Restores.mapM (r := fun binding =>
    ∀ s ∈ bindingParts binding, s.EveryNumber sound) fun binding hb => ?_).congr
      List.forall_mem_flatMap.symm
  have hpart : ∀ s ∈ bindingParts binding, Rereads sound leaves read s :=
    fun s hs => h s (List.mem_flatMap.mpr ⟨binding, hb, hs⟩)
  have hnote := restores_optional fun s hs =>
    hpart s (List.mem_append_left _ (Option.mem_toList.mpr hs))
  have hvalue := hpart binding.value (List.mem_append_right _ List.mem_cons_self)
  simp only [readBinding, bindingDocument, readName, readField, required, optional?_eq_bind,
    fields_object, lookup_cons, hfaithful.readText_writeText, part?_optionToDocument, ok_bind,
    String.reduceEq, if_true, if_false, Option.bind_some]
  refine Restores.congr (hnote.bind (hvalue.bind (.value rfl))) ?_
  simp [bindingParts, or_imp, forall_and]

theorem readOptionalText_optionalText {t : Option τ} (h : ∀ x ∈ t, leaves.writeText x ≠ .null) :
    readOptionalText leaves (optionalText leaves t).part? = .ok t := by
  cases t with
  | none => rfl
  | some t =>
    rw [optionalText, part?_eq_some (h t rfl), readOptionalText, hfaithful.readText_writeText]
    rfl

/-- A URL is read back, with its headers or without. -/
theorem readImportKind_urlToDocument {address : Url τ} (haddress : address.TellsAbsent leaves)
    {d : Document} {headers : Option (Import τ)}
    (h : readOptional read d.part? = .ok (headers.map .embedded)) :
    readImportKind leaves read (importKindToDocument.urlToDocument leaves address d) =
      .ok (headers.elim (.url address) (.urlUsing address)) := by
  have htext := hfaithful.readText_writeText
  have hpath : (address.path.map leaves.writeText).mapM leaves.readText = .ok address.path :=
    hfaithful.readTexts address.path
  have hoptional : ∀ o ∈ address.optionals,
      readOptionalText leaves (optionalText leaves o).part? = .ok o :=
    fun o ho => readOptionalText_optionalText hfaithful (haddress o ho)
  simp only [Url.optionals, List.forall_mem_cons] at hoptional
  obtain ⟨huserinfo, hport, hquery, -⟩ := hoptional
  cases headers with
  | none =>
    simp [importKindToDocument.urlToDocument, readImportKind, readRemote, readHeaders, readName,
      required, member, Scheme.ofName?_name, optionalItems, optional?_eq_bind, htext, hpath,
      huserinfo, hport, hquery, h]
    rfl
  | some headers =>
    simp [importKindToDocument.urlToDocument, readImportKind, readRemote, readHeaders, readName,
      required, member, Scheme.ofName?_name, optionalItems, optional?_eq_bind, htext, hpath,
      huserinfo, hport, hquery, h]
    rfl

theorem readImportKind_importKindToDocument {kind : ImportKind τ} (hkind : kind.TellsAbsent leaves)
    (hheaders : ∀ address headers, kind = .urlUsing address headers →
      read (importToDocument leaves headers) = .ok (.embedded headers)) :
    readImportKind leaves read (importKindToDocument leaves kind) = .ok kind := by
  have htext := hfaithful.readText_writeText
  have htexts := hfaithful.readTexts
  cases kind with
  | missing => rfl
  | path anchor components =>
    simp [importKindToDocument, readImportKind, required, member, Anchor.ofName?_name, htexts]
  | env name =>
    simp [importKindToDocument, readImportKind, readName, required, htext]
  | url address =>
    have hnone : readOptional read Document.null.part? =
        .ok ((none : Option (Import τ)).map .embedded) := rfl
    exact readImportKind_urlToDocument hfaithful hkind hnone
  | urlUsing address headers =>
    have hne : importToDocument leaves headers ≠ .null :=
      toDocument_ne_null (.embedded headers : Tree τ ν)
    have hsome : readOptional read (importToDocument leaves headers).part? =
        .ok ((some headers).map .embedded) := by
      rw [part?_eq_some hne, readOptional, hheaders address headers rfl]
      rfl
    exact readImportKind_urlToDocument hfaithful hkind.1 hsome

/-- A node is read back if the trees right below it are, and the headers if it is an import. -/
theorem restores_readNode {t : Tree τ ν} (habsent : t.TellsAbsent leaves)
    (hchild : ∀ s ∈ t.children, Rereads sound leaves read s)
    (hheaders : ∀ address headers hash mode,
      t = .embedded (.mk (.urlUsing address headers) hash mode) →
        read (importToDocument leaves headers) = .ok (.embedded headers)) :
    ∃ entries kind, toDocument leaves t = .object entries ∧
      lookup "kind" entries = some (.text kind) ∧
        Restores (t.EveryNumber sound) (readNode leaves read entries kind) t := by
  have htext := hfaithful.readText_writeText
  rw [everyNumber_iff]
  cases t with
  | «variable» name i =>
    refine ⟨_, _, rfl, rfl, ?_⟩
    refine Restores.congr (.value ?_) (by simp [number?, children])
    simp [readNode, readName, required, htext, index]
  | builtin name =>
    refine ⟨_, _, rfl, rfl, ?_⟩
    refine Restores.congr (.value ?_) (by simp [number?, children])
    simp [readNode, readName, required, htext]
  | lambda param domain body | pi param domain body =>
    refine ⟨_, _, rfl, rfl, ?_⟩
    have hdomain := hchild domain (by simp [children])
    have hbody := hchild body (by simp [children])
    simp only [readNode, readField, readName, required, lookup_cons, htext, ok_bind,
      String.reduceEq, if_true, if_false]
    exact Restores.congr (hdomain.bind (hbody.bind (.value rfl))) (by simp [number?, children])
  | app a b | annotated a b | projectionByType a b =>
    refine ⟨_, _, rfl, rfl, ?_⟩
    have ha := hchild a (by simp [children])
    have hb := hchild b (by simp [children])
    simp only [readNode, readField, required, lookup_cons, ok_bind, String.reduceEq, if_true,
      if_false]
    exact Restores.congr (ha.bind (hb.bind (.value rfl))) (by simp [number?, children])
  | letIn bindings body =>
    refine ⟨_, _, rfl, rfl, ?_⟩
    have hbindings := restores_bindings hfaithful fun s hs =>
      hchild s (List.mem_append_left _ hs)
    have hbody := hchild body (by simp [children])
    simp only [readNode, readField, required, lookup_cons, items_list, ok_bind, String.reduceEq,
      if_true, if_false]
    refine Restores.congr (hbindings.bind (hbody.bind (.value rfl))) ?_
    simp [number?, children, bindingParts, or_imp, forall_and]
  | conditional a b c =>
    refine ⟨_, _, rfl, rfl, ?_⟩
    have ha := hchild a (by simp [children])
    have hb := hchild b (by simp [children])
    have hc := hchild c (by simp [children])
    simp only [readNode, readField, required, lookup_cons, ok_bind, String.reduceEq, if_true,
      if_false]
    exact Restores.congr (ha.bind (hb.bind (hc.bind (.value rfl)))) (by simp [number?, children])
  | operation operator a b =>
    refine ⟨_, _, rfl, rfl, ?_⟩
    have ha := hchild a (by simp [children])
    have hb := hchild b (by simp [children])
    simp only [readNode, readField, required, lookup_cons, member, Operator.ofName?_name, ok_bind,
      String.reduceEq, if_true, if_false]
    exact Restores.congr (ha.bind (hb.bind (.value rfl))) (by simp [number?, children])
  | merge a b type =>
    refine ⟨_, _, rfl, rfl, ?_⟩
    have ha := hchild a (by simp [children])
    have hb := hchild b (by simp [children])
    have htype := restores_optional fun s hs =>
      hchild s (List.mem_append_right [a, b] (Option.mem_toList.mpr hs))
    simp only [readNode, readField, required, lookup_cons, optional?_eq_bind, Option.bind_some,
      part?_optionToDocument, ok_bind, String.reduceEq, if_true, if_false]
    exact Restores.congr (ha.bind (hb.bind (htype.bind (.value rfl)))) (by simp [number?, children])
  | toMap a type =>
    refine ⟨_, _, rfl, rfl, ?_⟩
    have ha := hchild a (by simp [children])
    have htype := restores_optional fun s hs =>
      hchild s (List.mem_cons_of_mem a (Option.mem_toList.mpr hs))
    simp only [readNode, readField, required, lookup_cons, optional?_eq_bind, Option.bind_some,
      part?_optionToDocument, ok_bind, String.reduceEq, if_true, if_false]
    exact Restores.congr (ha.bind (htype.bind (.value rfl))) (by simp [number?, children])
  | emptyList a | present a =>
    refine ⟨_, _, rfl, rfl, ?_⟩
    have ha := hchild a (by simp [children])
    simp only [readNode, readField, required, lookup_cons, ok_bind, String.reduceEq, if_true,
      if_false]
    exact Restores.congr (ha.bind (.value rfl)) (by simp [number?, children])
  | list elements =>
    refine ⟨_, _, rfl, rfl, ?_⟩
    have helements := restores_trees hchild
    simp only [readNode, required, lookup_cons, items_list, ok_bind, String.reduceEq, if_true,
      if_false]
    exact Restores.congr (helements.bind (.value rfl)) (by simp [number?, children])
  | recordType entries | record entries | union entries =>
    refine ⟨_, _, rfl, rfl, ?_⟩
    have hentries := restores_entries hfaithful hchild
    simp only [readNode, optionalItems, lookup_cons, Option.getD_some, items_list, ok_bind,
      String.reduceEq, if_true, if_false]
    exact Restores.congr (hentries.bind (.value rfl)) (by simp [number?, children])
  | field a label =>
    refine ⟨_, _, rfl, rfl, ?_⟩
    have ha := hchild a (by simp [children])
    simp only [readNode, readField, readName, required, lookup_cons, htext, ok_bind,
      String.reduceEq, if_true, if_false]
    exact Restores.congr (ha.bind (.value rfl)) (by simp [number?, children])
  | projection a labels =>
    refine ⟨_, _, rfl, rfl, ?_⟩
    have ha := hchild a (by simp [children])
    have hlabels : (labels.map leaves.writeText).mapM leaves.readText = .ok labels :=
      hfaithful.readTexts labels
    simp only [readNode, readField, required, lookup_cons, items_list, hlabels, ok_bind,
      String.reduceEq, if_true, if_false]
    exact Restores.congr (ha.bind (.value rfl)) (by simp [number?, children])
  | text chunks suffix =>
    refine ⟨_, _, rfl, rfl, ?_⟩
    have hchunks := restores_chunks hfaithful hchild
    simp only [readNode, optionalItems, lookup_cons, Option.getD_some, items_list, htext, ok_bind,
      String.reduceEq, if_true, if_false]
    exact Restores.congr (hchunks.bind (.value rfl)) (by simp [number?, children])
  | double value =>
    refine ⟨_, _, rfl, rfl, ?_⟩
    refine Restores.congr (.value ?_) (by simp [number?, children])
    simp [readNode, required, decimal, plainText?, Scalar.plainText?, Decimal.read?_text]
  | natural value | integer value =>
    refine ⟨_, _, rfl, rfl, ?_⟩
    have hvalue := hfaithful.restores_number value
    simp only [readNode, required, lookup_cons, ok_bind, String.reduceEq, if_true, if_false]
    exact Restores.congr (hvalue.bind (.value rfl)) (by simp [number?, children])
  | embedded value =>
    cases value with
    | mk kind hash mode =>
      refine ⟨_, _, rfl, rfl, ?_⟩
      have hkind := readImportKind_importKindToDocument hfaithful (habsent _ .whole)
        fun address headers hk => hheaders address headers hash mode (by rw [hk])
      refine Restores.congr (.value ?_) (by simp [number?, children])
      simp [readNode, required, optional?_eq_bind, hkind, digest_part?, Document.mode, member,
        ImportMode.ofName?_name]

end

/-- A tree is read back from its document, if the bound is no less than its depth, unless a number
in it is not sound. -/
theorem restores_readWithin {sound : ν → Prop} (hfaithful : leaves.Faithful sound) {n : Nat}
    {t : Tree τ ν} (h : t.depth ≤ n) (habsent : t.TellsAbsent leaves) :
    Restores (t.EveryNumber sound) (readWithin leaves n (toDocument leaves t)) t := by
  induction n generalizing t with
  | zero => exact absurd (depth_pos t) (by omega)
  | succ n ih =>
    have hchild : ∀ s ∈ t.children, Rereads sound leaves (readWithin leaves n) s := fun s hs =>
      ih (by have := depth_lt_of_mem_children hs; omega) (habsent.child hs)
    have hheaders : ∀ address headers hash mode,
        t = .embedded (.mk (.urlUsing address headers) hash mode) →
        readWithin leaves n (importToDocument leaves headers) = .ok (.embedded headers) := by
      rintro address headers hash mode rfl
      have hdepth : (embedded headers : Tree τ ν).depth ≤ n := Nat.le_of_succ_le_succ h
      have hurl := tellsAbsent_embedded.mp habsent
      have hread := ih hdepth (tellsAbsent_embedded.mpr hurl.2)
      exact hread.ok (everyNumber_iff.mpr ⟨fun _ hn => (by cases hn), fun _ hs => (by cases hs)⟩)
    obtain ⟨entries, kind, hd, hkind, hnode⟩ :=
      restores_readNode hfaithful habsent hchild hheaders
    rw [readWithin, hd, fields_object, ok_bind, required, hkind, ok_bind]
    exact hnode

/-- A tree is read back from its document, if the bound is no less than its depth. -/
theorem readWithin_toDocument (hexact : leaves.Exact) {n : Nat} {t : Tree τ ν}
    (h : t.depth ≤ n) : readWithin leaves n (toDocument leaves t) = .ok t :=
  (restores_readWithin hexact.faithful h fun i _ => i.tellsAbsent hexact.writeText_ne_null).ok
    fun _ _ _ _ => trivial

end Tree

end DhallSyntax
