import DhallSyntax.Document.Writer
import DhallSyntax.Proofs.Document.RoundTrip

/-!
The shape of the documents of trees: objects with some of the fields of the nodes, lists that hold
no lists, texts, whole numbers and nothing. Main statement: `shaped_toDocument`, with at most three
levels for each level of the tree.
-/

namespace DhallSyntax

namespace Document

/-- The keys of the objects that nodes and their parts are written as. -/
def fieldNames : List String :=
  ["kind", "name", "index", "param", "param_type", "body", "fn", "arg", "bindings", "annotation",
   "value", "condition", "true_branch", "false_branch", "expression", "op", "lhs", "rhs",
   "handler", "union", "element_type", "elements", "fields", "alternatives", "record", "label",
   "labels", "selector", "chunks", "text", "suffix", "import_kind", "hash", "mode", "anchor",
   "components", "scheme", "userinfo", "host", "port", "path", "query", "headers"]

def IsFieldKey : Scalar → Prop
  | .text key => key ∈ fieldNames
  | _ => False

@[simp] theorem isFieldKey_text {key : String} : IsFieldKey (.text key) ↔ key ∈ fieldNames :=
  Iff.rfl

theorem IsFieldKey.exists_text {s : Scalar} (h : IsFieldKey s) : ∃ key, s = .text key := by
  cases s <;> first | exact ⟨_, rfl⟩ | exact h.elim

/-- The scalars of trees. -/
inductive IsLeaf : Scalar → Prop
  | null : IsLeaf .null
  | int {n : Int} : IsLeaf (.int n)
  | text {s : String} : IsLeaf (.text s)

/-- Documents of leaves with at most `n` lists and objects inside each other. -/
inductive Shaped : (n : Nat) → Document → Prop
  | scalar {n : Nat} {s : Scalar} : IsLeaf s → Shaped n (.scalar s)
  | list {n : Nat} {items : List Document} :
      (∀ item ∈ items, Shaped n item) → (∀ item ∈ items, ∀ parts, item ≠ .list parts) →
      Shaped (n + 1) (.list items)
  | object {n : Nat} {entries : List (Scalar × Document)} : entries ≠ [] →
      (∀ e ∈ entries, IsFieldKey e.1) → (entries.map Prod.fst).Nodup →
      (∀ e ∈ entries, Shaped n e.2) → Shaped (n + 1) (.object entries)

namespace Shaped

attribute [simp] IsLeaf.null IsLeaf.int IsLeaf.text

@[simp] theorem scalar_iff {n : Nat} {s : Scalar} : Shaped n (.scalar s) ↔ IsLeaf s :=
  ⟨fun h => by cases h; assumption, .scalar⟩

/-- A list of the documents of some parts. -/
theorem list_map {n : Nat} {α : Type} {f : α → Document} {parts : List α}
    (h : ∀ a ∈ parts, Shaped n (f a)) (hlists : ∀ a ∈ parts, ∀ items, f a ≠ .list items) :
    Shaped (n + 1) (.list (parts.map f)) := by
  refine .list ?_ ?_
  · exact List.forall_mem_map.mpr h
  · exact List.forall_mem_map.mpr hlists

@[simp] theorem object_iff {n : Nat} {entries : List (Scalar × Document)} :
    Shaped (n + 1) (.object entries) ↔ entries ≠ [] ∧
      (∀ e ∈ entries, IsFieldKey e.1) ∧ (entries.map Prod.fst).Nodup ∧
        ∀ e ∈ entries, Shaped n e.2 :=
  ⟨fun h => by cases h; exact ⟨‹_›, ‹_›, ‹_›, ‹_›⟩,
    fun ⟨hne, hkey, hnodup, hvalue⟩ => .object hne hkey hnodup hvalue⟩

theorem mono {m n : Nat} {d : Document} (h : Shaped m d) (hmn : m ≤ n) : Shaped n d := by
  induction h generalizing n with
  | scalar hs => exact .scalar hs
  | list _ hlists ih =>
    obtain ⟨n, rfl⟩ := Nat.exists_eq_succ_of_ne_zero (Nat.ne_of_gt (Nat.zero_lt_of_lt hmn))
    exact .list (fun item hi => ih item hi (Nat.le_of_succ_le_succ hmn)) hlists
  | object hne hkey hnodup _ ih =>
    obtain ⟨n, rfl⟩ := Nat.exists_eq_succ_of_ne_zero (Nat.ne_of_gt (Nat.zero_lt_of_lt hmn))
    exact .object hne hkey hnodup fun e he => ih e he (Nat.le_of_succ_le_succ hmn)

end Shaped

end Document

open Document (Shaped fieldNames)

namespace Tree

variable {k m : Nat}

@[simp] theorem shaped_writeText (n : Nat) (s : String) : Shaped n (Leaves.strict.writeText s) :=
  .scalar .text

/-- Every node is written as an object. -/
theorem exists_entries (t : Expr) : ∃ entries, toDocument .strict t = .object entries := by
  cases t with
  | embedded value =>
    cases value
    exact ⟨_, rfl⟩
  | _ => exact ⟨_, rfl⟩

theorem toDocument_ne_list (t : Expr) (items : List Document) :
    toDocument .strict t ≠ .list items := by
  obtain ⟨entries, h⟩ := exists_entries t
  rw [h]
  nofun

theorem shaped_texts (n : Nat) (ts : List String) :
    Shaped (n + 1) (.list (ts.map Leaves.strict.writeText)) :=
  .list_map (fun _ _ => .scalar .text) fun _ _ => nofun

theorem shaped_optionalText (n : Nat)
    (t : Option String) : Shaped n (optionalText .strict t) := by
  cases t with
  | none => exact .scalar .null
  | some t => exact .scalar .text

section

variable (hsub : ∀ t : Expr, t.depth ≤ k → Shaped m (toDocument .strict t))

include hsub

theorem shaped_option {t : Option Expr} (h : optionDepth t ≤ k) :
    Shaped m (optionToDocument .strict t) := by
  cases t with
  | none => exact .scalar .null
  | some t => exact hsub t h

theorem shaped_trees {ts : List (Expr)} (h : listDepth ts ≤ k) :
    Shaped (m + 2) (.list (toDocuments .strict ts)) := by
  rw [toDocuments_eq_map]
  exact .list_map (fun t ht => (hsub t (listDepth_le_iff.mp h t ht)).mono (Nat.le_succ m))
    fun t _ => toDocument_ne_list t

theorem shaped_entries {entries : List (String × Option Expr)} (h : entriesDepth entries ≤ k) :
    Shaped (m + 2) (.list (entriesToDocuments .strict entries)) := by
  rw [entriesToDocuments_eq_map]
  refine .list_map (fun entry he => ?_) fun _ _ => nofun
  have hvalue := shaped_option hsub (entriesDepth_le_iff.mp h entry he)
  simp [fieldNames, entryDocument, hvalue]

theorem shaped_chunks {chunks : List (String × Expr)} (h : chunksDepth chunks ≤ k) :
    Shaped (m + 2) (.list (chunksToDocuments .strict chunks)) := by
  rw [chunksToDocuments_eq_map]
  refine .list_map (fun chunk hc => ?_) fun _ _ => nofun
  have hvalue := hsub chunk.2 (chunksDepth_le_iff.mp h chunk hc)
  simp [fieldNames, chunkDocument, hvalue]

theorem shaped_bindings {bindings : List (Binding String (Expr))} (h : bindingsDepth bindings ≤ k) :
    Shaped (m + 2) (.list (bindingsToDocuments .strict bindings)) := by
  rw [bindingsToDocuments_eq_map]
  refine .list_map (fun binding hb => ?_) fun _ _ => nofun
  obtain ⟨hnote, hvalue⟩ := bindingsDepth_le_iff.mp h binding hb
  have hnote := shaped_option hsub hnote
  have hvalue := hsub binding.value hvalue
  simp [fieldNames, bindingDocument, hnote, hvalue]

theorem shaped_importKind {kind : ImportKind String} (h : Import.kindDepth kind ≤ k) :
    Shaped (m + 2) (importKindToDocument .strict kind) := by
  have hurl : ∀ (address : Url String) (headers : Document), Shaped (m + 1) headers →
      Shaped (m + 2) (importKindToDocument.urlToDocument .strict address headers) := by
    intro address headers hheaders
    simp [fieldNames, importKindToDocument.urlToDocument, shaped_texts, shaped_optionalText,
      hheaders]
  cases kind with
  | missing => simp [fieldNames, importKindToDocument]
  | path anchor components =>
    simp [fieldNames, importKindToDocument, shaped_texts]
  | url address => exact hurl address .null (.scalar .null)
  | urlUsing address headers =>
    exact hurl address _ ((hsub (.embedded headers) h).mono (Nat.le_succ m))
  | env name =>
    simp [fieldNames, importKindToDocument]

/-- A node takes at most three levels: an object, a list of parts, and an object for a part. -/
theorem shaped_succ {t : Expr} (h : t.depth ≤ k + 1) :
    Shaped (m + 3) (toDocument .strict t) := by
  have hsub' : ∀ t : Expr, t.depth ≤ k → Shaped (m + 2) (toDocument .strict t) :=
    fun t ht => (hsub t ht).mono (Nat.le_add_right m 2)
  cases t with
  | «variable» name i =>
    simp [fieldNames, toDocument]
  | builtin name => simp [fieldNames, toDocument]
  | lambda param a b | pi param a b =>
    simp only [depth] at h
    have ha := hsub' a (by omega)
    have hb := hsub' b (by omega)
    simp [fieldNames, toDocument, ha, hb]
  | app a b | annotated a b | operation operator a b | projectionByType a b =>
    simp only [depth] at h
    have ha := hsub' a (by omega)
    have hb := hsub' b (by omega)
    simp [fieldNames, toDocument, ha, hb]
  | letIn bindings body =>
    simp only [depth] at h
    have hparts : bindingsDepth bindings ≤ k := by omega
    have hs := shaped_bindings hsub hparts
    have hb := hsub' body (by omega)
    simp [fieldNames, toDocument, hs, hb]
  | conditional a b c =>
    simp only [depth] at h
    have ha := hsub' a (by omega)
    have hb := hsub' b (by omega)
    have hc := hsub' c (by omega)
    simp [fieldNames, toDocument, ha, hb, hc]
  | merge a b type =>
    simp only [depth] at h
    have ha := hsub' a (by omega)
    have hb := hsub' b (by omega)
    have htype : optionDepth type ≤ k := by omega
    have ht := shaped_option hsub' htype
    simp [fieldNames, toDocument, ha, hb, ht]
  | toMap a type =>
    simp only [depth] at h
    have ha := hsub' a (by omega)
    have htype : optionDepth type ≤ k := by omega
    have ht := shaped_option hsub' htype
    simp [fieldNames, toDocument, ha, ht]
  | emptyList a | present a =>
    have ha := hsub' a (Nat.le_of_succ_le_succ h)
    simp [fieldNames, toDocument, ha]
  | list elements =>
    have hs := shaped_trees hsub (Nat.le_of_succ_le_succ h)
    simp [fieldNames, toDocument, hs]
  | recordType entries | record entries | union entries =>
    have hs := shaped_entries hsub (Nat.le_of_succ_le_succ h)
    simp [fieldNames, toDocument, hs]
  | field a label =>
    have ha := hsub' a (Nat.le_of_succ_le_succ h)
    simp [fieldNames, toDocument, ha]
  | projection a labels =>
    have ha := hsub' a (Nat.le_of_succ_le_succ h)
    simp [fieldNames, toDocument, shaped_texts, ha]
  | text chunks suffix =>
    have hs := shaped_chunks hsub (Nat.le_of_succ_le_succ h)
    simp [fieldNames, toDocument, hs]
  | double value | natural value | integer value => simp [fieldNames, toDocument]
  | embedded value =>
    cases value with
    | mk kind hash mode =>
      have hkind : Import.kindDepth kind ≤ k := Nat.le_of_succ_le_succ h
      have hk := shaped_importKind hsub hkind
      cases hash <;> simp [fieldNames, toDocument, importToDocument, hk]

end

/-- The document of a tree has at most three levels for each level of the tree. -/
theorem shaped_toDocument {t : Expr} (h : t.depth ≤ k) : Shaped (3 * k) (toDocument .strict t) := by
  induction k generalizing t with
  | zero => exact absurd (depth_pos t) (by omega)
  | succ k ih => exact shaped_succ (fun t ht => ih ht) h

end Tree

end DhallSyntax
