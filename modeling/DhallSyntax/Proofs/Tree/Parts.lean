import DhallSyntax.Tree.Basic

/-!
What a tree is made of: the texts and the index of its root, the trees right below it, and from
these all of its parts.
-/

namespace DhallSyntax

/-! ## Texts of imports -/

namespace Url

variable {τ : Type}

/-- The parts of a URL that may be absent. -/
def optionals (u : Url τ) : List (Option τ) := [u.userinfo, u.port, u.query]

def texts (u : Url τ) : List τ :=
  u.userinfo.toList ++ u.host :: (u.port.toList ++ (u.path ++ u.query.toList))

end Url

mutual

/-- The names and texts of an import, and those of its headers. -/
def Import.texts {τ : Type} : Import τ → List τ
  | .mk kind _ _ => kind.texts

def ImportKind.texts {τ : Type} : ImportKind τ → List τ
  | .missing => []
  | .path _ components => components
  | .url address => address.texts
  | .urlUsing address headers => address.texts ++ headers.texts
  | .env name => [name]

end

namespace Tree

variable {τ ν : Type}

/-! ## The root -/

/-- The names and texts of the root. -/
def texts : Tree τ ν → List τ
  | .variable name _ | .builtin name | .lambda name _ _ | .pi name _ _ | .field _ name => [name]
  | .letIn bindings _ => bindings.map Binding.name
  | .recordType entries | .record entries | .union entries => entries.map Prod.fst
  | .projection _ labels => labels
  | .text chunks suffix => chunks.map Prod.fst ++ [suffix]
  | .embedded i => i.texts
  | .app .. | .conditional .. | .annotated .. | .operation .. | .merge .. | .toMap ..
  | .emptyList .. | .list .. | .present .. | .projectionByType .. | .double .. | .natural ..
  | .integer .. => []

/-- The index of a variable. -/
def index? : Tree τ ν → Option Int
  | .variable _ index => some index
  | _ => none

/-- The number of a literal. -/
def number? : Tree τ ν → Option ν
  | .natural n | .integer n => some n
  | _ => none

/-- The trees right below a node. -/
def children : Tree τ ν → List (Tree τ ν)
  | .variable .. | .builtin .. | .double .. | .natural .. | .integer .. | .embedded .. => []
  | .lambda _ a b | .pi _ a b | .app a b | .annotated a b | .operation _ a b
  | .projectionByType a b => [a, b]
  | .letIn bindings body =>
    bindings.flatMap (fun binding => binding.annotation.toList ++ [binding.value]) ++ [body]
  | .conditional a b c => [a, b, c]
  | .merge a b type => [a, b] ++ type.toList
  | .toMap a type => a :: type.toList
  | .emptyList a | .present a | .field a _ | .projection a _ => [a]
  | .list elements => elements
  | .recordType entries | .record entries | .union entries => entries.filterMap Prod.snd
  | .text chunks _ => chunks.map Prod.snd

/-- A tree is part of another one: it is that itself, or part of a tree right below its root. -/
inductive PartOf : Tree τ ν → Tree τ ν → Prop where
  | whole {t : Tree τ ν} : PartOf t t
  | inside {s u t : Tree τ ν} : u ∈ t.children → PartOf s u → PartOf s t

/-! ## Depths -/

theorem depth_pos (t : Tree τ ν) : 0 < t.depth := by
  cases t with
  | embedded i =>
    cases i
    exact Nat.succ_pos _
  | _ => exact Nat.succ_pos _

variable {n : Nat}

theorem optionDepth_le_iff {t : Option (Tree τ ν)} :
    optionDepth t ≤ n ↔ ∀ s ∈ t, s.depth ≤ n := by
  cases t <;> simp [optionDepth]

theorem listDepth_le_iff {ts : List (Tree τ ν)} :
    listDepth ts ≤ n ↔ ∀ t ∈ ts, t.depth ≤ n := by
  induction ts with
  | nil => simp [listDepth]
  | cons t ts ih => rw [listDepth, Nat.max_le, ih, List.forall_mem_cons]

theorem entriesDepth_le_iff {entries : List (τ × Option (Tree τ ν))} :
    entriesDepth entries ≤ n ↔ ∀ entry ∈ entries, optionDepth entry.2 ≤ n := by
  induction entries with
  | nil => simp [entriesDepth]
  | cons entry entries ih => rw [entriesDepth, Nat.max_le, ih, List.forall_mem_cons]

theorem chunksDepth_le_iff {chunks : List (τ × Tree τ ν)} :
    chunksDepth chunks ≤ n ↔ ∀ chunk ∈ chunks, chunk.2.depth ≤ n := by
  induction chunks with
  | nil => simp [chunksDepth]
  | cons chunk chunks ih => rw [chunksDepth, Nat.max_le, ih, List.forall_mem_cons]

theorem bindingsDepth_le_iff {bindings : List (Binding τ (Tree τ ν))} :
    bindingsDepth bindings ≤ n ↔
      ∀ binding ∈ bindings, optionDepth binding.annotation ≤ n ∧ binding.value.depth ≤ n := by
  induction bindings with
  | nil => simp [bindingsDepth]
  | cons binding bindings ih =>
    rw [bindingsDepth, Nat.max_le, Nat.max_le, ih, List.forall_mem_cons, and_assoc]

/-- The depth of a node is bounded by those of the trees right below it. An import has none, but may
have headers. -/
theorem depth_le_succ_iff {t : Tree τ ν} (h : ∀ i, t ≠ .embedded i) :
    t.depth ≤ n + 1 ↔ ∀ s ∈ t.children, s.depth ≤ n := by
  cases t with
  | embedded i => exact absurd rfl (h i)
  | letIn bindings body =>
    simp only [depth, children, Nat.add_le_add_iff_right, Nat.max_le, bindingsDepth_le_iff,
      optionDepth_le_iff, List.forall_mem_append, List.forall_mem_flatMap, Option.mem_toList,
      Option.mem_def, List.forall_mem_singleton]
  | merge a b type | toMap a type =>
    simp [depth, children, Nat.max_le, optionDepth_le_iff, or_imp, forall_and]
  | list elements => simp [depth, children, listDepth_le_iff]
  | recordType entries | record entries | union entries =>
    simp only [depth, children, Nat.add_le_add_iff_right, entriesDepth_le_iff, optionDepth_le_iff,
      List.forall_mem_filterMap, Option.mem_def]
  | text chunks suffix =>
    simp only [depth, children, Nat.add_le_add_iff_right, chunksDepth_le_iff, List.forall_mem_map]
  | _ => simp [depth, children, Nat.max_le]

theorem depth_lt_of_mem_children {s t : Tree τ ν} (h : s ∈ t.children) : s.depth < t.depth := by
  have hne : ∀ i, t ≠ .embedded i := by
    rintro i rfl
    cases h
  obtain ⟨n, hn⟩ := Nat.exists_eq_succ_of_ne_zero (Nat.ne_of_gt (depth_pos t))
  have hs := (depth_le_succ_iff hne).mp (Nat.le_of_eq hn) s h
  omega

end Tree

end DhallSyntax
