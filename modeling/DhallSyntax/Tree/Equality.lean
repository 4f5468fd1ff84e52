import DhallSyntax.Tree.Basic

/-!
Equality of trees, node by node. Main statement: `same_iff`, the comparison holds of equal trees
only. Doubles are compared as they are written, so that no number equals itself and the two zeros
differ.
-/

namespace DhallSyntax.Tree

variable {τ ν : Type} [DecidableEq τ] [DecidableEq ν]

mutual

/-- Compares two trees. -/
def same : Tree τ ν → Tree τ ν → Bool
  | .variable n i, t => match t with
    | .variable m j => n = m && i = j
    | _ => false
  | .builtin n, t => match t with
    | .builtin m => n = m
    | _ => false
  | .lambda n a b, t => match t with
    | .lambda m c d => n = m && same a c && same b d
    | _ => false
  | .pi n a b, t => match t with
    | .pi m c d => n = m && same a c && same b d
    | _ => false
  | .app a b, t => match t with
    | .app c d => same a c && same b d
    | _ => false
  | .letIn bs a, t => match t with
    | .letIn cs c => sameBindings bs cs && same a c
    | _ => false
  | .conditional a b c, t => match t with
    | .conditional d e f => same a d && same b e && same c f
    | _ => false
  | .annotated a b, t => match t with
    | .annotated c d => same a c && same b d
    | _ => false
  | .operation p a b, t => match t with
    | .operation q c d => p = q && same a c && same b d
    | _ => false
  | .merge a b o, t => match t with
    | .merge c d p => same a c && same b d && sameOption o p
    | _ => false
  | .toMap a o, t => match t with
    | .toMap c p => same a c && sameOption o p
    | _ => false
  | .emptyList a, t => match t with
    | .emptyList c => same a c
    | _ => false
  | .list as, t => match t with
    | .list cs => sameList as cs
    | _ => false
  | .present a, t => match t with
    | .present c => same a c
    | _ => false
  | .recordType as, t => match t with
    | .recordType cs => sameEntries as cs
    | _ => false
  | .record as, t => match t with
    | .record cs => sameEntries as cs
    | _ => false
  | .union as, t => match t with
    | .union cs => sameEntries as cs
    | _ => false
  | .field a n, t => match t with
    | .field c m => same a c && n = m
    | _ => false
  | .projection a ns, t => match t with
    | .projection c ms => same a c && ns = ms
    | _ => false
  | .projectionByType a b, t => match t with
    | .projectionByType c d => same a c && same b d
    | _ => false
  | .text as n, t => match t with
    | .text cs m => sameChunks as cs && n = m
    | _ => false
  | .double x, t => match t with
    | .double y => x = y
    | _ => false
  | .natural x, t => match t with
    | .natural y => x = y
    | _ => false
  | .integer x, t => match t with
    | .integer y => x = y
    | _ => false
  | .embedded i, t => match t with
    | .embedded j => i = j
    | _ => false

def sameOption : Option (Tree τ ν) → Option (Tree τ ν) → Bool
  | none, none => true
  | some a, some b => same a b
  | _, _ => false

def sameList : List (Tree τ ν) → List (Tree τ ν) → Bool
  | [], [] => true
  | a :: as, b :: bs => same a b && sameList as bs
  | _, _ => false

def sameEntries : List (τ × Option (Tree τ ν)) → List (τ × Option (Tree τ ν)) → Bool
  | [], [] => true
  | (n, a) :: as, (m, b) :: bs => n = m && sameOption a b && sameEntries as bs
  | _, _ => false

def sameChunks : List (τ × Tree τ ν) → List (τ × Tree τ ν) → Bool
  | [], [] => true
  | (n, a) :: as, (m, b) :: bs => n = m && same a b && sameChunks as bs
  | _, _ => false

def sameBindings : List (Binding τ (Tree τ ν)) → List (Binding τ (Tree τ ν)) → Bool
  | [], [] => true
  | ⟨n, o, a⟩ :: as, ⟨m, p, b⟩ :: bs => n = m && sameOption o p && same a b && sameBindings as bs
  | _, _ => false

end

mutual

theorem same_iff : ∀ a b : Tree τ ν, same a b = true ↔ a = b
  | .variable n i, t => by cases t <;> simp [same]
  | .builtin n, t => by cases t <;> simp [same]
  | .lambda n a b, t => by cases t <;> simp [same, same_iff a, same_iff b, and_assoc]
  | .pi n a b, t => by cases t <;> simp [same, same_iff a, same_iff b, and_assoc]
  | .app a b, t => by cases t <;> simp [same, same_iff a, same_iff b]
  | .letIn bs a, t => by cases t <;> simp [same, sameBindings_iff bs, same_iff a]
  | .conditional a b c, t => by
    cases t <;> simp [same, same_iff a, same_iff b, same_iff c, and_assoc]
  | .annotated a b, t => by cases t <;> simp [same, same_iff a, same_iff b]
  | .operation p a b, t => by cases t <;> simp [same, same_iff a, same_iff b, and_assoc]
  | .merge a b o, t => by
    cases t <;> simp [same, same_iff a, same_iff b, sameOption_iff o, and_assoc]
  | .toMap a o, t => by cases t <;> simp [same, same_iff a, sameOption_iff o]
  | .emptyList a, t => by cases t <;> simp [same, same_iff a]
  | .list as, t => by cases t <;> simp [same, sameList_iff as]
  | .present a, t => by cases t <;> simp [same, same_iff a]
  | .recordType as, t => by cases t <;> simp [same, sameEntries_iff as]
  | .record as, t => by cases t <;> simp [same, sameEntries_iff as]
  | .union as, t => by cases t <;> simp [same, sameEntries_iff as]
  | .field a n, t => by cases t <;> simp [same, same_iff a]
  | .projection a ns, t => by cases t <;> simp [same, same_iff a]
  | .projectionByType a b, t => by cases t <;> simp [same, same_iff a, same_iff b]
  | .text as n, t => by cases t <;> simp [same, sameChunks_iff as]
  | .double x, t => by cases t <;> simp [same]
  | .natural x, t => by cases t <;> simp [same]
  | .integer x, t => by cases t <;> simp [same]
  | .embedded i, t => by cases t <;> simp [same]

theorem sameOption_iff : ∀ a b : Option (Tree τ ν), sameOption a b = true ↔ a = b
  | none, b => by cases b <;> simp [sameOption]
  | some a, b => by cases b <;> simp [sameOption, same_iff a]

theorem sameList_iff : ∀ a b : List (Tree τ ν), sameList a b = true ↔ a = b
  | [], b => by cases b <;> simp [sameList]
  | a :: as, b => by cases b <;> simp [sameList, same_iff a, sameList_iff as]

theorem sameEntries_iff :
    ∀ a b : List (τ × Option (Tree τ ν)), sameEntries a b = true ↔ a = b
  | [], b => by cases b <;> simp [sameEntries]
  | (n, a) :: as, b => by
    rcases b with _ | ⟨⟨m, b⟩, bs⟩ <;>
      simp [sameEntries, sameOption_iff a, sameEntries_iff as]

theorem sameChunks_iff : ∀ a b : List (τ × Tree τ ν), sameChunks a b = true ↔ a = b
  | [], b => by cases b <;> simp [sameChunks]
  | (n, a) :: as, b => by
    rcases b with _ | ⟨⟨m, b⟩, bs⟩ <;> simp [sameChunks, same_iff a, sameChunks_iff as]

theorem sameBindings_iff :
    ∀ a b : List (Binding τ (Tree τ ν)), sameBindings a b = true ↔ a = b
  | [], b => by cases b <;> simp [sameBindings]
  | ⟨n, o, a⟩ :: as, b => by
    rcases b with _ | ⟨⟨m, p, b⟩, bs⟩ <;>
      simp [sameBindings, sameOption_iff o, same_iff a, sameBindings_iff as, and_assoc]

end

instance : DecidableEq (Tree τ ν) := fun a b =>
  decidable_of_iff (same a b = true) (same_iff a b)

end DhallSyntax.Tree
