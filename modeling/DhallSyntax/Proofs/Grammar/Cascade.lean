import DhallSyntax.Grammar.Chain

/-!
Chains of operators. The reference grammar reads them level by level, from the loosest operator to
the tightest, and each level folds its operands to the left. Main statements:

* `ChainTree.eq_of_reading`: a sequence of operands and operators has one tree that binds right;
* `chain_eq_cascade`: closing pending operators in one pass builds that tree, and so do the levels
  of the reference grammar; kept on two stacks, no operand is ever missing.
-/

namespace DhallSyntax

variable {α β : Type}

/-! ## Trees -/

/-- The tree of a chain. Its operands are opaque. -/
inductive ChainTree (α : Type) where
  | operand (a : α)
  | apply (op : Operator) (left right : ChainTree α)

/-- Operands and operators in turn. -/
def chainItems (first : α) (rest : List (Operator × α)) : List (α ⊕ Operator) :=
  .inl first :: rest.flatMap fun p => [.inr p.1, .inl p.2]

namespace ChainTree

/-- Applies the operators. -/
def eval (build : Operator → α → α → α) : ChainTree α → α
  | operand a => a
  | apply op left right => build op (left.eval build) (right.eval build)

/-- The operands and operators from left to right. -/
def reading : ChainTree α → List (α ⊕ Operator)
  | operand a => [.inl a]
  | apply op left right => left.reading ++ .inr op :: right.reading

def root? : ChainTree α → Option Operator
  | operand _ => none
  | apply op _ _ => some op

/-- The root binds at least as tightly as a rank, if it is an operator. -/
def AtLeast (rank : Nat) (t : ChainTree α) : Prop := ∀ op ∈ t.root?, rank ≤ op.precedence

/-- No operator has a looser one at the root of its left operand, or one that is looser or equal at
the root of its right operand. -/
def Binds : ChainTree α → Prop
  | operand _ => True
  | apply op left right =>
    left.Binds ∧ right.Binds ∧ left.AtLeast op.precedence ∧ right.AtLeast (op.precedence + 1)

theorem AtLeast.mono {t : ChainTree α} {m n : Nat} (h : t.AtLeast n) (hmn : m ≤ n) : t.AtLeast m :=
  fun op hop => Nat.le_trans hmn (h op hop)

theorem atLeast_operand (rank : Nat) (a : α) : (operand a).AtLeast rank := fun _ h => nomatch h

theorem atLeast_apply {rank : Nat} {op : Operator} {left right : ChainTree α} :
    (apply op left right).AtLeast rank ↔ rank ≤ op.precedence := by
  simp [AtLeast, root?]

/-- In a tree that binds right the root is the loosest operator. -/
theorem Binds.le_of_mem {t : ChainTree α} (h : t.Binds) {rank : Nat} (hr : t.AtLeast rank)
    {op : Operator} (hop : .inr op ∈ t.reading) : rank ≤ op.precedence := by
  induction t generalizing rank with
  | operand a => simp [reading] at hop
  | apply root left right ihl ihr =>
    obtain ⟨hl, hr', hle, hlt⟩ := h
    have hroot := atLeast_apply.mp hr
    simp only [reading, List.mem_append, List.mem_cons, Sum.inr.injEq] at hop
    obtain hop | rfl | hop := hop
    · exact ihl hl (hle.mono hroot) hop
    · exact hroot
    · exact ihr hr' (hlt.mono (by omega)) hop

/-- The root is where the last of the loosest operators stands. -/
theorem split_eq {xs ys xs' ys' : List (α ⊕ Operator)} {op op' : Operator}
    (h : xs ++ .inr op :: ys = xs' ++ .inr op' :: ys')
    (hx : ∀ o, .inr o ∈ xs → op.precedence ≤ o.precedence)
    (hy : ∀ o, .inr o ∈ ys → op.precedence < o.precedence)
    (hx' : ∀ o, .inr o ∈ xs' → op'.precedence ≤ o.precedence)
    (hy' : ∀ o, .inr o ∈ ys' → op'.precedence < o.precedence) :
    xs = xs' ∧ op = op' ∧ ys = ys' := by
  obtain ⟨as, rfl, he⟩ | ⟨as, rfl, he⟩ := List.append_eq_append_iff.mp h
  · cases as with
    | nil => simpa using he
    | cons a as =>
      rw [List.cons_append, List.cons.injEq] at he
      obtain ⟨rfl, rfl⟩ := he
      have hle := hx' op (by simp)
      have hlt := hy op' (by simp)
      omega
  · cases as with
    | nil => simpa [eq_comm] using he
    | cons a as =>
      rw [List.cons_append, List.cons.injEq] at he
      obtain ⟨rfl, rfl⟩ := he
      have hle := hx op' (by simp)
      have hlt := hy' op (by simp)
      omega

theorem reading_ne_nil (t : ChainTree α) : t.reading ≠ [] := by
  cases t <;> simp [reading]

/-- A sequence has at most one tree that binds right. -/
theorem eq_of_reading {t u : ChainTree α} (ht : t.Binds) (hu : u.Binds)
    (h : t.reading = u.reading) : t = u := by
  induction t generalizing u with
  | operand a =>
    cases u with
    | operand b =>
      cases h
      rfl
    | apply op left right =>
      have hl := congrArg List.length h
      have hn := List.length_pos_iff.mpr left.reading_ne_nil
      simp [reading] at hl
      omega
  | apply op left right ihl ihr =>
    cases u with
    | operand b =>
      have hl := congrArg List.length h
      have hn := List.length_pos_iff.mpr left.reading_ne_nil
      simp [reading] at hl
      omega
    | apply op' left' right' =>
      obtain ⟨hl, hr, hle, hlt⟩ := ht
      obtain ⟨hl', hr', hle', hlt'⟩ := hu
      obtain ⟨hleft, rfl, hright⟩ := split_eq h (fun _ => hl.le_of_mem hle)
        (fun _ => hr.le_of_mem hlt) (fun _ => hl'.le_of_mem hle') fun _ => hr'.le_of_mem hlt'
      rw [ihl hl hl' hleft, ihr hr hr' hright]

end ChainTree

/-! ## Pending operators -/

namespace Pending

open ChainTree (AtLeast)

/-- What has been read of a chain, up to the last operator. -/
def readBefore : List (ChainTree α × Operator) → List (α ⊕ Operator)
  | [] => []
  | (left, op) :: before => readBefore before ++ left.reading ++ [.inr op]

/-- Pending operators bind tighter and tighter, each at most as tightly as the operators of its
left operand. -/
def Stacked : List (ChainTree α × Operator) → Prop
  | [] => True
  | (left, op) :: before =>
    left.Binds ∧ left.AtLeast op.precedence ∧ (∀ p ∈ before.head?, p.2.precedence < op.precedence) ∧
      Stacked before

theorem closeFrom_reading (rank : Nat) (before : List (ChainTree α × Operator))
    (last : ChainTree α) :
    readBefore (closeFrom .apply rank before last).before ++
        (closeFrom .apply rank before last).last.reading =
      readBefore before ++ last.reading := by
  induction before generalizing last with
  | nil => rfl
  | cons p before ih =>
    obtain ⟨left, op⟩ := p
    rw [closeFrom]
    split
    · rw [ih]
      simp [readBefore, ChainTree.reading]
    · rfl

/-- Closing keeps the order of the pending operators and leaves only looser ones than the rank. -/
theorem closeFrom_stacked {rank : Nat} {before : List (ChainTree α × Operator)}
    {last : ChainTree α} (hs : Stacked before) (hl : last.Binds) (hr : last.AtLeast rank)
    (ht : ∀ p ∈ before.head?, last.AtLeast (p.2.precedence + 1)) :
    Stacked (closeFrom .apply rank before last).before ∧
      (closeFrom .apply rank before last).last.Binds ∧
      (closeFrom .apply rank before last).last.AtLeast rank ∧
      ∀ p ∈ (closeFrom .apply rank before last).before.head?, p.2.precedence < rank := by
  induction before generalizing last with
  | nil => exact ⟨trivial, hl, hr, fun _ h => nomatch h⟩
  | cons p before ih =>
    obtain ⟨left, op⟩ := p
    have hlast : last.AtLeast (op.precedence + 1) := ht (left, op) rfl
    rw [closeFrom]
    split
    · rename_i hop
      obtain ⟨hb, hle, hbelow, hs⟩ := hs
      refine ih hs ⟨hb, hl, hle, hlast⟩ (ChainTree.atLeast_apply.mpr hop) fun q hq => ?_
      exact ChainTree.atLeast_apply.mpr (hbelow q hq)
    · rename_i hop
      refine ⟨hs, hl, hr, fun q hq => ?_⟩
      cases hq
      exact Nat.lt_of_not_le hop

/-- What holds of a chain after each operand: pending operators are in order, and the operand has
not been applied to. -/
structure Ready (chain : Pending (ChainTree α)) (read : List (α ⊕ Operator)) : Prop where
  stacked : Stacked chain.before
  last : ∃ a, chain.last = .operand a
  reading : readBefore chain.before ++ chain.last.reading = read

theorem ready_start (first : α) : Ready (start (.operand first)) [.inl first] :=
  ⟨trivial, ⟨first, rfl⟩, rfl⟩

theorem Ready.closed {chain : Pending (ChainTree α)} {read : List (α ⊕ Operator)}
    (h : chain.Ready read) (rank : Nat) :
    Stacked (closeFrom .apply rank chain.before chain.last).before ∧
      (closeFrom .apply rank chain.before chain.last).last.Binds ∧
      (closeFrom .apply rank chain.before chain.last).last.AtLeast rank ∧
      ∀ p ∈ (closeFrom .apply rank chain.before chain.last).before.head?,
        p.2.precedence < rank := by
  obtain ⟨a, ha⟩ := h.last
  rw [ha]
  exact closeFrom_stacked h.stacked trivial (ChainTree.atLeast_operand _ a)
    fun _ _ => ChainTree.atLeast_operand _ a

theorem Ready.push {chain : Pending (ChainTree α)} {read : List (α ⊕ Operator)}
    (h : chain.Ready read) (op : Operator) (right : α) :
    (chain.push .apply op (.operand right)).Ready (read ++ [.inr op, .inl right]) := by
  obtain ⟨hs, hb, hr, hlt⟩ := h.closed op.precedence
  refine ⟨⟨hb, hr, hlt, hs⟩, ⟨right, rfl⟩, ?_⟩
  simp only [Pending.push, readBefore, closeFrom_reading, h.reading]
  simp [ChainTree.reading]

/-- At the end nothing is pending. -/
theorem closeFrom_zero (build : Operator → α → α → α) (before : List (α × Operator)) (last : α) :
    (closeFrom build 0 before last).before = [] := by
  induction before generalizing last with
  | nil => rfl
  | cons p before ih =>
    rw [closeFrom, if_pos (Nat.zero_le _)]
    exact ih _

theorem Ready.close {chain : Pending (ChainTree α)} {read : List (α ⊕ Operator)}
    (h : chain.Ready read) :
    (chain.close .apply).Binds ∧ (chain.close .apply).reading = read := by
  obtain ⟨-, hb, -, -⟩ := h.closed 0
  refine ⟨hb, ?_⟩
  rw [← h.reading, ← closeFrom_reading 0 chain.before chain.last, closeFrom_zero]
  rfl

/-- The chain after some operators and their right operands. -/
def pushAll (build : Operator → α → α → α) (chain : Pending α) (rest : List (Operator × α)) :
    Pending α :=
  rest.foldl (fun chain p => chain.push build p.1 p.2) chain

theorem Ready.pushAll {chain : Pending (ChainTree α)} {read : List (α ⊕ Operator)}
    (h : chain.Ready read) (rest : List (Operator × α)) :
    (chain.pushAll .apply (rest.map fun p => (p.1, .operand p.2))).Ready
      (read ++ rest.flatMap fun p => [.inr p.1, .inl p.2]) := by
  induction rest generalizing chain read with
  | nil => simpa [Pending.pushAll] using h
  | cons p rest ih =>
    have h' := ih (h.push p.1 p.2)
    rwa [List.append_assoc] at h'

/-! Chains of trees and of their values -/

/-- The chain of values. -/
def map (f : α → β) (chain : Pending α) : Pending β :=
  ⟨chain.before.map fun p => (f p.1, p.2), f chain.last⟩

section

variable {build : Operator → α → α → α} {build' : Operator → β → β → β} {f : α → β}
  (hf : ∀ op left right, f (build op left right) = build' op (f left) (f right))
include hf

theorem closeFrom_map (rank : Nat) (before : List (α × Operator)) (last : α) :
    closeFrom build' rank (before.map fun p => (f p.1, p.2)) (f last) =
      (closeFrom build rank before last).map f := by
  induction before generalizing last with
  | nil => rfl
  | cons p before ih =>
    rw [List.map_cons, closeFrom, closeFrom]
    split
    · rw [← hf, ih]
    · rfl

theorem push_map (chain : Pending α) (op : Operator) (right : α) :
    (chain.map f).push build' op (f right) = (chain.push build op right).map f := by
  simp only [push, map, closeFrom_map hf]
  rfl

theorem pushAll_map (chain : Pending α) (rest : List (Operator × α)) :
    (chain.map f).pushAll build' (rest.map fun p => (p.1, f p.2)) =
      (chain.pushAll build rest).map f := by
  induction rest generalizing chain with
  | nil => rfl
  | cons p rest ih =>
    have h := ih (chain.push build p.1 p.2)
    rw [← push_map hf] at h
    exact h

theorem close_map (chain : Pending α) : (chain.map f).close build' = f (chain.close build) := by
  simp only [close, map, closeFrom_map hf]

end

/-- The value of the tree that closing builds is what closing builds from the values. -/
theorem eval_pushAll (build : Operator → α → α → α) (first : α) (rest : List (Operator × α)) :
    (((start (ChainTree.operand first)).pushAll .apply
        (rest.map fun p => (p.1, ChainTree.operand p.2))).close .apply).eval build =
      ((start first).pushAll build rest).close build := by
  have hf : ∀ op (left right : ChainTree α),
      (ChainTree.apply op left right).eval build = build op (left.eval build) (right.eval build) :=
    fun _ _ _ => rfl
  have hrest : (rest.map fun p => (p.1, ChainTree.operand p.2)).map
      (fun p => (p.1, p.2.eval build)) = rest := by
    simp [Function.comp_def, ChainTree.eval]
  rw [← close_map hf, ← pushAll_map hf, hrest]
  rfl

end Pending

/-! ## Two stacks -/

/-- Operands and operators that have not been put together, the latest first. -/
structure Stacks (α : Type) where
  operands : List α
  operators : List Operator

namespace Stacks

variable (build : Operator → α → α → α)

/-- Takes two operands and an operator from the stacks, if they are there. -/
def reduce? : Stacks α → Option (Stacks α)
  | ⟨right :: left :: operands, op :: operators⟩ =>
    some ⟨build op left right :: operands, operators⟩
  | _ => none

/-- Reduces as long as there is an operator that binds at least as tightly as a rank. -/
def reduceFrom? (rank : Nat) : (operators : List Operator) → (operands : List α) →
    Option (Stacks α)
  | [], operands => some ⟨operands, []⟩
  | op :: operators, operands =>
    if rank ≤ op.precedence then do
      let s ← reduce? build ⟨operands, op :: operators⟩
      reduceFrom? rank operators s.operands
    else some ⟨operands, op :: operators⟩

/-- Reads an operator and its right operand. -/
def push? (s : Stacks α) (op : Operator) (right : α) : Option (Stacks α) := do
  let s ← reduceFrom? build op.precedence s.operators s.operands
  return ⟨right :: s.operands, op :: s.operators⟩

/-- Reads a whole chain, reduces all that is left and takes the operand at the bottom. -/
def run? (first : α) (rest : List (Operator × α)) : Option α := do
  let s ← rest.foldlM (fun s p => push? build s p.1 p.2) (⟨[first], []⟩ : Stacks α)
  let s ← reduceFrom? build 0 s.operators s.operands
  s.operands.getLast?

/-- The stacks of a pending chain: there is one operand more than there are operators. -/
def ofPending (chain : Pending α) : Stacks α :=
  ⟨chain.last :: chain.before.map Prod.fst, chain.before.map Prod.snd⟩

theorem reduceFrom?_ofPending (rank : Nat) (before : List (α × Operator)) (last : α) :
    reduceFrom? build rank (before.map Prod.snd) (last :: before.map Prod.fst) =
      some (ofPending (Pending.closeFrom build rank before last)) := by
  induction before generalizing last with
  | nil => rfl
  | cons p before ih =>
    obtain ⟨left, op⟩ := p
    simp only [List.map_cons, reduceFrom?, Pending.closeFrom]
    split
    · exact ih (build op left last)
    · rfl

theorem push?_ofPending (chain : Pending α) (op : Operator) (right : α) :
    (ofPending chain).push? build op right = some (ofPending (chain.push build op right)) := by
  simp only [push?, ofPending, reduceFrom?_ofPending]
  rfl

theorem foldlM_ofPending (chain : Pending α) (rest : List (Operator × α)) :
    rest.foldlM (fun s p => push? build s p.1 p.2) (ofPending chain) =
      some (ofPending (chain.pushAll build rest)) := by
  induction rest generalizing chain with
  | nil => rfl
  | cons p rest ih =>
    rw [List.foldlM_cons, push?_ofPending]
    exact ih (chain.push build p.1 p.2)

/-- The stacks never lack an operand, and end with what closing the pending operators yields. -/
theorem run?_eq (first : α) (rest : List (Operator × α)) :
    run? build first rest = some (((Pending.start first).pushAll build rest).close build) := by
  have h := foldlM_ofPending build (.start first) rest
  have hstart : ofPending (.start first) = ⟨[first], []⟩ := rfl
  rw [hstart] at h
  rw [run?, h]
  generalize (Pending.start first).pushAll build rest = chain
  simp only [Option.bind_eq_bind, Option.bind_some, ofPending, reduceFrom?_ofPending,
    Pending.closeFrom_zero]
  rfl

end Stacks

/-! ## Levels -/

/-- Cuts a chain at the places of one operator: what stands before the first of them, and what
stands behind each. -/
def cutAt (op : Operator) (first : α) :
    List (Operator × α) → (α × List (Operator × α)) × List (α × List (Operator × α))
  | [] => ((first, []), [])
  | (other, a) :: rest =>
    let (head, further) := cutAt op a rest
    if other = op then ((first, []), head :: further)
    else ((first, (other, head.1) :: head.2), further)

/-- The tree that the levels of the reference grammar make of a chain: each level cuts it at its
own operator, reads the pieces at the next level, and folds them to the left. -/
def cascade : (levels : List Operator) → α → List (Operator × α) → ChainTree α
  | [], first, _ => .operand first
  | op :: tighter, first, rest =>
    let (head, further) := cutAt op first rest
    further.foldl (fun left piece => .apply op left (cascade tighter piece.1 piece.2))
      (cascade tighter head.1 head.2)

theorem cutAt_items (op : Operator) (first : α) (rest : List (Operator × α)) :
    chainItems (cutAt op first rest).1.1 (cutAt op first rest).1.2 ++
        (cutAt op first rest).2.flatMap (fun piece => .inr op :: chainItems piece.1 piece.2) =
      chainItems first rest := by
  induction rest generalizing first with
  | nil => rfl
  | cons p rest ih =>
    obtain ⟨other, a⟩ := p
    have ih := ih a
    rw [cutAt]
    dsimp only
    split
    · rename_i hop
      subst hop
      simp_all [chainItems]
    · simp_all [chainItems]

/-- The pieces hold operators of the chain other than the one it is cut at. -/
theorem cutAt_operators {P : Operator → Prop} {op : Operator} {first : α}
    {rest : List (Operator × α)} (h : ∀ p ∈ rest, P p.1) :
    ∀ piece ∈ (cutAt op first rest).1 :: (cutAt op first rest).2, ∀ p ∈ piece.2,
      P p.1 ∧ p.1 ≠ op := by
  induction rest generalizing first with
  | nil => simp [cutAt]
  | cons q rest ih =>
    obtain ⟨other, a⟩ := q
    have ih := @ih a fun p hp => h p (List.mem_cons_of_mem _ hp)
    rw [cutAt]
    dsimp only
    split
    · intro piece hpiece
      obtain rfl | hpiece := List.mem_cons.mp hpiece
      · exact fun _ hp => nomatch hp
      · exact ih piece hpiece
    · rename_i hne
      intro piece hpiece p hp
      obtain rfl | hpiece := List.mem_cons.mp hpiece
      · obtain rfl | hp := List.mem_cons.mp hp
        · exact ⟨h (other, a) List.mem_cons_self, hne⟩
        · exact ih _ List.mem_cons_self p hp
      · exact ih piece (List.mem_cons_of_mem _ hpiece) p hp

/-- A tree for a part of a chain with operators of some levels only. -/
structure ChainTree.Covers (t : ChainTree α) (levels : List Operator) (read : List (α ⊕ Operator)) :
    Prop where
  binds : t.Binds
  root : ∀ op ∈ t.root?, op ∈ levels
  reading : t.reading = read

/-- Folding pieces of tighter levels to the left makes a tree that binds right. -/
theorem foldl_covers {op : Operator} {tighter : List Operator}
    (hlt : ∀ o ∈ tighter, op.precedence < o.precedence)
    {tree : α × List (Operator × α) → ChainTree α}
    {pieces : List (α × List (Operator × α))}
    (h : ∀ piece ∈ pieces, (tree piece).Covers tighter (chainItems piece.1 piece.2))
    {left : ChainTree α} {read : List (α ⊕ Operator)} (hl : left.Covers (op :: tighter) read) :
    (pieces.foldl (fun left piece => .apply op left (tree piece)) left).Covers (op :: tighter)
      (read ++ pieces.flatMap fun piece => .inr op :: chainItems piece.1 piece.2) := by
  induction pieces generalizing left read with
  | nil => simpa using hl
  | cons piece pieces ih =>
    have hp := h piece List.mem_cons_self
    have hleft : left.AtLeast op.precedence := fun o ho => by
      obtain rfl | ho := List.mem_cons.mp (hl.root o ho)
      · exact Nat.le_refl _
      · exact Nat.le_of_lt (hlt o ho)
    have hright : (tree piece).AtLeast (op.precedence + 1) := fun o ho => hlt o (hp.root o ho)
    have happly : (ChainTree.apply op left (tree piece)).Covers (op :: tighter)
        (read ++ .inr op :: chainItems piece.1 piece.2) := by
      refine ⟨⟨hl.binds, hp.binds, hleft, hright⟩, fun o ho => ?_, ?_⟩
      · cases ho
        exact List.mem_cons_self
      · rw [ChainTree.reading, hl.reading, hp.reading]
    have ih := ih (fun q hq => h q (List.mem_cons_of_mem _ hq)) happly
    rwa [List.append_assoc] at ih

theorem cascade_covers {levels : List Operator}
    (hsorted : levels.Pairwise fun o o' => o.precedence < o'.precedence) {first : α}
    {rest : List (Operator × α)} (h : ∀ p ∈ rest, p.1 ∈ levels) :
    (cascade levels first rest).Covers levels (chainItems first rest) := by
  induction levels generalizing first rest with
  | nil =>
    cases rest with
    | nil => exact ⟨trivial, fun _ ho => (nomatch ho), rfl⟩
    | cons p rest => exact nomatch h p List.mem_cons_self
  | cons op tighter ih =>
    obtain ⟨hlt, hsorted⟩ := List.pairwise_cons.mp hsorted
    have hpieces : ∀ piece ∈ (cutAt op first rest).1 :: (cutAt op first rest).2,
        (cascade tighter piece.1 piece.2).Covers tighter (chainItems piece.1 piece.2) := by
      intro piece hpiece
      refine ih hsorted fun p hp => ?_
      obtain ⟨hmem, hne⟩ := cutAt_operators h piece hpiece p hp
      exact (List.mem_cons.mp hmem).resolve_left hne
    have hhead := hpieces _ List.mem_cons_self
    rw [← cutAt_items op first rest, cascade]
    refine foldl_covers hlt (fun q hq => hpieces q (List.mem_cons_of_mem _ hq)) ?_
    exact ⟨hhead.binds, fun o ho => List.mem_cons_of_mem _ (hhead.root o ho), hhead.reading⟩

theorem pairwise_all : Operator.all.Pairwise fun o o' => o.precedence < o'.precedence := by
  decide

theorem mem_all (op : Operator) : op ∈ Operator.all := by
  cases op <;> decide

/-! ## Both ways -/

/-- The levels of the reference grammar use up every chain. -/
theorem cascade_all_covers (first : α) (rest : List (Operator × α)) :
    (cascade Operator.all first rest).Covers Operator.all (chainItems first rest) :=
  cascade_covers pairwise_all fun p _ => mem_all p.1

/-- Pending operators are closed to the tree of the reference grammar. -/
theorem close_eq_cascade (build : Operator → α → α → α) (first : α) (rest : List (Operator × α)) :
    ((Pending.start first).pushAll build rest).close build =
      (cascade Operator.all first rest).eval build := by
  have hlevels := cascade_all_covers first rest
  obtain ⟨hb, hr⟩ := ((Pending.ready_start first).pushAll rest).close
  have htree := ChainTree.eq_of_reading hb hlevels.binds (hr.trans hlevels.reading.symm)
  rw [← htree, Pending.eval_pushAll]

/-- Closing pending operators in one pass builds the tree of the reference grammar's levels, and
on two stacks no operand is ever missing. In that tree the chain stands in order, and no operator
has a looser one at the root of its left operand, or one that is looser or equal at the root of its
right operand. -/
theorem chain_eq_cascade (build : Operator → α → α → α) (first : α) (rest : List (Operator × α)) :
    Stacks.run? build first rest = some ((cascade Operator.all first rest).eval build) ∧
      (rest.foldl (fun chain p => Pending.push build chain p.1 p.2) (Pending.start first)).close
          build =
        (cascade Operator.all first rest).eval build ∧
      (cascade Operator.all first rest).reading = chainItems first rest ∧
      (cascade Operator.all first rest).Binds := by
  have hlevels := cascade_all_covers first rest
  have heval := close_eq_cascade build first rest
  exact ⟨by rw [Stacks.run?_eq, heval], heval, hlevels.reading, hlevels.binds⟩

example : cascade Operator.all 'a'
      [(.naturalPlus, 'b'), (.naturalTimes, 'c'), (.naturalPlus, 'd')] =
    .apply .naturalPlus
      (.apply .naturalPlus (.operand 'a') (.apply .naturalTimes (.operand 'b') (.operand 'c')))
      (.operand 'd') := rfl

end DhallSyntax
