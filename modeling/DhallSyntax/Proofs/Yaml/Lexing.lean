import DhallSyntax.Proofs.Yaml.Scalars
import DhallSyntax.Yaml.Lexer

/-!
Runs of the lexer over YAML texts. Between two tokens its state is the place, the tokens so far and
the columns of the open blocks; `Runs` says that one such state leads to another. Main statements:
`Runs.token`, one more token is read; `Runs.close`, a block ends in front of one less indented.
-/

namespace DhallSyntax.Yaml

namespace Lexer

open Scan

/-! ## Runs -/

/-- The tokens that a lexer reads from one state on to the end of its text. -/
inductive Lexes : Lexer → List Token → Prop
  | last {l l' : Lexer} : step.run l = .ok (true, l') → Lexes l l'.tokens.reverse
  | next {l l' : Lexer} {ts : List Token} : step.run l = .ok (false, l') →
      l'.place.rest.length < l.place.rest.length → Lexes l' ts → Lexes l ts

theorem Lexes.tokensFrom {l : Lexer} {ts : List Token} (h : Lexes l ts) {bound : Nat}
    (hbound : l.place.rest.length < bound) : tokensFrom bound l = ts := by
  induction h generalizing bound with
  | last h =>
    obtain ⟨bound, rfl⟩ := Nat.exists_eq_succ_of_ne_zero (Nat.ne_of_gt (Nat.zero_lt_of_lt hbound))
    rw [Lexer.tokensFrom]
    have h' : step _ = _ := h
    rw [h']
  | next h hless _ ih =>
    obtain ⟨bound, rfl⟩ := Nat.exists_eq_succ_of_ne_zero (Nat.ne_of_gt (Nat.zero_lt_of_lt hbound))
    rw [Lexer.tokensFrom]
    have h' : step _ = _ := h
    rw [h']
    exact ih (by omega)

/-- What is read from the second state on is read from the first one on. -/
def Runs (l l' : Lexer) : Prop := ∀ ts, Lexes l' ts → Lexes l ts

namespace Runs

variable {l l' l'' : Lexer}

theorem refl (l : Lexer) : Runs l l := fun _ h => h

theorem trans (h : Runs l l') (h' : Runs l' l'') : Runs l l'' := fun ts hts => h ts (h' ts hts)

theorem step (h : Lexer.step.run l = .ok (false, l'))
    (hless : l'.place.rest.length < l.place.rest.length) : Runs l l' :=
  fun _ hts => .next h hless hts

/-- States from which the next step is the same. -/
theorem same (h : Lexer.step.run l = Lexer.step.run l')
    (hle : l'.place.rest.length ≤ l.place.rest.length) : Runs l l' := by
  intro ts hts
  cases hts with
  | last hlast => exact .last (h.trans hlast)
  | next hstep hless hts => exact .next (h.trans hstep) (Nat.lt_of_lt_of_le hless hle) hts

end Runs

/-- The state between two tokens outside of flow collections. -/
def between (place : Cursor) (tokens : List Token) (indents : List Nat) (allowsKey : Bool) :
    Lexer :=
  ⟨place, tokens, tokens.length, indents, none, [], allowsKey⟩

variable {place next : Cursor} {gap rest : List Char} {tokens : List Token} {indents : List Nat}
  {candidate : Option Candidate} {allows broke : Bool} {c : Char} {k n : Nat} {l : Lexer}

/-! ## From one token to the next -/

/-- A token may begin here, or the text ends. -/
def BeginsToken (rest : List Char) : Prop :=
  BeginsSolid rest ∧ rest.head? ≠ some '#' ∧ rest.head? ≠ some '\ufeff'

theorem beginsToken_cons {c : Char} (hc : isBlankOrBreak c = false ∧ c ≠ '#' ∧ c ≠ '\ufeff')
    (rest : List Char) : BeginsToken (c :: rest) := by
  refine ⟨?_, by simpa using hc.2.1, by simpa using hc.2.2⟩
  simp [BeginsSolid, hc.1]

/-- What may stand between two tokens, and whether a line ends there. -/
inductive Gap : List Char → Bool → Prop
  | none : Gap [] false
  | space : Gap [' '] false
  | line {k : Nat} : Gap (newLine k) true

theorem run_skipComment (h : place.rest.head? ≠ some '#') :
    skipComment.run place = .ok ((), place) := by
  have hpeek : ¬ (place.rest[0]? == some '#') = true := by
    rw [← List.head?_eq_getElem?]
    simpa using h
  simp only [skipComment, StateT.run_bind, run_peek, ok_bind, if_neg hpeek]
  rfl

theorem run_toNextToken_spaces (h : place.rest = List.replicate n ' ' ++ rest)
    (hrest : BeginsToken rest) :
    (toNextToken place.rest).run place = .ok (false, place.forward n) := by
  cases hbound : place.rest with
  | nil =>
    rw [hbound, eq_comm, List.append_eq_nil_iff, List.replicate_eq_nil_iff] at h
    rw [h.1]
    rfl
  | cons b bound =>
    have hforward := Cursor.forward_rest_replicate h
    simp only [toNextToken, StateT.run_bind, run_skipSpaces h hrest.1.head?_ne_space, ok_bind,
      run_skipComment (hforward ▸ hrest.2.1 : (place.forward n).rest.head? ≠ some '#'),
      run_lineBreak_solid hforward hrest.1]
    rfl

theorem run_toNextToken (hgap : Gap gap broke) (h : place.rest = gap ++ rest)
    (hrest : BeginsToken rest) :
    (toNextToken place.rest).run place = .ok (broke, place.forward gap.length) := by
  cases hgap with
  | none => exact run_toNextToken_spaces (n := 0) h hrest
  | space => exact run_toNextToken_spaces (n := 1) h hrest
  | @line k =>
    have hline : (place.forward 1).rest = List.replicate k ' ' ++ rest := Cursor.forward_rest_cons h
    have hmore := run_toNextToken_spaces hline hrest
    have hspaces : skipSpaces.run place = .ok ((), place) := run_skipSpaces (n := 0) h nofun
    have hcomment : skipComment.run place = .ok ((), place) := run_skipComment (by rw [h]; nofun)
    have hbound : place.rest = '\n' :: (place.forward 1).rest := by rw [hline]; exact h
    rw [hbound, length_newLine, Nat.add_comm, ← Cursor.forward_add]
    simp only [toNextToken, StateT.run_bind, hspaces, hcomment, ok_bind, run_lineBreak h rfl, hmore]
    rfl

/-! ## Steps -/

theorem run_scan {α : Type} {part : Scan α} {a : α} (h : part.run l.place = .ok (a, next)) :
    (scan part).run l = .ok (a, { l with place := next }) := by
  have h' : part l.place = .ok (a, next) := h
  simp only [scan, StateT.run_bind, StateT.run_get, pure_bind, h']
  rfl

theorem run_allowKey (allows : Bool) (l : Lexer) :
    (allowKey allows).run l = .ok ((), { l with allowsKey := allows }) := rfl

theorem run_closeBlocks (closes : Nat → Bool) (h : l.outer = []) :
    (closeBlocks closes).run l = .ok ((), { l with
      indents := l.indents.drop (l.indents.takeWhile closes).length
      tokens := (l.indents.takeWhile closes).map (fun _ => Token.blockEnd) ++ l.tokens
      count := l.count + (l.indents.takeWhile closes).length }) := by
  have hflow : l.inFlow = false := by simp [inFlow, h]
  simp [closeBlocks, hflow]
  rfl

theorem run_dropStale (houter : l.outer = [])
    (h : ∀ c ∈ l.candidate, c.required = true → c.isStale l.place = false) :
    dropStale.run l =
      .ok ((), { l with candidate := l.candidate.filter fun c => !c.isStale l.place }) := by
  have hlost : ¬ ((([l.candidate].filterMap id).filter fun c => c.isStale l.place).any
      Candidate.required) = true := by
    cases hc : l.candidate with
    | none => simp
    | some c =>
      have := h c hc
      cases hr : c.required <;> simp_all
  simp only [dropStale, StateT.run_bind, StateT.run_get, pure_bind, houter, if_neg hlost]
  simp
  rfl

/-- The state in which a token is read: the blocks that are deeper than its column are closed. -/
def arrived (next : Cursor) (tokens : List Token) (indents : List Nat)
    (candidate : Option Candidate) (allowsKey : Bool) : Lexer :=
  let closed := indents.takeWhile (next.column < ·)
  ⟨next, closed.map (fun _ => Token.blockEnd) ++ tokens, tokens.length + closed.length,
    indents.drop closed.length, candidate, [], allowsKey⟩

/-- The end of a step: a token that begins with the next character, or the end of the text. -/
def tokenAt (c : Option Char) : Lex Bool :=
  match c with
  | some c => do
    tokenFrom c
    return false
  | none => do
    outermost (return .textEnd)
    return true

/-- One step, if no candidate that has to become a key is lost. -/
theorem run_step (hbom : place.rest.head? ≠ some '\ufeff')
    (hnext : (toNextToken place.rest).run place = .ok (broke, next))
    (hcandidate : ∀ c ∈ candidate, c.required = true → c.isStale next = false) :
    step.run ⟨place, tokens, tokens.length, indents, candidate, [], allows⟩ =
      (tokenAt next.rest.head?).run
        (arrived next tokens indents (candidate.filter fun c => !c.isStale next)
          (allows || broke)) := by
  have hb : ¬ (decide (place.offset = 0) && place.peek 0 == some '\ufeff') = true := by
    have : (place.peek 0 == some '\ufeff') = false := by
      rw [Cursor.peek, ← List.head?_eq_getElem?]
      simpa using hbom
    simp [this]
  have hpeek : next.peek 0 = next.rest.head? := (List.head?_eq_getElem? ..).symm
  have hscan : (scan (toNextToken place.rest)).run
      ⟨place, tokens, tokens.length, indents, candidate, [], allows⟩ =
      .ok (broke, ⟨next, tokens, tokens.length, indents, candidate, [], allows⟩) := run_scan hnext
  simp only [step, StateT.run_bind, StateT.run_get, pure_bind, if_neg hb, hscan, ok_bind]
  cases broke
  · simp only [Bool.false_eq_true, ↓reduceIte, StateT.run_bind]
    rw [run_dropStale rfl hcandidate]
    simp only [ok_bind, StateT.run_get, pure_bind]
    rw [run_closeBlocks _ rfl]
    simp only [ok_bind, hpeek]
    cases allows <;> rfl
  · simp only [inFlow, List.isEmpty_nil, Bool.not_true, Bool.false_eq_true, ↓reduceIte,
      StateT.run_bind, run_allowKey, ok_bind]
    rw [run_dropStale rfl hcandidate]
    simp only [ok_bind, StateT.run_get, pure_bind]
    rw [run_closeBlocks _ rfl]
    simp only [ok_bind, hpeek]
    cases allows <;> rfl

theorem run_step_gap (hgap : Gap gap broke) (h : place.rest = gap ++ rest)
    (hrest : BeginsToken rest)
    (hcandidate : ∀ c ∈ candidate, c.required = true →
      c.isStale (place.forward gap.length) = false) :
    step.run ⟨place, tokens, tokens.length, indents, candidate, [], allows⟩ =
      (tokenAt rest.head?).run (arrived (place.forward gap.length) tokens indents
        (candidate.filter fun c => !c.isStale (place.forward gap.length)) (allows || broke)) := by
  have hbom : place.rest.head? ≠ some '\ufeff' := by
    rw [h]
    cases hgap with
    | none => exact hrest.2.2
    | space => nofun
    | line => nofun
  rw [run_step hbom (run_toNextToken hgap h hrest) hcandidate, Cursor.forward_rest_append h]

theorem run_step_between (h : BeginsToken place.rest) :
    step.run (between place tokens indents allows) =
      (tokenAt place.rest.head?).run (arrived place tokens indents none allows) := by
  have hrun := @run_step_gap place [] place.rest tokens indents none allows _ .none rfl h (by simp)
  rwa [Bool.or_false] at hrun

/-- What stands in front of a token is passed, and a candidate that ends there is given up. -/
theorem Runs.settle (hgap : Gap gap broke) (h : place.rest = gap ++ rest)
    (hrest : BeginsToken rest) (hcandidate : ∀ c ∈ candidate, c.required = false ∧
      c.isStale (place.forward gap.length) = true) :
    Runs ⟨place, tokens, tokens.length, indents, candidate, [], allows⟩
      (between (place.forward gap.length) tokens indents (allows || broke)) := by
  refine .same ?_ ?_
  · have hnext : (place.forward gap.length).rest = rest := Cursor.forward_rest_append h
    have hgone : (candidate.filter fun c => !c.isStale (place.forward gap.length)) = none := by
      rw [Option.filter_eq_none_iff]
      exact fun c hc => by simp [(hcandidate c hc).2]
    rw [run_step_gap hgap h hrest fun c hc hrequired => by simp [hcandidate c hc] at hrequired,
      run_step_between (hnext ▸ hrest), hgone, hnext]
  · rw [between, Cursor.forward_rest, List.length_drop]
    exact Nat.sub_le _ _

/-- A block ends in front of a token that is less indented. -/
theorem Runs.close (hrest : BeginsToken place.rest) (h : place.column < k) :
    Runs (between place tokens (k :: indents) allows)
      (between place (.blockEnd :: tokens) indents allows) := by
  refine .same ?_ (Nat.le_refl _)
  rw [run_step_between hrest, run_step_between hrest]
  congr 1
  simp only [arrived, h, decide_true, List.takeWhile_cons_of_pos, List.length_cons,
    List.drop_succ_cons]
  have hends : ∀ closed : List Nat, closed.map (fun _ => Token.blockEnd) ++ .blockEnd :: tokens =
      .blockEnd :: (closed.map (fun _ => Token.blockEnd) ++ tokens) := by
    intro closed
    induction closed with
    | nil => rfl
    | cons k closed ih => rw [List.map_cons, List.cons_append, ih, List.cons_append]
  rw [List.map_cons, List.cons_append, hends]
  simp
  omega

/-- No block is deeper than a column. -/
def Within (indents : List Nat) (column : Nat) : Prop := ∀ k ∈ indents.head?, k ≤ column

theorem within_cons : Within (k :: indents) n ↔ k ≤ n := by simp [Within]

theorem arrived_within (h : Within indents place.column) :
    arrived place tokens indents candidate allows =
      ⟨place, tokens, tokens.length, indents, candidate, [], allows⟩ := by
  have hclosed : indents.takeWhile (place.column < ·) = [] := by
    cases indents with
    | nil => rfl
    | cons k indents =>
      have hk : ¬ place.column < k := Nat.not_lt.mpr (h k rfl)
      simp [hk]
  simp [arrived, hclosed]

theorem filter_fresh (h : ∀ c ∈ candidate, c.isStale place = false) :
    (candidate.filter fun c => !c.isStale place) = candidate := by
  cases candidate with
  | none => rfl
  | some c => simp [Option.filter_some, h c rfl]

/-- One token, with a candidate that may still become a key. -/
theorem Runs.token (hrest : BeginsToken place.rest) (hhead : place.rest.head? = some c)
    (hwithin : Within indents place.column) (hfresh : ∀ c ∈ candidate, c.isStale place = false)
    (hread : (tokenFrom c).run ⟨place, tokens, tokens.length, indents, candidate, [], allows⟩ =
      .ok ((), l))
    (hless : l.place.rest.length < place.rest.length) :
    Runs ⟨place, tokens, tokens.length, indents, candidate, [], allows⟩ l := by
  refine .step ?_ hless
  have hrun := @run_step_gap place [] place.rest tokens indents candidate allows _ .none rfl hrest
    fun c hc _ => hfresh c hc
  simp only [List.length_nil, Cursor.forward_zero, Bool.or_false, filter_fresh hfresh,
    arrived_within hwithin, hhead] at hrun
  rw [hrun]
  simp only [tokenAt, StateT.run_bind, hread, ok_bind]
  rfl

/-- The text ends, and with it its only block. -/
theorem Lexes.ofEnd (h : place.rest = []) :
    Lexes (between place tokens [0] allows) (tokens.reverse ++ [.blockEnd, .textEnd]) := by
  have hrest : BeginsToken place.rest := by
    rw [h]
    exact ⟨rfl, nofun, nofun⟩
  have hwithin : Within [0] place.column := within_cons.mpr (Nat.zero_le _)
  have hrun := @run_step_between place tokens [0] allows hrest
  rw [h, arrived_within hwithin] at hrun
  have hlast : Lexes (between place tokens [0] allows) (.textEnd :: .blockEnd :: tokens).reverse :=
    .last (hrun.trans rfl)
  simpa using hlast

end Lexer

end DhallSyntax.Yaml
