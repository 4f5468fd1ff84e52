import DhallSyntax.Parser.Run

/-!
What a part of a grammar does by itself, as a function of the place where it begins.

An account has no memo, no bound on nested expressions and no error bookkeeping: it says how the
part ends, where, and in what order alternatives gave up on the way. Main statements:

* `readWithin_grows`: more stack changes no account that does not exhaust it;
* `account_place`: an account ends at a place of the source it began in.
-/

namespace DhallSyntax

/-- An alternative gave up here. The rules are those opened since the account began, outermost
first. -/
structure Miss where
  offset : Nat
  expectation : String
  rules : List Rule

/-- How a part of a grammar ends, and where. -/
inductive Ending (α : Type) where
  | value (a : α) (stop : Cursor)
  | mismatch (stop : Cursor)
  | abort (a : Abort) (stop : Cursor)

/-- How a part of a grammar ends, and where alternatives gave up before, in order. -/
structure Account (α : Type) where
  misses : List Miss
  ending : Ending α

namespace Ending

variable {α : Type}

def stop : Ending α → Cursor
  | value _ c | mismatch c | abort _ c => c

end Ending

namespace Account

variable {α β : Type}

/-- Something else was tried before. -/
def after (earlier : List Miss) (A : Account α) : Account α :=
  { A with misses := earlier ++ A.misses }

/-- Goes on from the value. -/
def bind (A : Account β) (next : β → Cursor → Account α) : Account α :=
  match A.ending with
  | .value b c => (next b c).after A.misses
  | .mismatch c => ⟨A.misses, .mismatch c⟩
  | .abort a c => ⟨A.misses, .abort a c⟩

/-- Tries another part if the first one does not match. -/
def orElse (A : Account α) (second : Account α) : Account α :=
  match A.ending with
  | .mismatch _ => second.after A.misses
  | _ => A

/-- Everything happened inside a rule that began at `start`. What does not match ends there. -/
def within (rule : Rule) (start : Cursor) (A : Account α) : Account α where
  misses := A.misses.map fun m => { m with rules := rule :: m.rules }
  ending :=
    match A.ending with
    | .value a c => .value a c
    | .mismatch _ => .mismatch start
    | .abort a c => .abort { a with rules := rule :: a.rules } c

/-- The account of a place where the parse cannot go on. -/
def halt (fault : Fault) (back : Nat) (c : Cursor) : Account α :=
  ⟨[], .abort ⟨fault, c.offset - back, []⟩ c⟩

def Exhausted (A : Account α) : Prop :=
  ∃ a c, A.ending = .abort a c ∧ a.fault = .stackExhausted

end Account

/-- A way to account for the rules of a grammar. -/
abbrev Reader := (rule : Rule) → Cursor → Account rule.Result

/-- Repeats a step, at most one time more than `bound` has characters. -/
def Account.iterateWithin {α σ : Type} (step : σ → Cursor → Account (σ ⊕ α)) :
    (bound : List Char) → σ → Cursor → Account α
  | bound, state, c =>
    (step state c).bind fun
      | .inr a, c => ⟨[], .value a c⟩
      | .inl next, c =>
        match bound with
        | [] => .halt .stackExhausted 0 c
        | _ :: bound => iterateWithin step bound next c

/-- What a part of a grammar does by itself, given what rules do. -/
def Grammar.account (reader : Reader) {α : Type} : Grammar α → Cursor → Account α
  | .pure a, c => ⟨[], .value a c⟩
  | .bind first next, c => (first.account reader c).bind fun b c => (next b).account reader c
  | .look view, c => ⟨[], .value (view c.rest) c⟩
  | .accept literal, c =>
    if c.isNext literal then ⟨[], .value true (c.advance literal.length)⟩
    else ⟨[], .value false c⟩
  | .advance count, c => ⟨[], .value () (c.advance count)⟩
  | .fail expectation, c => ⟨[⟨c.offset, expectation, []⟩], .mismatch c⟩
  | .mismatch, c => ⟨[], .mismatch c⟩
  | .abort fault back, c => .halt fault back c
  | .orElse first second, c => (first.account reader c).orElse (second.account reader c)
  | .call rule, c => reader rule c
  | .nested body, c => body.account reader c
  | .iterate state step, c =>
    .iterateWithin (fun state c => (step state).account reader c) c.rest state c

/-- What rules do that are inside at most `stack` others. -/
def readWithin (bodies : (rule : Rule) → Grammar rule.Result) : (stack : Nat) → Reader
  | 0, _, c => .halt .stackExhausted 0 c
  | stack + 1, rule, c => ((bodies rule).account (readWithin bodies stack) c).within rule c

/-! ## More stack -/

namespace Account

variable {α β σ : Type}

/-- `B` is what `A` is, unless `A` has run out of stack. -/
def Grows (A B : Account α) : Prop := A.Exhausted ∨ B = A

theorem halt_exhausted (back : Nat) (c : Cursor) :
    (halt (α := α) .stackExhausted back c).Exhausted := ⟨_, _, rfl, rfl⟩

theorem Exhausted.after {A : Account α} (h : A.Exhausted) (ms : List Miss) :
    (A.after ms).Exhausted := h

theorem Exhausted.bind {A : Account β} (h : A.Exhausted) (next : β → Cursor → Account α) :
    (A.bind next).Exhausted := by
  obtain ⟨a, c, he, ha⟩ := h
  exact ⟨a, c, by simp only [Account.bind, he], ha⟩

theorem Exhausted.bind_value {A : Account β} {next : β → Cursor → Account α} {b : β} {c : Cursor}
    (he : A.ending = .value b c) (h : (next b c).Exhausted) : (A.bind next).Exhausted := by
  simpa only [Account.bind, he] using h.after A.misses

theorem Exhausted.orElse {A : Account α} (h : A.Exhausted) (B : Account α) :
    (A.orElse B).Exhausted := by
  obtain ⟨a, c, he, ha⟩ := h
  exact ⟨a, c, by simp only [Account.orElse, he], ha⟩

theorem Exhausted.orElse_mismatch {A B : Account α} {c : Cursor} (he : A.ending = .mismatch c)
    (h : B.Exhausted) : (A.orElse B).Exhausted := by
  simpa only [Account.orElse, he] using h.after A.misses

theorem within_exhausted {A : Account α} {rule : Rule} {start : Cursor} :
    (A.within rule start).Exhausted ↔ A.Exhausted := by
  simp only [Exhausted, within]
  cases A.ending <;> simp

theorem Grows.refl (A : Account α) : Grows A A := .inr rfl

theorem Grows.trans {A B C : Account α} (h : Grows A B) (h' : Grows B C) : Grows A C := by
  obtain h | rfl := h
  · exact .inl h
  · exact h'

theorem Grows.bind {A B : Account β} {f g : β → Cursor → Account α} (h : Grows A B)
    (hn : ∀ b c, Grows (f b c) (g b c)) : Grows (A.bind f) (B.bind g) := by
  obtain h | rfl := h
  · exact .inl (h.bind f)
  · cases he : B.ending with
    | value b c =>
      obtain h | h := hn b c
      · exact .inl (h.bind_value he)
      · exact .inr (by simp only [Account.bind, he, h])
    | mismatch c => exact .inr (by simp only [Account.bind, he])
    | abort a c => exact .inr (by simp only [Account.bind, he])

theorem Grows.orElse {A B A' B' : Account α} (h : Grows A B) (h' : Grows A' B') :
    Grows (A.orElse A') (B.orElse B') := by
  obtain h | rfl := h
  · exact .inl (h.orElse A')
  · cases he : B.ending with
    | value b c => exact .inr (by simp only [Account.orElse, he])
    | abort a c => exact .inr (by simp only [Account.orElse, he])
    | mismatch c =>
      obtain h' | rfl := h'
      · exact .inl (h'.orElse_mismatch he)
      · exact .inr rfl

theorem Grows.within {A B : Account α} (h : Grows A B) (rule : Rule) (start : Cursor) :
    Grows (A.within rule start) (B.within rule start) := by
  obtain h | rfl := h
  · exact .inl (within_exhausted.mpr h)
  · exact .inr rfl

theorem iterateWithin_grows {f g : σ → Cursor → Account (σ ⊕ α)}
    (h : ∀ state c, Grows (f state c) (g state c)) (bound : List Char) (state : σ) (c : Cursor) :
    Grows (iterateWithin f bound state c) (iterateWithin g bound state c) := by
  induction bound generalizing state c with
  | nil =>
    unfold iterateWithin
    refine (h state c).bind fun x c => ?_
    cases x <;> exact .refl _
  | cons _ bound ih =>
    unfold iterateWithin
    refine (h state c).bind fun x c => ?_
    cases x with
    | inl next => exact ih next c
    | inr a => exact .refl _

end Account

open Account (Grows)

theorem account_grows {r r' : Reader} (h : ∀ rule c, Grows (r rule c) (r' rule c)) {α : Type}
    (g : Grammar α) (c : Cursor) : Grows (g.account r c) (g.account r' c) := by
  induction g generalizing c with
  | bind first next ihf ihn => exact (ihf c).bind ihn
  | orElse first second ihf ihs => exact (ihf c).orElse (ihs c)
  | call rule => exact h rule c
  | nested body ih => exact ih c
  | iterate state step ih => exact Account.iterateWithin_grows ih _ state c
  | _ => exact .refl _

theorem readWithin_grows (bodies : (rule : Rule) → Grammar rule.Result) {m n : Nat} (h : m ≤ n)
    (rule : Rule) (c : Cursor) :
    Grows (readWithin bodies m rule c) (readWithin bodies n rule c) := by
  induction m generalizing n rule c with
  | zero => exact .inl (Account.halt_exhausted 0 c)
  | succ m ih =>
    obtain ⟨n, rfl⟩ : ∃ k, n = k + 1 := ⟨n - 1, by omega⟩
    exact (account_grows (fun rule c => ih (by omega) rule c) (bodies rule) c).within rule c

/-! ## Places -/

/-- A place of a source. -/
def Cursor.Of (source : List Char) (c : Cursor) : Prop := c = .atOffset source c.offset

theorem Cursor.start_of (source : List Char) : (start source).Of source := by
  simp [Of, start, atOffset]

theorem Cursor.Of.advance {source : List Char} {c : Cursor} (h : c.Of source) (count : Nat) :
    (c.advance count).Of source := by
  rw [Of] at h
  obtain ⟨offset, rest, isBeyond⟩ := c
  simp only [atOffset, mk.injEq, true_and] at h
  obtain ⟨rfl, hb⟩ := h
  simp only [Of, Cursor.advance, atOffset, hb, List.length_take, List.length_drop,
    List.drop_drop, mk.injEq, decide_eq_decide, true_and]
  constructor
  · rcases Nat.le_total (source.length - offset) count with hc | hc
    · rw [List.drop_of_length_le (by omega), List.drop_of_length_le (by omega)]
    · rw [Nat.min_eq_left hc]
  · omega

namespace Account

variable {α β σ : Type} {source : List Char}

def EndsIn (source : List Char) (A : Account α) : Prop := A.ending.stop.Of source

theorem EndsIn.bind {A : Account β} {f : β → Cursor → Account α} (h : A.EndsIn source)
    (hf : ∀ b c, c.Of source → (f b c).EndsIn source) : (A.bind f).EndsIn source := by
  unfold EndsIn Account.bind at *
  cases he : A.ending with
  | value b c => rw [he] at h; exact hf b c h
  | mismatch c => rw [he] at h; exact h
  | abort a c => rw [he] at h; exact h

theorem iterateWithin_endsIn {f : σ → Cursor → Account (σ ⊕ α)}
    (h : ∀ state c, c.Of source → (f state c).EndsIn source) (bound : List Char) (state : σ)
    (c : Cursor) (hc : c.Of source) : (iterateWithin f bound state c).EndsIn source := by
  induction bound generalizing state c with
  | nil =>
    unfold iterateWithin
    refine (h state c hc).bind fun x c hc => ?_
    cases x <;> exact hc
  | cons _ bound ih =>
    unfold iterateWithin
    refine (h state c hc).bind fun x c hc => ?_
    cases x with
    | inl next => exact ih next c hc
    | inr a => exact hc

end Account

theorem account_place {source : List Char} {r : Reader}
    (h : ∀ rule c, c.Of source → (r rule c).EndsIn source) {α : Type} (g : Grammar α) (c : Cursor)
    (hc : c.Of source) : (g.account r c).EndsIn source := by
  induction g generalizing c with
  | bind first next ihf ihn => exact (ihf c hc).bind ihn
  | orElse first second ihf ihs =>
    have hf := ihf c hc
    have hs := ihs c hc
    simp only [Account.EndsIn, Grammar.account, Account.orElse] at *
    cases he : (first.account r c).ending with
    | mismatch => exact hs
    | _ => exact hf
  | call rule => exact h rule c hc
  | nested body ih => exact ih c hc
  | iterate state step ih => exact Account.iterateWithin_endsIn ih _ state c hc
  | accept literal =>
    simp only [Account.EndsIn, Grammar.account]
    split
    · exact hc.advance _
    · exact hc
  | advance count => exact hc.advance count
  | _ => exact hc

theorem readWithin_place (bodies : (rule : Rule) → Grammar rule.Result) {source : List Char}
    (n : Nat) (rule : Rule) (c : Cursor) (hc : c.Of source) :
    (readWithin bodies n rule c).EndsIn source := by
  induction n generalizing rule c with
  | zero => exact hc
  | succ n ih =>
    have hb := account_place ih (bodies rule) c hc
    simp only [Account.EndsIn, readWithin, Account.within] at *
    cases he : ((bodies rule).account (readWithin bodies n) c).ending with
    | mismatch => exact hc
    | value a t => rw [he] at hb; exact hb
    | abort a t => rw [he] at hb; exact hb

/-- A rule that does not match ends where it began. -/
theorem readWithin_mismatch {bodies : (rule : Rule) → Grammar rule.Result} {n : Nat} {rule : Rule}
    {c stop : Cursor} (h : (readWithin bodies n rule c).ending = .mismatch stop) : stop = c := by
  cases n with
  | zero => cases h
  | succ n =>
    simp only [readWithin, Account.within] at h
    split at h
    · cases h
    · cases h
      rfl
    · cases h

end DhallSyntax
