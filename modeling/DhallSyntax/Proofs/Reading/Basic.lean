import DhallSyntax.Proofs.Parser.Account

/-!
What a part of a grammar makes of the text ahead, with as much stack as that takes: a value and the
rest of the text, no match, or a fault. Places, memo and error reports are left out. Main
statements:

* `Rule.read_eq`: a rule reads what its body reads;
* `Grammar.account_settles`: an account with enough stack ends as the reading says.
-/

namespace DhallSyntax

/-- How a part of a grammar ends on a text. -/
inductive Reading (α : Type) where
  | value (a : α) (rest : List Char)
  | mismatch
  | abort (fault : Fault)

/-- A way to read rules. -/
abbrev RuleReader := (rule : Rule) → List Char → Reading rule.Result

namespace Reading

variable {α β σ : Type}

/-- Goes on from the value. -/
def bind (r : Reading β) (next : β → List Char → Reading α) : Reading α :=
  match r with
  | value b rest => next b rest
  | mismatch => mismatch
  | abort fault => abort fault

/-- Another reading if the first one does not match. -/
def orElse (r second : Reading α) : Reading α :=
  match r with
  | mismatch => second
  | r => r

/-- Repeats a step, at most one time more than `bound` has characters. -/
def iterateWithin (step : σ → List Char → Reading (σ ⊕ α)) :
    (bound : List Char) → σ → List Char → Reading α
  | bound, state, s =>
    (step state s).bind fun
      | .inr a, s => value a s
      | .inl next, s =>
        match bound with
        | [] => abort .stackExhausted
        | _ :: bound => iterateWithin step bound next s

end Reading

/-- What a part of a grammar makes of a text, given what rules do. -/
def Grammar.readBy (rules : RuleReader) {α : Type} : Grammar α → List Char → Reading α
  | .pure a, s => .value a s
  | .bind first next, s => (first.readBy rules s).bind fun b s => (next b).readBy rules s
  | .look view, s => .value (view s) s
  | .accept literal, s =>
    if literal.toList.isPrefixOf s then .value true (s.drop literal.length) else .value false s
  | .advance count, s => .value () (s.drop count)
  | .fail _, _ => .mismatch
  | .mismatch, _ => .mismatch
  | .abort fault _, _ => .abort fault
  | .orElse first second, s => (first.readBy rules s).orElse (second.readBy rules s)
  | .call rule, s => rules rule s
  | .nested body, s => body.readBy rules s
  | .iterate state step, s =>
    .iterateWithin (fun state s => (step state).readBy rules s) s state s

/-- What rules make of a text that are inside at most `stack` others. -/
def Rule.readUpTo : (stack : Nat) → RuleReader
  | 0, _, _ => .abort .stackExhausted
  | stack + 1, rule, s => rule.body.readBy (readUpTo stack) s

/-! ## Accounts -/

/-- An ending without its place in the source. -/
def Ending.reading {α : Type} : Ending α → Reading α
  | value a c => .value a c.rest
  | mismatch _ => .mismatch
  | abort a _ => .abort a.fault

namespace Account

variable {α β σ : Type}

/-- An account that ends in the source, as the reading says. -/
structure EndsAs (A : Account α) (r : Reading α) : Prop where
  within : A.ending.stop.isBeyond = false
  reading : A.ending.reading = r

theorem EndsAs.bind {A : Account β} {r : Reading β} {f : β → Cursor → Account α}
    {g : β → List Char → Reading α} (h : A.EndsAs r)
    (hf : ∀ b c, c.isBeyond = false → (f b c).EndsAs (g b c.rest)) :
    (A.bind f).EndsAs (r.bind g) := by
  obtain ⟨hw, rfl⟩ := h
  obtain ⟨misses, ending⟩ := A
  cases ending with
  | value b c =>
    obtain ⟨hw, hr⟩ := hf b c hw
    exact ⟨hw, hr⟩
  | mismatch c => exact ⟨hw, rfl⟩
  | abort a c => exact ⟨hw, rfl⟩

theorem iterateWithin_endsAs {f : σ → Cursor → Account (σ ⊕ α)}
    {g : σ → List Char → Reading (σ ⊕ α)}
    (h : ∀ state c, c.isBeyond = false → (f state c).EndsAs (g state c.rest)) (bound : List Char)
    (state : σ) (c : Cursor) (hc : c.isBeyond = false) :
    (iterateWithin f bound state c).EndsAs (.iterateWithin g bound state c.rest) := by
  induction bound generalizing state c with
  | nil =>
    unfold iterateWithin Reading.iterateWithin
    refine (h state c hc).bind fun x c hc => ?_
    cases x <;> exact ⟨hc, rfl⟩
  | cons _ bound ih =>
    unfold iterateWithin Reading.iterateWithin
    refine (h state c hc).bind fun x c hc => ?_
    cases x with
    | inl next => exact ih next c hc
    | inr a => exact ⟨hc, rfl⟩

end Account

theorem account_endsAs {reader : Reader} {rules : RuleReader}
    (h : ∀ rule c, c.isBeyond = false → (reader rule c).EndsAs (rules rule c.rest)) {α : Type}
    (g : Grammar α) (c : Cursor) (hc : c.isBeyond = false) :
    (g.account reader c).EndsAs (g.readBy rules c.rest) := by
  induction g generalizing c with
  | bind first next ihf ihn => exact (ihf c hc).bind ihn
  | orElse first second ihf ihs =>
    obtain ⟨hw, hr⟩ := ihf c hc
    rw [Grammar.account, Grammar.readBy, ← hr, Account.orElse]
    cases he : (first.account reader c).ending with
    | mismatch t =>
      obtain ⟨hw', hr'⟩ := ihs c hc
      exact ⟨hw', hr'⟩
    | value a t => exact ⟨hw, by rw [he]; rfl⟩
    | abort a t => exact ⟨hw, by rw [he]; rfl⟩
  | call rule => exact h rule c hc
  | nested body ih => exact ih c hc
  | iterate state step ih => exact Account.iterateWithin_endsAs ih _ state c hc
  | accept literal =>
    simp only [Grammar.account, Grammar.readBy, Cursor.isNext, hc, Bool.not_false, Bool.true_and]
    split
    · exact ⟨hc, rfl⟩
    · exact ⟨hc, rfl⟩
  | _ => exact ⟨hc, rfl⟩

/-- Accounts of rules end as readings of the same bodies do. -/
theorem readWithin_endsAs_of {bodies : (rule : Rule) → Grammar rule.Result} {rules : Nat → RuleReader}
    (exhausted : ∀ rule s, rules 0 rule s = .abort .stackExhausted)
    (body : ∀ n rule s, rules (n + 1) rule s = (bodies rule).readBy (rules n) s) (n : Nat)
    (rule : Rule) (c : Cursor) (hc : c.isBeyond = false) :
    (readWithin bodies n rule c).EndsAs (rules n rule c.rest) := by
  induction n generalizing rule c with
  | zero => exact ⟨hc, (exhausted rule c.rest).symm⟩
  | succ n ih =>
    obtain ⟨hw, hr⟩ := account_endsAs ih (bodies rule) c hc
    simp only [readWithin, body, ← hr, Account.within]
    cases he : ((bodies rule).account (readWithin bodies n) c).ending with
    | mismatch t => exact ⟨hc, rfl⟩
    | value a t => rw [he] at hw; exact ⟨hw, rfl⟩
    | abort a t => rw [he] at hw; exact ⟨hw, rfl⟩

theorem readWithin_endsAs (n : Nat) (rule : Rule) (c : Cursor) (hc : c.isBeyond = false) :
    (readWithin Rule.body n rule c).EndsAs (Rule.readUpTo n rule c.rest) :=
  readWithin_endsAs_of (fun _ _ => rfl) (fun _ _ _ => rfl) n rule c hc

/-! ## As much stack as it takes -/

namespace Reading

variable {α β σ : Type}

/-- With more and more stack a reading becomes another one and stays it. -/
def Settles (r : Nat → Reading α) (final : Reading α) : Prop := ∃ n, ∀ k ≥ n, r k = final

theorem Settles.refl (r : Reading α) : Settles (fun _ => r) r := ⟨0, fun _ _ => rfl⟩

theorem Settles.bind {r : Nat → Reading β} {final : Reading β}
    {f : Nat → β → List Char → Reading α} {g : β → List Char → Reading α} (h : Settles r final)
    (hf : ∀ b t, Settles (fun k => f k b t) (g b t)) :
    Settles (fun k => (r k).bind (f k)) (final.bind g) := by
  obtain ⟨n, hn⟩ := h
  cases final with
  | value b t =>
    obtain ⟨m, hm⟩ := hf b t
    refine ⟨max n m, fun k hk => ?_⟩
    dsimp only
    rw [hn k (by omega)]
    exact hm k (by omega)
  | mismatch => exact ⟨n, fun k hk => congrArg (Reading.bind · (f k)) (hn k hk)⟩
  | abort fault => exact ⟨n, fun k hk => congrArg (Reading.bind · (f k)) (hn k hk)⟩

theorem Settles.orElse {r q : Nat → Reading α} {r' q' : Reading α} (h : Settles r r')
    (hq : Settles q q') : Settles (fun k => (r k).orElse (q k)) (r'.orElse q') := by
  obtain ⟨n, hn⟩ := h
  obtain ⟨m, hm⟩ := hq
  refine ⟨max n m, fun k hk => ?_⟩
  dsimp only
  rw [hn k (by omega), hm k (by omega)]

theorem Settles.iterateWithin {f : Nat → σ → List Char → Reading (σ ⊕ α)}
    {g : σ → List Char → Reading (σ ⊕ α)}
    (h : ∀ state s, Settles (fun k => f k state s) (g state s)) (bound : List Char) (state : σ)
    (s : List Char) :
    Settles (fun k => .iterateWithin (f k) bound state s) (.iterateWithin g bound state s) := by
  induction bound generalizing state s with
  | nil =>
    unfold Reading.iterateWithin
    refine (h state s).bind fun x t => ?_
    cases x <;> exact .refl _
  | cons _ bound ih =>
    unfold Reading.iterateWithin
    refine (h state s).bind fun x t => ?_
    cases x with
    | inl next => exact ih next t
    | inr a => exact .refl _

end Reading

open Reading (Settles)

theorem Rule.readUpTo_eq {m n : Nat} (h : m ≤ n) {rule : Rule} {s : List Char}
    (hm : readUpTo m rule s ≠ .abort .stackExhausted) : readUpTo n rule s = readUpTo m rule s := by
  have hrm := (readWithin_endsAs m rule (.start s) rfl).reading
  have hrn := (readWithin_endsAs n rule (.start s) rfl).reading
  obtain ⟨a, c, he, ha⟩ | he := readWithin_grows Rule.body h rule (.start s)
  · rw [he, Ending.reading, ha] at hrm
    exact absurd hrm.symm hm
  · rw [he, hrm] at hrn
    exact hrn.symm

theorem Rule.readUpTo_settles (rule : Rule) (s : List Char) :
    ∃ final, Settles (fun k => readUpTo k rule s) final := by
  by_cases h : ∀ n, readUpTo n rule s = .abort .stackExhausted
  · exact ⟨_, 0, fun k _ => h k⟩
  · obtain ⟨n, hn⟩ := Classical.not_forall.mp h
    exact ⟨_, n, fun k hk => readUpTo_eq hk hn⟩

/-- What a rule makes of a text, with as much stack as that takes. -/
noncomputable def Rule.read : RuleReader :=
  fun rule s => (readUpTo_settles rule s).choose

theorem Rule.readUpTo_settles_read (rule : Rule) (s : List Char) :
    Settles (fun k => readUpTo k rule s) (rule.read s) :=
  (readUpTo_settles rule s).choose_spec

/-- What a part of the grammar of expressions makes of a text. -/
noncomputable abbrev Grammar.read {α : Type} (g : Grammar α) (s : List Char) : Reading α :=
  g.readBy Rule.read s

/-- A part of a grammar reads finitely many rules, so that some stack is enough for all of them. -/
theorem Grammar.readBy_settles {α : Type} (g : Grammar α) (s : List Char) :
    Settles (fun k => g.readBy (Rule.readUpTo k) s) (g.read s) := by
  induction g generalizing s with
  | bind first next ihf ihn => exact (ihf s).bind ihn
  | orElse first second ihf ihs => exact (ihf s).orElse (ihs s)
  | call rule => exact Rule.readUpTo_settles_read rule s
  | nested body ih => exact ih s
  | iterate state step ih => exact Settles.iterateWithin ih s state s
  | _ => exact .refl _

theorem Rule.read_eq (rule : Rule) (s : List Char) : rule.read s = rule.body.read s := by
  obtain ⟨m, hm⟩ := readUpTo_settles_read rule s
  obtain ⟨n, hn⟩ := Grammar.readBy_settles rule.body s
  rw [← hm (max m n + 1) (by omega), ← hn (max m n) (by omega)]
  rfl

/-- What holds of a rule out of stack, and of a rule's body if it holds of the rules in it, holds of
every rule. -/
theorem Rule.read_induction {P : (rule : Rule) → List Char → Reading rule.Result → Prop}
    (exhausted : ∀ rule s, P rule s (.abort .stackExhausted))
    (body : ∀ rules : RuleReader, (∀ rule s, P rule s (rules rule s)) →
      ∀ rule s, P rule s (rule.body.readBy rules s)) (rule : Rule) (s : List Char) :
    P rule s (rule.read s) := by
  have h : ∀ n rule s, P rule s (readUpTo n rule s) := by
    intro n
    induction n with
    | zero => exact exhausted
    | succ n ih => exact body _ ih
  obtain ⟨n, hn⟩ := readUpTo_settles_read rule s
  exact hn n (Nat.le_refl n) ▸ h n rule s

/-- With enough stack an account ends as the reading says. -/
theorem Grammar.account_settles {α : Type} (g : Grammar α) (s : List Char) :
    Settles (fun k => (g.account (readWithin Rule.body k) (.start s)).ending.reading)
      (g.read s) := by
  obtain ⟨n, hn⟩ := g.readBy_settles s
  exact ⟨n, fun k hk => hn k hk ▸ (account_endsAs (readWithin_endsAs k) g (.start s) rfl).reading⟩

end DhallSyntax
