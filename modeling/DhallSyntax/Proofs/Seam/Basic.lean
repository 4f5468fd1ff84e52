import DhallSyntax.Proofs.Context.Steady
import DhallSyntax.Proofs.Reading.Solid

/-!
Two texts with a beginning in common. What is read within the beginning of one of them is read of
the other one as well, as long as no rule looks past the seam and sees a difference. `Seam.Same` is
a derivation of that: it follows the grammar, and says at every place where the two readings stand.
Main statements:

* `Seam.Same.read_now`: the derivation gives the reading of the second text;
* `Seam.Same.read_was`: and that of the first one, unless it ends with a defect.
-/

namespace DhallSyntax

variable {α β σ : Type}

/-- A part makes something of a text, or ends with one of some faults. A repetition does so with
any bound that is long enough. -/
def Part.Agrees (bad : Fault → Prop) (s : List Char) (least : Nat) (q : Reading α) :
    Part α → Prop
  | .term g => (g.read s).Below bad q
  | .loop step state => ∀ bound : List Char, least ≤ bound.length →
      (Reading.iterateWithin (fun state s => (step state).read s) bound state s).Below bad q

/-- Two ends for one text: `common` goes on both of them, then one has what is `cut` off, the other
what is `put` in its place. Only the end of the text or whitespace takes the place of something. -/
structure Seam where
  common : List Char
  cut : List Char
  put : List Char
  /-- How many rules inside each other are looked for behind the second end. -/
  levels : Nat
  apart : put = [] ∨ cut = [] ∧ ∃ c r, put = c :: r ∧ (c = ' ' ∨ c = '\n')
  /-- The second end is behind whitespace, if there is anything. -/
  blank : common ++ put = [] ∨ Whitespace.starts (common ++ put) = true

namespace Seam

variable {T : Seam}

/-- A text with the first end. -/
def was (T : Seam) (x : List Char) : List Char := x ++ (T.common ++ T.cut)

/-- A text with the second end. -/
def now (T : Seam) (x : List Char) : List Char := x ++ (T.common ++ T.put)

theorem was_length (x : List Char) : (T.was x).length = x.length + (T.was []).length := by
  simp only [was, List.length_append, List.length_nil, Nat.zero_add]

theorem now_length (x : List Char) : (T.now x).length = x.length + (T.now []).length := by
  simp only [now, List.length_append, List.length_nil, Nat.zero_add]

/-- An ending with the first end of the text. -/
def wasReading (T : Seam) : Place α → Reading α
  | some (a, y) => .value a (T.was y)
  | none => .mismatch

/-- An ending with the second end of the text. -/
def nowReading (T : Seam) : Place α → Reading α
  | some (a, y) => .value a (T.now y)
  | none => .mismatch

theorem nowReading_ne_abort (T : Seam) (r : Place α) (fault : Fault) :
    T.nowReading r ≠ .abort fault := by
  cases r <;> exact fun h => by cases h

/-- A part that does nothing but look at the second end: it does not match there, opens no
expression and calls no more rules inside each other than are looked for. -/
def Quiet (T : Seam) (g : Grammar α) : Prop :=
  ∀ depth, Steady .bare T.levels depth (.term g) (T.now []) none

theorem Quiet.misses {g : Grammar α} (h : T.Quiet g) : g.read (T.now []) = .mismatch :=
  (h 0).read

/-- A part of a grammar at the rest of a text in front of the seam ends there in the same way with
either end. It is derived along the grammar; at the seam itself a part may look at the first end as
it likes, as long as it does not match. -/
inductive Same (T : Seam) : {α : Type} → Part α → List Char → Place α → Prop where
  | plain {α : Type} {g : Grammar α} {x : List Char} {r : Place α} : g.CallFree →
      (g.read (T.was x)).Below (fun fault => fault.isDefect = true) (T.wasReading r) →
      g.read (T.now x) = T.nowReading r → Same T (.term g) x r
  | bind {α β : Type} {first : Grammar β} {next : β → Grammar α} {x z : List Char} {b : β}
      {r : Place α} : Same T (.term first) x (some (b, z)) → Same T (.term (next b)) z r →
      Same T (.term (.bind first next)) x r
  | miss {α β : Type} {first : Grammar β} {next : β → Grammar α} {x : List Char} :
      Same T (.term first) x none → Same T (.term (.bind first next)) x none
  | left {α : Type} {first second : Grammar α} {x y : List Char} {a : α} :
      Same T (.term first) x (some (a, y)) → Same T (.term (.orElse first second)) x (some (a, y))
  | right {α : Type} {first second : Grammar α} {x : List Char} {r : Place α} :
      Same T (.term first) x none → Same T (.term second) x r →
      Same T (.term (.orElse first second)) x r
  | call {rule : Rule} {x : List Char} {r : Place rule.Result} : x ≠ [] →
      Same T (.term rule.body) x r → Same T (.term (.call rule)) x r
  | nested {α : Type} {g : Grammar α} {x : List Char} {r : Place α} : Same T (.term g) x r →
      Same T (.term (.nested g)) x r
  | iterate {α σ : Type} {state : σ} {step : σ → Grammar (σ ⊕ α)} {x : List Char} {r : Place α} :
      Same T (.loop step state) x r → Same T (.term (.iterate state step)) x r
  | last {α σ : Type} {state : σ} {step : σ → Grammar (σ ⊕ α)} {x y : List Char} {a : α} :
      Same T (.term (step state)) x (some (.inr a, y)) →
      Same T (.loop step state) x (some (a, y))
  | stuck {α σ : Type} {state : σ} {step : σ → Grammar (σ ⊕ α)} {x : List Char} :
      Same T (.term (step state)) x none → Same T (.loop step state) x none
  | next {α σ : Type} {state state' : σ} {step : σ → Grammar (σ ⊕ α)} {x z : List Char}
      {r : Place α} : Same T (.term (step state)) x (some (.inl state', z)) →
      z.length < x.length → Same T (.loop step state') z r → Same T (.loop step state) x r
  | tail {α : Type} {g : Grammar α} :
      (g.read (T.was [])).Below (fun fault => fault.isDefect = true) .mismatch → T.Quiet g →
      Same T (.term g) [] none

/-- A part takes some of the text with either end. -/
abbrev Reads (T : Seam) (g : Grammar α) (x : List Char) (a : α) (y : List Char) : Prop :=
  T.Same (.term g) x (some (a, y))

/-- A part does not match with either end. -/
abbrev Misses (T : Seam) (g : Grammar α) (x : List Char) : Prop := T.Same (.term g) x none

theorem Same.agrees {p : Part α} {x : List Char} {r : Place α} (h : T.Same p x r) :
    p.Agrees (fun fault => fault.isDefect = true) (T.was x) x.length (T.wasReading r) ∧
      p.Agrees (fun _ => False) (T.now x) x.length (T.nowReading r) := by
  induction h with
  | plain _ hw hn => exact ⟨hw, hn ▸ .refl _⟩
  | bind _ _ ihf ihn => exact ⟨ihf.1.bind_value ihn.1, ihf.2.bind_value ihn.2⟩
  | miss _ ih => exact ⟨ih.1.bind_mismatch, ih.2.bind_mismatch⟩
  | left _ ih => exact ⟨ih.1.orElse_value, ih.2.orElse_value⟩
  | right _ _ ihf ihs => exact ⟨ihf.1.orElse_mismatch ihs.1, ihf.2.orElse_mismatch ihs.2⟩
  | call _ _ ih =>
    simp only [Part.Agrees, Grammar.readBy_call, Rule.read_eq]
    exact ih
  | nested _ ih => exact ih
  | iterate _ ih =>
    exact ⟨ih.1 _ (by rw [was_length]; omega), ih.2 _ (by rw [now_length]; omega)⟩
  | last _ ih =>
    refine ⟨fun bound _ => ?_, fun bound _ => ?_⟩ <;> unfold Reading.iterateWithin
    · exact ih.1.bind_value (.refl _)
    · exact ih.2.bind_value (.refl _)
  | stuck _ ih =>
    refine ⟨fun bound _ => ?_, fun bound _ => ?_⟩ <;> unfold Reading.iterateWithin
    · exact ih.1.bind_mismatch
    · exact ih.2.bind_mismatch
  | next _ hlt _ ihs ihn =>
    refine ⟨fun bound hb => ?_, fun bound hb => ?_⟩ <;> unfold Reading.iterateWithin <;>
      obtain ⟨c, bound, rfl⟩ := List.exists_cons_of_length_pos (Nat.lt_of_lt_of_le (Nat.zero_lt_of_lt hlt) hb)
    · exact ihs.1.bind_value (ihn.1 bound (by simp only [List.length_cons] at hb; omega))
    · exact ihs.2.bind_value (ihn.2 bound (by simp only [List.length_cons] at hb; omega))
  | @tail α g hw hq =>
    have hn : (g.read (T.now [])).Below (fun _ => False) .mismatch := hq.misses ▸ .refl _
    exact ⟨hw, hn⟩

theorem Same.read_now {g : Grammar α} {x : List Char} {r : Place α} (h : T.Same (.term g) x r) :
    g.read (T.now x) = T.nowReading r := by
  have hnow : (g.read (T.now x)).Below (fun _ => False) (T.nowReading r) := h.agrees.2
  exact (hnow.eq_of_ne fun _ hf => hf.elim).symm

theorem Same.read_was {g : Grammar α} {x : List Char} {r : Place α} (h : T.Same (.term g) x r) :
    (g.read (T.was x)).Below (fun fault => fault.isDefect = true) (T.wasReading r) :=
  h.agrees.1

end Seam

end DhallSyntax
