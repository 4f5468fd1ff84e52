import DhallSyntax.Text.Pattern

/-!
The texts that a pattern matches. `Matches` says so without derivatives. Main statement:
`matchesAll_iff`, matching by derivatives decides it.
-/

namespace DhallSyntax.Pattern

/-- A pattern matches a whole text. -/
inductive Matches : Pattern → List Char → Prop
  | empty : Matches empty []
  | one {chars : CharClass} {c : Char} : chars c = true → Matches (one chars) [c]
  | seq {a b : Pattern} {s t : List Char} :
      Matches a s → Matches b t → Matches (seq a b) (s ++ t)
  | left {a b : Pattern} {s : List Char} : Matches a s → Matches (either a b) s
  | right {a b : Pattern} {s : List Char} : Matches b s → Matches (either a b) s
  | none {a : Pattern} : Matches (many a) []
  | more {a : Pattern} {s t : List Char} :
      Matches a s → Matches (many a) t → Matches (many a) (s ++ t)

variable {a b p : Pattern} {s t : List Char} {c : Char} {chars : CharClass}

/-! ## Patterns by their parts -/

@[simp] theorem not_matches_never : ¬ Matches never s := by
  rintro ⟨⟩

@[simp] theorem matches_empty : Matches empty s ↔ s = [] :=
  ⟨fun h => by cases h; rfl, fun h => h ▸ .empty⟩

@[simp] theorem matches_one : Matches (one chars) s ↔ ∃ c, chars c = true ∧ s = [c] :=
  ⟨fun h => by cases h; exact ⟨_, ‹_›, rfl⟩, fun ⟨_, hc, hs⟩ => hs ▸ .one hc⟩

@[simp] theorem matches_seq :
    Matches (seq a b) s ↔ ∃ t u, s = t ++ u ∧ Matches a t ∧ Matches b u :=
  ⟨fun h => by cases h; exact ⟨_, _, rfl, ‹_›, ‹_›⟩, fun ⟨_, _, hs, ha, hb⟩ => hs ▸ .seq ha hb⟩

@[simp] theorem matches_either : Matches (either a b) s ↔ Matches a s ∨ Matches b s :=
  ⟨fun h => by cases h <;> simp_all, fun h => h.elim .left .right⟩

theorem matches_andThen : Matches (andThen a b) s ↔ Matches (seq a b) s := by
  unfold andThen
  split
  · simp
  · rw [matches_seq]
    constructor
    · exact fun h => ⟨[], s, rfl, .empty, h⟩
    · rintro ⟨t, u, rfl, ⟨⟩, hb⟩
      exact hb
  · rfl

theorem matches_orAlso : Matches (orAlso a b) s ↔ Matches (either a b) s := by
  unfold orAlso
  split <;> simp

theorem matches_many_cons :
    Matches (many a) (c :: s) ↔ ∃ t u, s = t ++ u ∧ Matches a (c :: t) ∧ Matches (many a) u := by
  constructor
  · intro h
    generalize hp : many a = p at h
    generalize hs : c :: s = w at h
    induction h with
    | @more a t u ha hmany _ ih =>
      cases hp
      cases t with
      | nil => exact ih rfl hs
      | cons d t =>
        obtain ⟨rfl, rfl⟩ := List.cons.inj hs
        exact ⟨t, u, rfl, ha, hmany⟩
    | none => cases hs
    | _ => cases hp
  · rintro ⟨t, u, rfl, ha, hmany⟩
    exact .more ha hmany

theorem matches_seq_cons : Matches (seq a b) (c :: s) ↔
    (∃ t u, s = t ++ u ∧ Matches a (c :: t) ∧ Matches b u) ∨
      Matches a [] ∧ Matches b (c :: s) := by
  rw [matches_seq]
  constructor
  · rintro ⟨t, u, hs, ha, hb⟩
    cases t with
    | nil =>
      rw [List.nil_append] at hs
      exact .inr ⟨ha, hs ▸ hb⟩
    | cons d t =>
      obtain ⟨rfl, rfl⟩ := List.cons.inj hs
      exact .inl ⟨t, u, rfl, ha, hb⟩
  · rintro (⟨t, u, rfl, ha, hb⟩ | ⟨ha, hb⟩)
    · exact ⟨c :: t, u, rfl, ha, hb⟩
    · exact ⟨[], c :: s, rfl, ha, hb⟩

/-! ## Derivatives -/

theorem nullable_iff : nullable p = true ↔ Matches p [] := by
  induction p with
  | never => simp [nullable]
  | empty => simp [nullable]
  | one chars => simp [nullable]
  | seq a b iha ihb => simp [nullable, iha, ihb, and_assoc]
  | either a b iha ihb => simp [nullable, iha, ihb]
  | many a => simp [nullable, Matches.none]

theorem matches_derivative : Matches (derivative c p) s ↔ Matches p (c :: s) := by
  induction p generalizing s with
  | never => simp [derivative]
  | empty => simp [derivative]
  | one chars =>
    by_cases hc : chars c = true
    · simp only [derivative, hc, ↓reduceIte, matches_empty, matches_one, List.cons.injEq]
      exact ⟨fun h => ⟨c, hc, rfl, h⟩, fun ⟨_, _, _, h⟩ => h⟩
    · simp only [derivative, hc, Bool.false_eq_true, ↓reduceIte, not_matches_never, matches_one,
        List.cons.injEq, false_iff, not_exists, not_and]
      rintro d hd rfl
      exact absurd hd hc
  | seq a b iha ihb =>
    rw [matches_seq_cons]
    cases ha : nullable a <;>
      simp [derivative, ha, matches_andThen, matches_orAlso, iha, ihb, ← nullable_iff]
  | either a b iha ihb => simp [derivative, matches_orAlso, iha, ihb]
  | many a ih => simp [derivative, matches_andThen, matches_many_cons, ih]

/-- Matching by derivatives decides which texts a pattern matches. -/
theorem matchesAll_iff : matchesAll p s = true ↔ Matches p s := by
  rw [matchesAll, nullable_iff]
  induction s generalizing p with
  | nil => rfl
  | cons c s ih => rw [List.foldl_cons, ih, matches_derivative]

/-! ## Patterns made of others -/

@[simp] theorem matches_char : Matches (char c) s ↔ s = [c] := by
  simp [char]

theorem matches_sequence_cons {ps : List Pattern} :
    Matches (sequence (p :: ps)) s ↔ ∃ t u, s = t ++ u ∧ Matches p t ∧ Matches (sequence ps) u :=
  matches_seq

theorem matches_oneOf {ps : List Pattern} : Matches (oneOf ps) s ↔ ∃ p ∈ ps, Matches p s := by
  induction ps with
  | nil => simp [oneOf]
  | cons p ps ih => simp [oneOf, ih]

theorem matches_word {w : String} : Matches (word w) s ↔ s = w.toList := by
  rw [word]
  induction w.toList generalizing s with
  | nil => simp [sequence]
  | cons c w ih => simp [matches_sequence_cons, ih]

theorem matches_words {ws : List String} : Matches (words ws) s ↔ ∃ w ∈ ws, s = w.toList := by
  rw [words, matches_oneOf]
  constructor
  · rintro ⟨p, hp, h⟩
    obtain ⟨w, hw, rfl⟩ := List.mem_map.mp hp
    exact ⟨w, hw, matches_word.mp h⟩
  · rintro ⟨w, hw, h⟩
    exact ⟨word w, List.mem_map_of_mem hw, matches_word.mpr h⟩

@[simp] theorem matches_maybe : Matches (maybe p) s ↔ Matches p s ∨ s = [] := by
  simp [maybe]

theorem matches_many_one (h : ∀ c ∈ s, chars c = true) : Matches (many (one chars)) s := by
  induction s with
  | nil => exact .none
  | cons c s ih =>
    exact .more (.one (h c List.mem_cons_self)) (ih fun d hd => h d (List.mem_cons_of_mem _ hd))

/-- What a sequence with a character as a part matches has that character. -/
theorem mem_of_matches_sequence {ps : List Pattern} (hp : char c ∈ ps)
    (h : Matches (sequence ps) s) : c ∈ s := by
  induction ps generalizing s with
  | nil => nomatch hp
  | cons p ps ih =>
    obtain ⟨t, u, rfl, ht, hu⟩ := matches_sequence_cons.mp h
    obtain rfl | hp := List.mem_cons.mp hp
    · rw [matches_char.mp ht]
      simp
    · exact List.mem_append_right t (ih hp hu)

end DhallSyntax.Pattern
