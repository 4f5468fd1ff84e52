import DhallSyntax.Proofs.Parser.Errors
import DhallSyntax.Proofs.Reading.Levels

/-!
What is expected where a source goes on behind a complete expression. Wherever an expression ends,
something that goes on with it has been tried behind the whitespace there, and was noted. The one
construct that ends without such an attempt is an empty list whose element type is an import with a
mode: nothing is tried behind the word for the mode. Main statement: `trailing_explained`.
-/

namespace DhallSyntax

variable {α β σ : Type} {settings : Settings} {source : List Char} {n : Nat}

/-! ## Accounts go onward -/

namespace Account

/-- Nothing is missed in front of the place where an account began, and it ends there or further
on. -/
structure Onward (c : Cursor) (A : Account α) : Prop where
  misses : ∀ m ∈ A.misses, c.offset ≤ m.offset
  offset : c.offset ≤ A.ending.stop.offset
  rest : A.ending.stop.rest <:+ c.rest

namespace Onward

variable {c d : Cursor}

/-- Nothing is missed, and the account ends where it began. -/
theorem here {A : Account α} (hm : A.misses = []) (hs : A.ending.stop = c) : A.Onward c :=
  ⟨by simp [hm], Nat.le_of_eq (by rw [hs]), hs ▸ List.suffix_rfl⟩

theorem advance {a : α} (count : Nat) (c : Cursor) :
    (⟨[], .value a (c.advance count)⟩ : Account α).Onward c :=
  ⟨List.forall_mem_nil _, Nat.le_add_right .., List.drop_suffix ..⟩

theorem after {A : Account α} {earlier : List Miss} (h : A.Onward d)
    (he : ∀ m ∈ earlier, c.offset ≤ m.offset) (ho : c.offset ≤ d.offset) (hr : d.rest <:+ c.rest) :
    (A.after earlier).Onward c where
  misses := List.forall_mem_append.mpr ⟨he, fun m hm => Nat.le_trans ho (h.misses m hm)⟩
  offset := Nat.le_trans ho h.offset
  rest := h.rest.trans hr

theorem bind {A : Account β} {next : β → Cursor → Account α} (h : A.Onward c)
    (hn : ∀ b d, (next b d).Onward d) : (A.bind next).Onward c := by
  obtain ⟨hm, ho, hr⟩ := h
  unfold Account.bind
  cases he : A.ending with
  | value b d =>
    rw [he] at ho hr
    exact (hn b d).after hm ho hr
  | mismatch d =>
    rw [he] at ho hr
    exact ⟨hm, ho, hr⟩
  | abort a d =>
    rw [he] at ho hr
    exact ⟨hm, ho, hr⟩

theorem orElse {A B : Account α} (h : A.Onward c) (h' : B.Onward c) : (A.orElse B).Onward c := by
  unfold Account.orElse
  split
  · exact h'.after h.misses (Nat.le_refl _) List.suffix_rfl
  · exact h

theorem within {A : Account α} (h : A.Onward c) (rule : Rule) : (A.within rule c).Onward c := by
  obtain ⟨hm, ho, hr⟩ := h
  have hmisses : ∀ m ∈ (A.within rule c).misses, c.offset ≤ m.offset :=
    List.forall_mem_map.mpr hm
  cases he : A.ending with
  | mismatch d =>
    have hstop : (A.within rule c).ending.stop = c := by rw [Account.within, he]; rfl
    exact ⟨hmisses, hstop.symm ▸ Nat.le_refl _, hstop.symm ▸ List.suffix_rfl⟩
  | value a d =>
    have hstop : (A.within rule c).ending.stop = A.ending.stop := by rw [Account.within, he]
    exact ⟨hmisses, hstop ▸ ho, hstop ▸ hr⟩
  | abort a d =>
    have hstop : (A.within rule c).ending.stop = A.ending.stop := by rw [Account.within, he]; rfl
    exact ⟨hmisses, hstop ▸ ho, hstop ▸ hr⟩

theorem iterateWithin {step : σ → Cursor → Account (σ ⊕ α)}
    (h : ∀ state c, (step state c).Onward c) (bound : List Char) (state : σ) (c : Cursor) :
    (Account.iterateWithin step bound state c).Onward c := by
  induction bound generalizing state c with
  | nil =>
    unfold Account.iterateWithin
    refine (h state c).bind fun x d => ?_
    cases x <;> exact .here rfl rfl
  | cons _ bound ih =>
    unfold Account.iterateWithin
    refine (h state c).bind fun x d => ?_
    cases x with
    | inl next => exact ih next d
    | inr a => exact .here rfl rfl

end Onward

end Account

theorem account_onward {reader : Reader} (h : ∀ rule c, (reader rule c).Onward c)
    (g : Grammar α) (c : Cursor) : (g.account reader c).Onward c := by
  induction g generalizing c with
  | bind first next ihf ihn => exact (ihf c).bind ihn
  | orElse first second ihf ihs => exact (ihf c).orElse (ihs c)
  | call rule => exact h rule c
  | nested body ih => exact ih c
  | iterate state step ih => exact .iterateWithin ih _ state c
  | accept literal =>
    rw [Grammar.account]
    split
    · exact .advance _ c
    · exact .here rfl rfl
  | advance count => exact .advance count c
  | fail expectation =>
    exact ⟨List.forall_mem_singleton.mpr (Nat.le_refl _), Nat.le_refl _, List.suffix_rfl⟩
  | pure | look | mismatch | abort => exact .here rfl rfl

theorem readWithin_onward (n : Nat) (rule : Rule) (c : Cursor) :
    (readWithin Rule.body n rule c).Onward c := by
  induction n generalizing rule c with
  | zero => exact .here rfl rfl
  | succ n ih => exact (account_onward ih rule.body c).within rule

/-! ## What is tried where something ends -/

/-- The place behind the whitespace at a place. -/
def Cursor.behindSpace (c : Cursor) : Nat := c.offset + (Whitespace.extent c.rest).length

/-- Something that did not match was tried behind the whitespace at a place, or further on. -/
def Account.Tried (A : Account α) (c : Cursor) : Prop :=
  ∃ m ∈ A.misses, c.behindSpace ≤ m.offset

theorem Account.Tried.mono {A : Account α} {B : Account β} {c : Cursor} (h : A.Tried c)
    (hm : A.misses ⊆ B.misses) : B.Tried c :=
  let ⟨m, hin, ho⟩ := h
  ⟨m, hm hin, ho⟩

theorem Account.Tried.within {A : Account α} {c : Cursor} (h : A.Tried c) (rule : Rule)
    (start : Cursor) : (A.within rule start).Tried c :=
  let ⟨_, hin, ho⟩ := h
  ⟨_, List.mem_map_of_mem hin, ho⟩

/-! ## How accounts end -/

namespace Account

variable {c stop : Cursor} {a : α}

/-- What a part misses stays missed. -/
theorem misses_bind (A : Account β) (next : β → Cursor → Account α) :
    A.misses ⊆ (A.bind next).misses := by
  intro m hm
  unfold Account.bind
  split
  · exact List.mem_append_left _ hm
  · exact hm
  · exact hm

/-- The value of a part, and the place where it ends. -/
theorem bind_eq_value {A : Account β} {next : β → Cursor → Account α}
    (h : (A.bind next).ending = .value a stop) :
    ∃ b d, A.ending = .value b d ∧ (next b d).ending = .value a stop ∧
      (next b d).misses ⊆ (A.bind next).misses := by
  unfold Account.bind at h ⊢
  cases he : A.ending with
  | value b d =>
    rw [he] at h
    exact ⟨b, d, rfl, h, List.subset_append_right ..⟩
  | mismatch d => rw [he] at h; cases h
  | abort a d => rw [he] at h; cases h

/-- A part that does not match, or one behind it. -/
theorem bind_eq_mismatch {A : Account β} {next : β → Cursor → Account α}
    (h : (A.bind next).ending = .mismatch stop) :
    A.ending = .mismatch stop ∨ ∃ b d, A.ending = .value b d ∧
      (next b d).ending = .mismatch stop ∧ (next b d).misses ⊆ (A.bind next).misses := by
  unfold Account.bind at h ⊢
  cases he : A.ending with
  | value b d =>
    rw [he] at h
    exact .inr ⟨b, d, rfl, h, List.subset_append_right ..⟩
  | mismatch d => rw [he] at h; cases h; exact .inl rfl
  | abort a d => rw [he] at h; cases h

/-- An alternative that is taken, or one behind another that does not match. -/
theorem orElse_eq_value {A B : Account α} (h : (A.orElse B).ending = .value a stop) :
    A.ending = .value a stop ∧ A.misses ⊆ (A.orElse B).misses ∨
      (∃ d, A.ending = .mismatch d) ∧ B.ending = .value a stop ∧
        A.misses ++ B.misses ⊆ (A.orElse B).misses := by
  unfold Account.orElse at h ⊢
  cases he : A.ending with
  | mismatch d =>
    rw [he] at h
    exact .inr ⟨⟨d, rfl⟩, h, List.Subset.refl _⟩
  | value b d =>
    rw [he] at h
    exact .inl ⟨he.symm.trans h, List.Subset.refl _⟩
  | abort b d =>
    rw [he] at h
    cases he.symm.trans h

/-- A loop has tried what the step has that ends it. -/
theorem iterateWithin_tried {step : σ → Cursor → Account (σ ⊕ α)}
    (h : ∀ state c a stop, (step state c).ending = .value (.inr a) stop →
      (step state c).Tried stop)
    {bound : List Char} {state : σ}
    (he : (iterateWithin step bound state c).ending = .value a stop) :
    (iterateWithin step bound state c).Tried stop := by
  induction bound generalizing state c with
  | nil =>
    unfold iterateWithin at he ⊢
    obtain ⟨x, d, hx, hv, hm⟩ := bind_eq_value he
    cases x with
    | inl next => cases hv
    | inr b =>
      cases hv
      exact (h state c _ _ hx).mono (misses_bind _ _)
  | cons _ bound ih =>
    unfold iterateWithin at he ⊢
    obtain ⟨x, d, hx, hv, hm⟩ := bind_eq_value he
    cases x with
    | inl next => exact (ih hv).mono hm
    | inr b =>
      cases hv
      exact (h state c _ _ hx).mono (misses_bind _ _)

end Account

namespace Grammar

/-- What a part of a grammar does by itself inside at most `n` rules. -/
abbrev alone (g : Grammar α) (n : Nat) (c : Cursor) : Account α :=
  g.account (readWithin Rule.body n) c

theorem alone_onward (g : Grammar α) (n : Nat) (c : Cursor) : (g.alone n c).Onward c :=
  account_onward (readWithin_onward n) g c

/-- Where a part of a grammar ends with a value, something has been tried behind the whitespace, or
else the value and the texts in front of and behind what was taken are an exception. -/
def Concludes (n : Nat) (E : α → List Char → List Char → Prop) (g : Grammar α) : Prop :=
  ∀ c a stop, (g.alone n c).ending = .value a stop →
    (g.alone n c).Tried stop ∨ E a c.rest stop.rest

/-- Where a part of a grammar does not match, something has been tried behind the whitespace. -/
def Looks (g : Grammar α) : Prop :=
  ∀ n c stop, (g.alone n c).ending = .mismatch stop → (g.alone n c).Tried c

/-- No exception. -/
def never : α → List Char → List Char → Prop := fun _ _ _ => False

/-- An exception that depends on how a text ends only. -/
def Exempts (E : α → List Char → List Char → Prop) : Prop :=
  ∀ a s s' rest, s' <:+ s → E a s' rest → E a s rest

section Concludes

variable {E : α → List Char → List Char → Prop}

theorem exempts_never : Exempts (never (α := α)) := fun _ _ _ _ _ => id

theorem Concludes.of_never {g : Grammar α} (h : g.Concludes n never) : g.Concludes n E :=
  fun c a stop he => (h c a stop he).imp_right False.elim

/-- A part ends as its last part does. -/
theorem Concludes.bind {first : Grammar β} {next : β → Grammar α} (hE : Exempts E)
    (hn : ∀ b, (next b).Concludes n E) : (first >>= next).Concludes n E := by
  intro c a stop he
  obtain ⟨b, d, hf, hv, hm⟩ := Account.bind_eq_value he
  have hrest := (alone_onward first n c).rest
  rw [hf] at hrest
  exact (hn b d a stop hv).imp (fun ht => ht.mono hm) (hE a _ _ _ hrest)

/-- What is made of a value ends where the value does. -/
theorem Concludes.map {E' : β → List Char → List Char → Prop} {first : Grammar β}
    {next : β → Grammar α} (h : first.Concludes n E')
    (hn : ∀ b, ∃ a, next b = pure a ∧ ∀ s rest, E' b s rest → E a s rest) :
    (first >>= next).Concludes n E := by
  intro c a stop he
  obtain ⟨b, d, hf, hv, -⟩ := Account.bind_eq_value he
  obtain ⟨a', ha, hE⟩ := hn b
  rw [ha] at hv
  cases hv
  exact (h c b stop hf).imp (fun ht => ht.mono (Account.misses_bind _ _)) (hE _ _)

theorem Concludes.choice {alternatives : List (Grammar α)}
    (h : ∀ g ∈ alternatives, g.Concludes n E) : (choice alternatives).Concludes n E := by
  induction alternatives with
  | nil => exact fun c a stop he => by cases he
  | cons g rest ih =>
    obtain ⟨hg, hrest⟩ := List.forall_mem_cons.mp h
    intro c a stop he
    obtain ⟨hv, hm⟩ | ⟨-, hv, hm⟩ := Account.orElse_eq_value he
    · exact (hg c a stop hv).imp_left fun ht => ht.mono hm
    · exact (ih hrest c a stop hv).imp_left fun ht =>
        ht.mono (List.Subset.trans (List.subset_append_right ..) hm)

/-- A rule ends as its body does. -/
theorem Concludes.call (rule : Rule) {E : rule.Result → List Char → List Char → Prop}
    (h : ∀ m < n, rule.body.Concludes m E) : (call rule).Concludes n E := by
  intro c a stop he
  cases n with
  | zero => cases he
  | succ n =>
    have hA : (Grammar.call rule).alone (n + 1) c = (rule.body.alone n c).within rule c := rfl
    rw [hA] at he ⊢
    have hbody : (rule.body.alone n c).ending = .value a stop := by
      unfold Account.within at he
      cases hb : (rule.body.alone n c).ending with
      | value b d => rw [hb] at he; exact he
      | mismatch d => rw [hb] at he; cases he
      | abort b d => rw [hb] at he; cases he
    exact (h n (Nat.lt_succ_self n) c a stop hbody).imp_left fun ht => ht.within rule c

end Concludes

/-! ## Parts that look past whitespace -/

theorem alone_whitespace_value {c stop : Cursor} {u : Unit}
    (h : (whitespace.alone n c).ending = .value u stop) : stop.offset = c.behindSpace := by
  obtain ⟨extent, d, he, h, -⟩ := Account.bind_eq_value h
  cases he
  obtain ⟨_, d, he, h, -⟩ := Account.bind_eq_value h
  cases he
  have hstop : stop = c.advance (Whitespace.extent c.rest).length := by
    split at h
    · obtain ⟨length, d, he, h, -⟩ := Account.bind_eq_value h
      cases he
      obtain ⟨_, d, he, h, -⟩ := Account.bind_eq_value h
      cases h
    · cases h
      rfl
  rw [hstop, Cursor.advance, Cursor.behindSpace, List.length_take,
    Nat.min_eq_left (Whitespace.extent_le _)]

theorem alone_whitespace_mismatch {c stop : Cursor} :
    (whitespace.alone n c).ending ≠ .mismatch stop := by
  intro h
  obtain he | ⟨extent, d, he, h, -⟩ := Account.bind_eq_mismatch h
  · cases he
  obtain he | ⟨_, d, he, h, -⟩ := Account.bind_eq_mismatch h
  · cases he
  split at h
  · obtain he | ⟨length, d, he, h, -⟩ := Account.bind_eq_mismatch h
    · cases he
    obtain he | ⟨_, d, he, h, -⟩ := Account.bind_eq_mismatch h
    · cases he
    · cases h
  · cases h

/-- What is tried behind whitespace notes it when it does not match. -/
theorem looks_whitespace {next : Unit → Grammar α} (hn : (next ()).Notes) :
    (whitespace >>= next).Looks := by
  intro n c stop he
  obtain hd | ⟨_, d, hd, hv, hmisses⟩ := Account.bind_eq_mismatch he
  · exact absurd hd alone_whitespace_mismatch
  obtain ⟨m, hm⟩ := List.exists_mem_of_ne_nil _ (hn n d stop hv)
  have hplace := alone_whitespace_value hd
  have honward := (alone_onward (next ()) n d).misses m hm
  exact ⟨m, hmisses hm, hplace ▸ honward⟩

/-- So does a part that asks for whitespace, also where there is none. -/
theorem looks_whitespace1 {next : Unit → Grammar α} (hn : (next ()).Notes) :
    (whitespace1 >>= next).Looks := by
  intro n c stop he
  cases hs : Whitespace.starts c.rest with
  | true =>
    have hA : (whitespace1 >>= next).alone n c = (whitespace >>= next).alone n c := by
      simp only [alone, whitespace1, Bind.bind, account, Account.bind, hs, if_true,
        Account.after, List.nil_append]
    rw [hA] at he ⊢
    exact looks_whitespace hn n c stop he
  | false =>
    have hextent : (Whitespace.extent c.rest).length = 0 := by
      rw [Whitespace.extent_tight (by simpa [Whitespace.starts] using hs)]
    have hA : (whitespace1 >>= next).alone n c =
        ⟨[⟨c.offset, "whitespace", []⟩], .mismatch c⟩ := by
      simp only [alone, whitespace1, Bind.bind, account, Account.bind, hs, Bool.false_eq_true,
        if_false, Account.after, List.nil_append]
    rw [hA]
    exact ⟨_, List.mem_singleton_self _, by rw [Cursor.behindSpace, hextent]; exact Nat.le_refl _⟩

/-- An optional part that is not there has been looked for. -/
theorem Concludes.optional? {E : α → List Char → List Char → Prop} {part : Grammar α}
    (h : part.Concludes n E) (hl : part.Looks) :
    (optional? part).Concludes n fun value? s rest => ∃ a, value? = some a ∧ E a s rest := by
  intro c value? stop he
  obtain ⟨hv, hm⟩ | ⟨⟨d, hd⟩, hv, hm⟩ := Account.orElse_eq_value he
  · have hsome := h.map (E := fun value? s rest => ∃ a, value? = some a ∧ E a s rest)
      fun a => ⟨some a, rfl, fun s rest hE => ⟨a, rfl, hE⟩⟩
    exact (hsome c value? stop hv).imp_left fun ht => ht.mono hm
  · cases hv
    obtain hd | ⟨_, _, -, hd, -⟩ := Account.bind_eq_mismatch hd
    · have hlater := List.Subset.trans (List.subset_append_left ..) hm
      exact .inl ((hl n c d hd).mono (List.Subset.trans (Account.misses_bind _ _) hlater))
    · cases hd

/-- A loop ends as the step does that ends it. -/
theorem concludes_iterate {step : σ → Grammar (σ ⊕ α)}
    (h : ∀ state, (step state).Concludes n fun x _ _ => ∃ next, x = .inl next) (state : σ) :
    (iterate state step).Concludes n never := by
  refine fun c a stop he => .inl (Account.iterateWithin_tried (fun state c a stop hv => ?_) he)
  exact (h state c _ _ hv).resolve_right fun ⟨_, h⟩ => by cases h

/-- A repetition has looked for one more. -/
theorem concludes_foldMany {part : Grammar α} (hl : part.Looks) (f : σ → α → σ) (start : σ) :
    (foldMany part f start).Concludes n never := by
  have hpart : part.Concludes n fun _ _ _ => True := fun _ _ _ _ => .inr trivial
  refine concludes_iterate (fun state => (hpart.optional? hl).map fun value? => ?_) start
  cases value? with
  | some a => exact ⟨.inl (f state a), rfl, fun _ _ _ => ⟨_, rfl⟩⟩
  | none => exact ⟨.inr state, rfl, fun _ _ h => by simp at h⟩

/-! ## What notes something when it does not match -/

theorem notes_accept (literal : String) : (accept literal).Notes := by
  intro n c stop he
  rw [account] at he
  split at he <;> cases he

theorem notes_expectAny (literals : List String) : (expectAny literals).Notes := by
  have hany : ∀ literals, (acceptAny literals).Notes := by
    intro literals
    induction literals with
    | nil => exact notes_pure _
    | cons literal rest ih =>
      refine (notes_accept literal).bind fun taken => ?_
      split
      · exact notes_pure _
      · exact ih
  refine (hany literals).bind fun literal? => ?_
  cases literal? with
  | some literal => exact notes_pure _
  | none => exact notes_fail _

theorem notes_expect (literal : String) : (expect literal).Notes :=
  (notes_expectAny _).bind fun _ => notes_pure _

theorem notes_keyword (word : String) : (keyword word).Notes := by
  refine (notes_look _).bind fun goesOn => ?_
  dsimp only
  split
  · exact (notes_fail _).bind fun _ => (notes_accept _).bind fun taken => by
      cases taken <;> first | exact notes_pure _ | exact notes_fail _
  · exact (notes_accept _).bind fun taken => by
      cases taken <;> first | exact notes_pure _ | exact notes_fail _

theorem notes_whitespace1 : whitespace1.Notes := by
  refine (notes_look _).bind fun starts => ?_
  split
  · exact notes_whitespace
  · exact notes_fail _

theorem notes_takeWhile (chars : CharClass) : (takeWhile chars).Notes :=
  (notes_look _).bind fun _ => (notes_advance _).bind fun _ => notes_pure _

theorem notes_label : (call .label).Notes := by
  have hquoted : quotedLabel.Notes :=
    (notes_expect _).bind fun _ => (notes_takeWhile _).bind fun _ => (notes_expect _).bind fun _ =>
      notes_pure _
  have hbare : bareLabel.Notes := by
    refine (notes_look _).bind fun c? => ?_
    cases c? with
    | none => exact notes_fail _
    | some c =>
      dsimp only
      split
      · exact (notes_takeWhile _).bind fun _ => notes_pure _
      · exact notes_fail _
  refine notes_call ((notes_look _).bind fun c? => ?_)
  split
  · exact hquoted
  · refine (notes_look _).bind fun word => (notes_look _).bind fun starts => ?_
    split
    · exact notes_fail _
    · exact hbare

theorem Notes.ite {p : Prop} [Decidable p] {g g' : Grammar α} (h : g.Notes) (h' : g'.Notes) :
    (if p then g else g').Notes := by
  split
  · exact h
  · exact h'

theorem notes_projectionLabels : projectionLabels.Notes := by
  refine notes_whitespace.bind fun _ => (notes_accept _).bind fun comma =>
    .ite (notes_whitespace.bind fun _ => ?_) ?_
  all_goals
    refine (Notes.iterate (fun labels => (notes_look _).bind fun c? => ?_) _).bind fun _ =>
      (notes_expect _).bind fun _ => notes_pure _
    exact .ite (notes_pure _) <| notes_label.bind fun _ => notes_whitespace.bind fun _ =>
      (notes_accept _).bind fun _ => .ite (notes_whitespace.bind fun _ => notes_pure _) (notes_pure _)

/-! ## Parts that look for more -/

/-- Parts in a row may be grouped in any way. -/
theorem alone_bind_assoc {γ : Type} (first : Grammar γ) (second : γ → Grammar β)
    (next : β → Grammar α) (n : Nat) (c : Cursor) :
    ((first >>= second) >>= next).alone n c = (first >>= fun x => second x >>= next).alone n c := by
  simp only [alone, Bind.bind, account]
  generalize account (readWithin Rule.body n) first c = A
  simp only [Account.bind]
  cases A.ending with
  | value x d =>
    simp only [Account.after]
    cases (account (readWithin Rule.body n) (second x) d).ending <;>
      simp only [List.append_assoc]
  | mismatch d => rfl
  | abort a d => rfl

theorem Looks.assoc {γ : Type} {first : Grammar γ} {second : γ → Grammar β}
    {next : β → Grammar α} (h : (first >>= fun x => second x >>= next).Looks) :
    ((first >>= second) >>= next).Looks := by
  intro n c stop he
  rw [alone_bind_assoc] at he ⊢
  exact h n c stop he

theorem looks_selector : selector.Looks := by
  refine looks_whitespace ((notes_expect _).bind fun _ => notes_whitespace.bind fun _ =>
    (notes_accept _).bind fun brace => ?_)
  split
  · exact notes_projectionLabels.bind fun _ => notes_pure _
  · refine (notes_accept _).bind fun paren => ?_
    split
    · exact notes_completeExpression.bind fun _ => (notes_expect _).bind fun _ => notes_pure _
    · exact notes_label.bind fun _ => notes_pure _

theorem looks_colon {next : Unit → Grammar α} (hn : (next ()).Notes) : (colon >>= next).Looks :=
  .assoc <| looks_whitespace <| ((notes_expect _).bind fun _ => notes_whitespace1).bind fun _ => hn

theorem looks_mode : (do whitespace; keyword "as"; whitespace1; importMode : Grammar _).Looks := by
  refine looks_whitespace ((notes_keyword _).bind fun _ => notes_whitespace1.bind fun _ => ?_)
  exact (notes_fail "'Text' or 'Location'").choice (by simp)

end Grammar

/-! ## The exception -/

/-- A text ends with the word for a mode, up to what remains of it. -/
def ImportMode.Closes (mode : ImportMode) (s rest : List Char) : Prop :=
  mode ≠ .code ∧ ∃ before, s = before ++ mode.word.toList ++ rest

theorem ImportMode.Closes.extend {mode : ImportMode} {s s' rest : List Char}
    (h : mode.Closes s' rest) (hs : s' <:+ s) : mode.Closes s rest := by
  obtain ⟨x, rfl⟩ := hs
  obtain ⟨hm, before, rfl⟩ := h
  exact ⟨hm, x ++ before, by simp only [List.append_assoc]⟩

/-- The last part of an expression, through the bodies and types that may end it. -/
def Tree.lastPart {τ ν : Type} : Tree τ ν → Tree τ ν
  | .lambda _ _ body => body.lastPart
  | .pi _ _ body => body.lastPart
  | .letIn _ body => body.lastPart
  | .conditional _ _ no => no.lastPart
  | .annotated _ type => type.lastPart
  | e => e

/-- An expression that ends in an empty list whose element type is an import with a mode, and the
word for the mode ends the text of the expression. -/
def Expr.EndsInMode (e : Expr) (s rest : List Char) : Prop :=
  ∃ i : Import String, e.lastPart = .emptyList (.embedded i) ∧ i.mode.Closes s rest

namespace Grammar

theorem alone_accept_true {literal : String} {c stop : Cursor}
    (h : ((accept literal).alone n c).ending = .value true stop) :
    c.rest = literal.toList ++ stop.rest := by
  simp only [alone, account] at h
  split at h
  · rename_i hn
    cases h
    rw [Cursor.isNext, Bool.and_eq_true, List.isPrefixOf_iff_prefix] at hn
    obtain ⟨t, ht⟩ := hn.2
    simp [Cursor.advance, ← ht, ← String.length_toList]
  · cases h

theorem alone_keyword_value {word : String} {c stop : Cursor} {u : Unit}
    (h : ((keyword word).alone n c).ending = .value u stop) :
    c.rest = word.toList ++ stop.rest := by
  obtain ⟨goesOn, d, hlook, h, -⟩ := Account.bind_eq_value h
  cases hlook
  dsimp only at h
  split at h
  · obtain ⟨_, d, hfail, -⟩ := Account.bind_eq_value h
    cases hfail
  · obtain ⟨taken, d, ht, h, -⟩ := Account.bind_eq_value h
    cases taken with
    | true =>
      cases h
      exact alone_accept_true ht
    | false => cases h

theorem concludes_importMode : importMode.Concludes n ImportMode.Closes := by
  have hword : ∀ {word}, (keyword word).Concludes n fun _ s rest => s = word.toList ++ rest :=
    fun _ _ _ he => .inr (alone_keyword_value he)
  refine .choice (List.forall_mem_cons.mpr ⟨?_, List.forall_mem_cons.mpr
    ⟨?_, List.forall_mem_singleton.mpr fun _ _ _ he => by cases he⟩⟩)
  · exact hword.map fun _ => ⟨.rawText, rfl, fun s rest h => ⟨by decide, [], h⟩⟩
  · exact hword.map fun _ => ⟨.location, rfl, fun s rest h => ⟨by decide, [], h⟩⟩

theorem exempts_closes : Exempts ImportMode.Closes := fun _ _ _ _ hs h => h.extend hs

theorem exempts_endsInMode : Exempts Expr.EndsInMode :=
  fun _ _ _ _ hs ⟨i, hi, h⟩ => ⟨i, hi, h.extend hs⟩

theorem concludes_importClause : importClause.Concludes n fun i s rest => i.mode.Closes s rest := by
  have hmode : (do whitespace; keyword "as"; whitespace1; importMode : Grammar _).Concludes n
      ImportMode.Closes :=
    .bind exempts_closes fun _ => .bind exempts_closes fun _ => .bind exempts_closes fun _ =>
      concludes_importMode
  refine .bind (fun _ _ _ _ hs h => h.extend hs) fun hashed =>
    (hmode.optional? looks_mode).map fun mode? => ⟨_, rfl, ?_⟩
  rintro s rest ⟨mode, rfl, h⟩
  exact h

theorem concludes_selectorExpression : selectorExpression.Concludes n never :=
  .bind exempts_never fun _ => concludes_foldMany looks_selector _ _

theorem concludes_applicationExpression : applicationExpression.Concludes n never :=
  .bind exempts_never fun _ =>
    concludes_foldMany (looks_whitespace1 notes_importExpression) _ _

theorem concludes_importExpression : importExpression.Concludes n fun e s rest =>
    ∃ i : Import String, e = .embedded i ∧ i.mode.Closes s rest := by
  have hclause : (call .importClause).Concludes n fun i s rest => i.mode.Closes s rest :=
    .call _ fun _ _ => concludes_importClause
  refine .choice (List.forall_mem_cons.mpr ⟨?_, List.forall_mem_singleton.mpr ?_⟩)
  · exact hclause.map fun i => ⟨.embedded i, rfl, fun s rest h => ⟨i, rfl, h⟩⟩
  · exact .call .selectorExpression fun _ _ => concludes_selectorExpression.of_never

theorem concludes_emptyListExpression : emptyListExpression.Concludes n Expr.EndsInMode := by
  have helement : (call .importExpression).Concludes n fun e s rest =>
      ∃ i : Import String, e = .embedded i ∧ i.mode.Closes s rest :=
    .call _ fun _ _ => concludes_importExpression
  refine .bind exempts_endsInMode fun _ => .bind exempts_endsInMode fun _ =>
    .bind exempts_endsInMode fun _ => .bind exempts_endsInMode fun _ =>
    .bind exempts_endsInMode fun _ => .bind exempts_endsInMode fun _ =>
    helement.map fun e => ⟨.emptyList e, rfl, ?_⟩
  rintro s rest ⟨i, rfl, h⟩
  exact ⟨i, rfl, h⟩

/-- The annotated forms with a handler or a record end as their types do. -/
theorem concludes_typedForm {form : Expr → Expr} :
    (do return form (← call .applicationExpression)).Concludes n never :=
  Concludes.map (.call _ fun _ _ => concludes_applicationExpression) fun _ =>
    ⟨_, rfl, fun _ _ => id⟩

theorem concludes_mergeExpression : mergeExpression.Concludes n never :=
  .bind exempts_never fun _ => .bind exempts_never fun _ => .bind exempts_never fun _ =>
    .bind exempts_never fun _ => .bind exempts_never fun _ => .bind exempts_never fun _ =>
    concludes_typedForm

theorem concludes_toMapExpression : toMapExpression.Concludes n never :=
  .bind exempts_never fun _ => .bind exempts_never fun _ => .bind exempts_never fun _ =>
    .bind exempts_never fun _ => concludes_typedForm

section Bodies

variable (h : (call .expression).Concludes n Expr.EndsInMode)

include h

/-- A form that ends with an expression ends as that does. -/
theorem concludes_form {form : Expr → Expr} (hform : ∀ e, (form e).lastPart = e.lastPart) :
    (do return form (← call .expression)).Concludes n Expr.EndsInMode :=
  h.map fun e => ⟨form e, rfl, fun _ _ ⟨i, hi, hc⟩ => ⟨i, (hform e).trans hi, hc⟩⟩

theorem concludes_lambdaExpression : lambdaExpression.Concludes n Expr.EndsInMode :=
  .bind exempts_endsInMode fun _ => .bind exempts_endsInMode fun _ =>
    .bind exempts_endsInMode fun _ => concludes_form h fun _ => rfl

theorem concludes_ifExpression : ifExpression.Concludes n Expr.EndsInMode := by
  iterate 10 refine .bind exempts_endsInMode fun _ => ?_
  exact concludes_form h fun _ => rfl

theorem concludes_letExpression : letExpression.Concludes n Expr.EndsInMode :=
  .bind exempts_endsInMode fun _ => .bind exempts_endsInMode fun _ =>
    .bind exempts_endsInMode fun _ => .bind exempts_endsInMode fun _ =>
    concludes_form h fun _ => rfl

theorem concludes_forallExpression : forallExpression.Concludes n Expr.EndsInMode := by
  refine .bind exempts_endsInMode fun taken => ?_
  cases taken with
  | true =>
    exact .bind exempts_endsInMode fun _ => .bind exempts_endsInMode fun _ =>
      concludes_form h fun _ => rfl
  | false =>
    exact .bind exempts_endsInMode fun _ => .bind exempts_endsInMode fun _ =>
      .bind exempts_endsInMode fun _ => concludes_form h fun _ => rfl

theorem concludes_arrowExpression : arrowExpression.Concludes n Expr.EndsInMode :=
  .bind exempts_endsInMode fun _ => .bind exempts_endsInMode fun _ =>
    concludes_form h fun _ => rfl

theorem concludes_annotatedExpression : annotatedExpression.Concludes n Expr.EndsInMode := by
  have htype : (do colon; call .expression).Concludes n Expr.EndsInMode :=
    .bind exempts_endsInMode fun _ => h
  refine .bind exempts_endsInMode fun subject =>
    (htype.optional? (looks_colon notes_expression)).map fun type? => ?_
  cases type? with
  | some type =>
    refine ⟨.annotated subject type, rfl, ?_⟩
    rintro s rest ⟨_, ⟨⟩, he⟩
    exact he
  | none => exact ⟨subject, rfl, by rintro s rest ⟨_, ⟨⟩, -⟩⟩

end Bodies

/-- Where an expression ends, something has been tried behind it, unless it ends with the mode of
the element type of an empty list. -/
theorem concludes_expression (n : Nat) : (call .expression).Concludes n Expr.EndsInMode := by
  induction n using Nat.strongRecOn with
  | ind n ih =>
    refine .call .expression fun m hm => ?_
    have hinner : ∀ k < m, (call .expression).Concludes k Expr.EndsInMode :=
      fun k hk => ih k (Nat.lt_trans hk hm)
    refine Concludes.choice ?_
    simp only [List.forall_mem_cons]
    exact ⟨.call .lambdaExpression fun k hk => concludes_lambdaExpression (hinner k hk),
      .call .ifExpression fun k hk => concludes_ifExpression (hinner k hk),
      .call .letExpression fun k hk => concludes_letExpression (hinner k hk),
      .call .forallExpression fun k hk => concludes_forallExpression (hinner k hk),
      .call .arrowExpression fun k hk => concludes_arrowExpression (hinner k hk),
      .call .mergeExpression fun _ _ => concludes_mergeExpression.of_never,
      .call .emptyListExpression fun _ _ => concludes_emptyListExpression,
      .call .toMapExpression fun _ _ => concludes_toMapExpression.of_never,
      .call .annotatedExpression fun k hk => concludes_annotatedExpression (hinner k hk),
      List.forall_mem_nil _⟩

theorem concludes_leadingExpression (n : Nat) :
    leadingExpression.Concludes n Expr.EndsInMode :=
  .bind exempts_endsInMode fun _ => concludes_expression n

end Grammar

/-! ## Errors about a residue -/

/-- What is expected behind an expression is what the furthest failure expected there or further
on. -/
theorem ofTrailing_expected {offset : Nat} {f : Furthest} {e : SyntaxError}
    (h : ParseError.ofTrailing source offset (some f) = .source e) (ho : offset ≤ f.offset) :
    e.expected = f.expected := by
  cases h
  dsimp only
  rw [if_neg (Nat.not_lt.mpr ho)]
  split <;> rfl

/-- The furthest failure behind an expression at the beginning of a source. -/
theorem furthest_behind {p : Prefix} (h : (parsePrefixWith settings source).result = .ok p) :
    (∃ f, (parsePrefixWith settings source).state.furthest = some f ∧ f.expected ≠ [] ∧
      (Whitespace.behind source p.consumed).length ≤ f.offset) ∨
    p.expression.EndsInMode source (source.drop p.consumed) := by
  obtain ⟨t, hr, ht, hin, -⟩ := leadingExpression_state h
  have hstate : (parsePrefixWith settings source).state = t := by
    unfold parsePrefixWith runFrom
    rw [hr]
  have hrest : t.cursor.rest = source.drop p.consumed := ht ▸ hin.rest_eq
  have hsound := (State.In.initial source).sound
  obtain ⟨-, ⟨-, _, _, _, hr', -⟩ | ⟨⟨_, _, hr', -⟩, -⟩ | ⟨k, -, -, hr'⟩⟩ :=
    (run_accounted (callWithin_accounted settings.stack) Grammar.leadingExpression _ hsound :
      Accounted Rule.body source settings settings.stack _ _
        (Grammar.leadingExpression.start settings (.initial source)))
  · cases hr.symm.trans hr'
  · cases hr.symm.trans hr'
  rw [Grammar.start] at hr
  rw [hr] at hr'
  obtain ⟨hvalue, halike⟩ := Account.alike_value hr'
  obtain ⟨m, hm, ho⟩ | hmode := Grammar.concludes_leadingExpression k _ _ _ hvalue
  · have hreport := halike.report.symm.trans (Account.stateAfter_report _ _)
    have hsummary := Report.addAll_summarizes
      (Grammar.leadingExpression.alone k (State.initial source).cursor).misses
    have hinitial : (State.initial source).report = none := rfl
    rw [hinitial] at hreport
    rw [← hreport] at hsummary
    rw [hstate]
    cases hf : t.furthest with
    | none =>
      rw [State.report, hf] at hsummary
      exact absurd hm (hsummary ▸ List.not_mem_nil)
    | some f =>
      rw [State.report, hf] at hsummary
      refine .inl ⟨f, rfl, hsummary.ne_nil, Nat.le_trans ?_ (hsummary.1 m hm)⟩
      rwa [Cursor.behindSpace, ht, hrest] at ho
  · exact .inr (hrest ▸ hmode)

/-- Every residue is explained: where a source goes on behind an expression, something is expected,
unless the expression ends with the mode of the element type of an empty list. -/
theorem trailing_explained {source : String} {e : SyntaxError}
    (h : parse settings source = .error (.source e)) (hkind : e.kind = .trailing) :
    e.expected ≠ [] ∨ ∃ p, parsePrefix settings source = .ok p ∧
      p.expression.EndsInMode source.toList (source.toList.drop p.consumed) := by
  obtain ⟨p, length, hp, hextent, hlt, -⟩ := trailing_behind h hkind
  obtain ⟨f, hf, hne, hle⟩ | hmode := furthest_behind hp
  · refine .inl ?_
    have hparse : parse settings source = _ := parseWith_of_ok hp
    simp only [Whitespace.behind, hextent, Bool.false_eq_true, if_false, Nat.ne_of_lt hlt, hf]
      at hparse
    have he := Except.error.inj (hparse.symm.trans h)
    rw [ofTrailing_expected he (by simpa [Whitespace.behind, hextent] using hle)]
    exact hne
  · exact .inr ⟨p, hp, hmode⟩

/-- An empty list of a text from elsewhere, and a closing parenthesis behind it. -/
theorem parse_listOfText :
    parse ⟨some 4, true, 200⟩ "[] : List ./a as Text )" =
      .error (.ofTrailing "[] : List ./a as Text )".toList 22 none) :=
  eq_error_of_elim (by decide +kernel)

/-- Behind the word for a mode nothing is expected. -/
theorem trailing_unexplained :
    ∃ e, parse ⟨some 4, true, 200⟩ "[] : List ./a as Text )" = .error (.source e) ∧
      e.kind = .trailing ∧ e.location.offset = 22 ∧ e.expected = [] :=
  ⟨_, parse_listOfText, rfl, rfl, rfl⟩

/-- Behind a number something is, and the list is the exception. -/
theorem trailing_explained_number :
    (∃ e, parse ⟨some 4, true, 200⟩ "1 )" = .error (.source e) ∧ e.kind = .trailing ∧
      (e.expected ≠ [] ∨ ∃ p, parsePrefix ⟨some 4, true, 200⟩ "1 )" = .ok p ∧
        p.expression.EndsInMode "1 )".toList ("1 )".toList.drop p.consumed))) ∧
      ∃ p, parsePrefix ⟨some 4, true, 200⟩ "[] : List ./a as Text )" = .ok p ∧
        p.expression.EndsInMode "[] : List ./a as Text )".toList
          ("[] : List ./a as Text )".toList.drop p.consumed) := by
  have hnumber : parse ⟨some 4, true, 200⟩ "1 )" =
      .error (.ofTrailing "1 )".toList 2 (some ⟨2, ["'.'", "'missing'", "'/'", "'http'", "'env:'",
        "a digit", "'+' or '-'", "'\"'", "\"''\"", "'\x7b'", "'<'", "'['", "a label", "'('",
        "an operator", "'→' or '->'", "':'"], [.expression]⟩)) :=
    eq_error_of_elim (by decide +kernel)
  exact ⟨⟨_, hnumber, rfl, trailing_explained hnumber rfl⟩,
    (trailing_explained parse_listOfText rfl).resolve_left fun h => h rfl⟩

end DhallSyntax
