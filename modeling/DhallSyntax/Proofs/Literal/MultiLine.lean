import DhallSyntax.Proofs.Text.CharClass
import Mathlib.Data.List.Basic

/-!
Which texts multi-line literals stand for, and how they are written. Main statements:

* `MultiLine.body`: a multi-line text is the text of its encoding;
* `Body.multiLine`: every text of a body is a multi-line text.
-/

namespace DhallSyntax

open CharClass

variable {s t x rest p : List Char} {c : Char}

/-! ## Multi-line texts -/

/-- What may stand for itself in a multi-line literal. -/
def PlainChar (c : Char) : Prop := c = '\t' ∨ c = '\n' ∨ printable c = true

/-- Every character may stand for itself, or is a carriage return in front of a line feed. -/
def OnlyPlain (s : List Char) : Prop :=
  ∀ c rest, c :: rest <:+ s → PlainChar c ∨ c = '\r' ∧ rest.head? = some '\n'

/-- Wherever a run of quotes ends in front of an interpolation mark or at the end, it has an even
number of quotes. -/
def EvenQuotes (s : List Char) : Prop :=
  ∀ before n after, s = before ++ (List.replicate n '\'' ++ after) →
    before.getLast? ≠ some '\'' → after.head? ≠ some '\'' → after = [] ∨ ['$', '{'] <+: after →
      n % 2 = 0

/-- What a multi-line literal can stand for. -/
structure MultiLine (s : List Char) : Prop where
  chars : OnlyPlain s
  quotes : EvenQuotes s

theorem plainChar_quote : PlainChar '\'' := .inr (.inr (by decide))

theorem onlyPlain_cons : OnlyPlain (c :: s) ↔
    (PlainChar c ∨ c = '\r' ∧ s.head? = some '\n') ∧ OnlyPlain s := by
  constructor
  · exact fun h => ⟨h c s (List.suffix_refl _), fun d rest hd =>
      h d rest (hd.trans (List.suffix_cons c s))⟩
  · rintro ⟨hc, hs⟩ d rest hd
    obtain heq | hd := List.suffix_cons_iff.mp hd
    · obtain ⟨rfl, rfl⟩ := List.cons.inj heq
      exact hc
    · exact hs d rest hd

theorem onlyPlain_quote : OnlyPlain ('\'' :: s) ↔ OnlyPlain s :=
  onlyPlain_cons.trans (and_iff_right (.inl plainChar_quote))

/-! ### Runs of quotes -/

theorem getLast?_cons_ne (hc : c ≠ '\'') :
    (c :: s).getLast? ≠ some '\'' ↔ s.getLast? ≠ some '\'' := by
  rw [List.getLast?_cons]
  cases s.getLast? with
  | none => simp [hc]
  | some d => simp

/-- A character that is no quote is in front of every run. -/
theorem evenQuotes_cons (hc : c ≠ '\'') : EvenQuotes (c :: s) ↔ EvenQuotes s := by
  constructor
  · intro h before n after hs hbefore
    exact h (c :: before) n after (congrArg (c :: ·) hs) ((getLast?_cons_ne hc).mpr hbefore)
  · intro h before n after hs hbefore
    cases before with
    | nil =>
      cases n with
      | zero => exact fun _ _ => rfl
      | succ n => exact absurd (List.cons.inj hs).1 hc
    | cons b before =>
      obtain ⟨rfl, hrest⟩ := List.cons.inj hs
      exact h before n after hrest ((getLast?_cons_ne hc).mp hbefore)

/-- A pair of quotes in front changes nothing, whether it is a part of the first run or not. -/
theorem evenQuotes_pair : EvenQuotes ('\'' :: '\'' :: s) ↔ EvenQuotes s := by
  constructor
  · intro h before n after hs hbefore hafter hend
    by_cases hnil : before = []
    · have heven := h [] (n + 2) after (by rw [hs, hnil]; rfl) nofun hafter hend
      omega
    · refine h ('\'' :: '\'' :: before) n after (congrArg (fun s => '\'' :: '\'' :: s) hs) ?_
        hafter hend
      rwa [← List.getLast?_append_of_ne_nil ['\'', '\''] hnil] at hbefore
  · intro h before n after hs hbefore hafter hend
    match before, hs, hbefore with
    | [], hs, _ =>
      match n, hs with
      | 0, _ => rfl
      | 1, hs => exact absurd (congrArg List.head? (List.cons.inj hs).2).symm hafter
      | n + 2, hs =>
        have heven := h [] n after (List.cons.inj (List.cons.inj hs).2).2 nofun hafter hend
        omega
    | [b], hs, hbefore =>
      exact absurd (congrArg some (List.cons.inj hs).1.symm) hbefore
    | b :: d :: before, hs, hbefore =>
      have hrest := (List.cons.inj (List.cons.inj hs).2).2
      refine h before n after hrest (fun hlast => hbefore ?_) hafter hend
      rw [List.getLast?_cons, List.getLast?_cons, hlast]
      rfl

/-- A single quote in front may stand neither at the end nor in front of a mark. -/
theorem evenQuotes_single (hs : s.head? ≠ some '\'') : EvenQuotes ('\'' :: s) ↔
    (s ≠ [] ∧ ¬ ['$', '{'] <+: s) ∧ EvenQuotes s := by
  constructor
  · intro h
    refine ⟨⟨fun hnil => ?_, fun hmark => ?_⟩, fun before n after heq hbefore hafter hend => ?_⟩
    · exact absurd (h [] 1 s rfl nofun hs (.inl hnil)) (by decide)
    · exact absurd (h [] 1 s rfl nofun hs (.inr hmark)) (by decide)
    · by_cases hnil : before = []
      · subst hnil
        cases n with
        | zero => rfl
        | succ n => exact absurd (congrArg List.head? heq) hs
      · refine h ('\'' :: before) n after (congrArg ('\'' :: ·) heq) ?_ hafter hend
        rwa [← List.getLast?_append_of_ne_nil ['\''] hnil] at hbefore
  · rintro ⟨⟨hne, hmark⟩, h⟩ before n after heq hbefore hafter hend
    match before, heq, hbefore with
    | [], heq, _ =>
      match n, heq with
      | 0, _ => rfl
      | 1, heq =>
        obtain rfl : s = after := (List.cons.inj heq).2
        exact absurd hend (not_or.mpr ⟨hne, hmark⟩)
      | n + 2, heq => exact absurd (congrArg List.head? (List.cons.inj heq).2) hs
    | b :: before, heq, hbefore =>
      have hrest := (List.cons.inj heq).2
      refine h before n after hrest (fun hlast => hbefore ?_) hafter hend
      rw [List.getLast?_cons, hlast]
      rfl

namespace MultiLine

theorem nil : MultiLine [] where
  chars c rest h := by simp at h
  quotes before n after h _ _ _ := by
    have hn := congrArg List.length h
    simp only [List.length_nil, List.length_append, List.length_replicate] at hn
    omega

theorem iff_and : MultiLine s ↔ OnlyPlain s ∧ EvenQuotes s :=
  ⟨fun h => ⟨h.chars, h.quotes⟩, fun h => ⟨h.1, h.2⟩⟩

theorem cons_iff (hc : c ≠ '\'') : MultiLine (c :: s) ↔
    (PlainChar c ∨ c = '\r' ∧ s.head? = some '\n') ∧ MultiLine s := by
  rw [iff_and, iff_and, onlyPlain_cons, evenQuotes_cons hc, and_assoc]

theorem pair_iff : MultiLine ('\'' :: '\'' :: s) ↔ MultiLine s := by
  rw [iff_and, iff_and, onlyPlain_quote, onlyPlain_quote, evenQuotes_pair]

theorem single_iff (hs : s.head? ≠ some '\'') : MultiLine ('\'' :: s) ↔
    (s ≠ [] ∧ ¬ ['$', '{'] <+: s) ∧ MultiLine s := by
  rw [iff_and, iff_and, onlyPlain_quote, evenQuotes_single hs, and_left_comm]

theorem mark_iff : MultiLine ('$' :: '{' :: s) ↔ MultiLine s := by
  have hplain : PlainChar '$' ∧ PlainChar '{' := ⟨.inr (.inr (by decide)), .inr (.inr (by decide))⟩
  rw [cons_iff (by decide), cons_iff (by decide), and_iff_right (.inl hplain.1),
    and_iff_right (.inl hplain.2)]

end MultiLine

/-! ## Bodies -/

/-- What is taken from the body of a multi-line literal at once, the text that it stands for, and
what is left. -/
inductive Piece : List Char → List Char → List Char → Prop where
  | pair {t : List Char} : Piece ('\'' :: '\'' :: '\'' :: t) ['\'', '\''] t
  | mark {t : List Char} : Piece ('\'' :: '\'' :: '$' :: '{' :: t) ['$', '{'] t
  | lineEnd {t : List Char} : Piece ('\r' :: '\n' :: t) ['\r', '\n'] t
  | char {c : Char} {t : List Char} : PlainChar c → ¬ ['$', '{'] <+: c :: t →
      ¬ ['\'', '\''] <+: c :: t → Piece (c :: t) [c] t

/-- A body up to the quotes that close it, the text that it stands for, and what is left. -/
inductive Body : List Char → List Char → List Char → Prop where
  | close {t : List Char} : t.head? ≠ some '\'' → ¬ ['$', '{'] <+: t →
      Body ('\'' :: '\'' :: t) [] t
  | piece {x p t s rest : List Char} : Piece x p t → Body t s rest → Body x (p ++ s) rest

/-- Each pair of quotes becomes three of them, and two are put in front of each interpolation mark. -/
def encode : List Char → List Char
  | '\'' :: '\'' :: s => '\'' :: '\'' :: '\'' :: encode s
  | '$' :: '{' :: s => '\'' :: '\'' :: '$' :: '{' :: encode s
  | c :: s => c :: encode s
  | [] => []

/-! ### Every text of a body is a multi-line text -/

/-- A text begins with a brace only where the body does. -/
theorem Body.head_brace (h : Body x s rest) (hs : s.head? = some '{') : x.head? = some '{' := by
  cases h with
  | close => cases hs
  | piece hp _ =>
    cases hp with
    | char => exact hs
    | pair | mark | lineEnd => exact absurd (Option.some.inj hs) (by decide)

/-- Where the body begins with no quote, the text goes on, and neither with a quote nor with an
interpolation mark. -/
theorem Body.goesOn (h : Body x s rest) (hx : x.head? ≠ some '\'') :
    s.head? ≠ some '\'' ∧ s ≠ [] ∧ ¬ ['$', '{'] <+: s := by
  cases h with
  | close => exact absurd rfl hx
  | @piece _ p t s _ hp hbody =>
    cases hp with
    | pair | mark => exact absurd rfl hx
    | lineEnd => exact ⟨by simp, by simp, by simp⟩
    | @char c _ _ hmark _ =>
      refine ⟨hx, List.cons_ne_nil _ _, fun ⟨more, hmore⟩ => hmark ?_⟩
      obtain ⟨rfl, hs⟩ := List.cons.inj hmore
      obtain ⟨u, hu⟩ := List.head?_eq_some_iff.mp (hbody.head_brace (congrArg List.head? hs).symm)
      exact ⟨u, by rw [hu]; rfl⟩

theorem Body.multiLine (h : Body x s rest) : MultiLine s := by
  induction h with
  | close => exact .nil
  | @piece x p t s rest hp hbody ih =>
    cases hp with
    | pair => exact MultiLine.pair_iff.mpr ih
    | mark => exact MultiLine.mark_iff.mpr ih
    | lineEnd =>
      refine (MultiLine.cons_iff (by decide)).mpr ⟨.inr ⟨rfl, rfl⟩, ?_⟩
      exact (MultiLine.cons_iff (by decide)).mpr ⟨.inl (.inr (.inl rfl)), ih⟩
    | @char c _ hplain _ hpair =>
      by_cases hc : c = '\''
      · subst hc
        have ht : t.head? ≠ some '\'' := fun ht => by
          obtain ⟨u, rfl⟩ := List.head?_eq_some_iff.mp ht
          exact hpair ⟨u, rfl⟩
        obtain ⟨hhead, hgoesOn⟩ := hbody.goesOn ht
        exact (MultiLine.single_iff hhead).mpr ⟨hgoesOn, ih⟩
      · exact (MultiLine.cons_iff hc).mpr ⟨.inl hplain, ih⟩

/-! ### Every multi-line text has a body -/

/-- What is written for a text begins as the text does, or with a quote at the end and in front of an
interpolation mark. -/
theorem head?_encode (s : List Char) :
    (encode s ++ ['\'', '\'']).head? = s.head? ∨
      (encode s ++ ['\'', '\'']).head? = some '\'' ∧ (s = [] ∨ ['$', '{'] <+: s) := by
  fun_cases encode s with
  | case1 | case3 => exact .inl rfl
  | case2 s => exact .inr ⟨rfl, .inr ⟨s, rfl⟩⟩
  | case4 => exact .inr ⟨rfl, .inl rfl⟩

/-- A line feed stands for itself. -/
theorem Body.behind_lineFeed (h : Body ('\n' :: x) ('\n' :: s) rest) : Body x s rest := by
  generalize hs : '\n' :: s = text at h
  cases h with
  | piece hp hbody =>
    cases hp with
    | char =>
      obtain rfl := (List.cons.inj hs).2
      exact hbody

theorem MultiLine.body (h : MultiLine s) : Body (encode s ++ ['\'', '\'']) s [] := by
  fun_induction encode s with
  | case1 s ih => exact .piece .pair (ih (pair_iff.mp h))
  | case2 s ih => exact .piece .mark (ih (mark_iff.mp h))
  | case3 c s hpair hmark ih =>
    -- Neither an interpolation nor the closing quotes begin with a character that is left alone.
    have hopen : ¬ ['$', '{'] <+: c :: (encode s ++ ['\'', '\'']) := by
      rintro ⟨t, ht⟩
      obtain ⟨rfl, hrest⟩ := List.cons.inj ht
      have hbrace : (encode s ++ ['\'', '\'']).head? = some '{' := (congrArg List.head? hrest).symm
      obtain hhead | ⟨hhead, -⟩ := head?_encode s
      · obtain ⟨u, rfl⟩ := List.head?_eq_some_iff.mp (hhead.symm.trans hbrace)
        exact hmark u rfl rfl
      · exact absurd (hhead.symm.trans hbrace) (by decide)
    by_cases hc : c = '\''
    · subst hc
      have hs : s.head? ≠ some '\'' := fun hs => by
        obtain ⟨u, rfl⟩ := List.head?_eq_some_iff.mp hs
        exact hpair u rfl rfl
      obtain ⟨⟨hne, hnot⟩, hrest⟩ := (single_iff hs).mp h
      refine .piece (.char plainChar_quote hopen ?_) (ih hrest)
      rintro ⟨t, ht⟩
      obtain hhead | ⟨-, hnil | hbegins⟩ := head?_encode s
      · exact hs (hhead.symm.trans (congrArg List.head? (List.cons.inj ht).2).symm)
      · exact hne hnil
      · exact hnot hbegins
    · obtain ⟨hplain | ⟨rfl, hfeed⟩, hrest⟩ := (cons_iff hc).mp h
      · refine .piece (.char hplain hopen ?_) (ih hrest)
        exact fun ⟨t, ht⟩ => hc (List.cons.inj ht).1.symm
      · obtain ⟨u, rfl⟩ := List.head?_eq_some_iff.mp hfeed
        exact .piece .lineEnd (ih hrest).behind_lineFeed
  | case4 => exact .close nofun nofun

end DhallSyntax
