import DhallSyntax.Proofs.Context.Halting
import DhallSyntax.Proofs.Context.Whole
import DhallSyntax.Proofs.Literal.Numbers

/-!
Sources that are one word, with an index or without. A word may begin as any keyword, builtin, URL
or number name does; what it is depends on the whole of it. Main statement: `parse_word`.
-/

namespace DhallSyntax

open Grammar CharClass
open Numeral (placeValue positional_eq_placeValue)
open Whitespace (Tight)

variable {α β : Type} {S : Surroundings} {levels depth : Nat} {s t u w : List Char} {e : Expr}

/-! ## Behind an operand -/

/-- Nothing, or an at sign and more. -/
def AtSign (t : List Char) : Prop := t = [] ∨ ∃ v, t = '@' :: v

/-- What an operand never goes on with: nothing, an at sign, or a colon with a quotation mark right
behind it. -/
def EndsOperand (t : List Char) : Prop := AtSign t ∨ ∃ v, t = ':' :: '"' :: v

theorem AtSign.ends (h : AtSign t) : EndsOperand t := .inl h

namespace EndsOperand

theorem nothing : EndsOperand [] := .inl (.inl rfl)

variable (h : EndsOperand t)

include h

theorem head {chars : CharClass} (hat : chars '@' = false) (hcolon : chars ':' = false) :
    t.head?.any chars = false := by
  obtain (rfl | ⟨v, rfl⟩) | ⟨v, rfl⟩ := h
  · rfl
  · exact hat
  · exact hcolon

theorem tight : Tight t := Whitespace.tight_of_head (h.head (by decide) (by decide))

theorem space : Steady S levels depth (.term whitespace) t (some ((), t)) :=
  .plain (by simp [whitespace]) (readBy_whitespace_tight h.tight)

theorem noSpace : Steady S levels depth (.term whitespace1) t none := by
  refine .plain (by simp [whitespace1, whitespace]) ?_
  obtain (rfl | ⟨v, rfl⟩) | ⟨v, rfl⟩ := h <;> rfl

theorem noMark {literal : String}
    (hl : literal.toList.head?.any (fun c => c != '@' && c != ':') = true) :
    Steady S levels depth (.term (expect literal)) t none :=
  .plain (by simp) (beginsWith_expect literal hl t (h.head (by decide) (by decide)))

theorem noKeyword {word : String}
    (hl : word.toList.head?.any (fun c => c != '@' && c != ':') = true) :
    Steady S levels depth (.term (keyword word)) t none :=
  .plain (by simp) (beginsWith_keyword word hl t (h.head (by decide) (by decide)))

theorem noArrow : Steady S levels depth (.term arrow) t none := by
  refine .bind h.space (.miss (.plain (by simp) ?_))
  have hhead : t.head?.any (fun c => c != '@' && c != ':') = false :=
    h.head (by decide) (by decide)
  exact beginsWith_expectAny (by decide) t hhead

/-- A type has whitespace in front of it. -/
theorem noColon : Steady S levels depth (.term colon) t none := by
  refine .bind h.space ?_
  obtain (rfl | ⟨v, rfl⟩) | ⟨v, rfl⟩ := h
  · exact .miss (.plain (by simp) rfl)
  · exact .miss (.plain (by simp) rfl)
  · exact .bind (u := '"' :: v) (.plain (by simp) rfl)
      (.plain (by simp [whitespace1, whitespace]) rfl)

theorem noOperator : Steady S levels depth (.term operatorTail) t none := by
  have hfind : (Operator.spellings.find? fun p => p.text.toList.isPrefixOf t) = none := by
    refine List.find?_eq_none.mpr fun p hp => Bool.eq_false_iff.mp ?_
    have hall : ∀ p ∈ Operator.spellings,
        p.text.toList.head?.any (fun c => c != '@' && c != ':') = true := by decide
    exact isPrefixOf_of_head (hall p hp) (h.head (by decide) (by decide))
  have hlook : Steady S levels depth
      (.term (look fun s => Operator.spellings.find? fun p => p.text.toList.isPrefixOf s)) t
      (some (none, t)) := .plain trivial (congrArg (Reading.value · t) hfind)
  exact .miss (.bind h.space (.bind hlook (.plain trivial rfl)))

end EndsOperand

theorem endsOperand_end : ∀ p ∈ (some (e, []) : Place Expr), EndsOperand p.2 := by
  rintro _ ⟨⟩
  exact .nothing

/-! ## From an operand to the whole source -/

theorem Steady.lastChoice {g : Grammar α} {r : Place α} (h : Steady S levels depth (.term g) s r) :
    Steady S levels depth (.term (choice [g])) s r := by
  cases r with
  | none => exact .right h (.plain trivial rfl)
  | some p => exact .left h

/-- The keywords that forms of expressions begin with. -/
def leadWords : List String := ["if", "let", "forall", "merge", "Some", "toMap"]

/-- A text that no form of expressions begins, unless an operand does. A keyword may be there, but
nothing that would have to be behind it. -/
structure Lone (S : Surroundings) (s : List Char) : Prop where
  free : S.free s
  tight : Tight s
  noMark : s.head?.any "λ\\∀[".toList.contains = false
  noWord : ∀ word ∈ leadWords, ∀ {levels depth : Nat} {α : Type} {next : Unit → Grammar α},
    (∀ t, EndsOperand t → Steady S levels depth (.term (next ())) t none) →
    Steady S levels depth (.term (keyword word >>= next)) s none

namespace Lone

variable {r : Place Expr} (hs : Lone S s)

include hs

theorem misses {rule : Rule} {text : String} {levels' : Nat}
    (h : Grammar.OpensWith text.toList.contains levels' (call rule))
    (ht : text.toList.all (fun c => "λ\\∀[".toList.contains c) = true) (hl : levels' ≤ levels) :
    Steady S levels depth (.term (call rule)) s none := by
  refine (h.steady (t := s) (head?_any_of_all ?_ hs.noMark) hs.free depth).mono hl
  exact ht

theorem spaced {word : String} (hw : word ∈ leadWords) {next : Unit → Grammar α} :
    Steady S levels depth (.term (keyword word >>= fun _ => whitespace1 >>= next)) s none :=
  hs.noWord word hw fun _ ht => .miss ht.noSpace

/-- No form begins that is tried in front of a chain of operators or beside it. -/
theorem form (rule : Rule) (hr : rule ∈ [.lambdaExpression, .ifExpression, .letExpression,
      .forallExpression, .mergeExpression, .emptyListExpression, .toMapExpression]) :
    Steady S 2 depth (.term (call rule)) s none := by
  simp only [List.mem_cons, List.not_mem_nil, or_false] at hr
  obtain rfl | rfl | rfl | rfl | rfl | rfl | rfl := hr
  · exact hs.misses Rule.opens_lambdaExpression (by decide) (by decide)
  · exact .call hs.free (hs.spaced (by decide))
  · exact .call hs.free (.miss (.call hs.free (hs.spaced (by decide))))
  · have hhead : s.head?.any ['∀'].contains = false := head?_any_of_all (by decide) hs.noMark
    have hforall : (accept "∀").read s = .value false s :=
      readBy_accept_of_head "∀" (by decide) hhead
    refine .call hs.free (.bind (.plain trivial hforall) ?_)
    refine hs.noWord "forall" (by decide) fun _ ht => ?_
    exact .miss (.bind ht.space (.miss (ht.noMark (by decide))))
  · exact .call hs.free (hs.spaced (by decide))
  · exact hs.misses Rule.opens_emptyListExpression (by decide) (by decide)
  · exact .call hs.free (hs.spaced (by decide))

variable (hr : ∀ p ∈ r, EndsOperand p.2)

include hr

/-- What is read as an operand is read as a chain of operators, or nothing is. -/
theorem operator (himport : Steady S 5 depth (.term (call .importExpression)) s r) :
    Steady S 8 depth (.term (call .operatorExpression)) s r := by
  have hfirst : Steady S 6 depth (.term (call .firstApplicationExpression)) s r := by
    refine .call hs.free ?_
    apply Steady.right (hs.spaced (by decide))
    apply Steady.right (hs.spaced (by decide))
    exact .right (hs.spaced (by decide)) himport.lastChoice
  cases r with
  | none => exact .call hs.free (.miss (.call hs.free (.miss hfirst)))
  | some p =>
    have ht : EndsOperand p.2 := hr p rfl
    have happlication : Steady S 7 depth (.term (call .applicationExpression)) s (some p) :=
      .call hs.free (.bind hfirst (Steady.foldMany_last (.miss ht.noSpace)))
    exact .call hs.free (.bind happlication (.bind (Steady.foldMany_last ht.noOperator)
      (.plain trivial rfl)))

/-- A source that is an operand is that expression; what is behind it is left, and without an
operand nothing matches. -/
theorem whole (hbound : 1 ≤ S.bound)
    (himport : Steady S 5 1 (.term (call .importExpression)) s r) :
    Steady S 10 0 (.term completeExpression) s r := by
  have hoperator := hs.operator hr himport
  have harrow : Steady S 9 1 (.term (call .arrowExpression)) s none := by
    refine .call hs.free ?_
    cases r with
    | none => exact .miss hoperator
    | some p => exact .bind hoperator (.miss (hr p rfl).noArrow)
  have hannotated : Steady S 9 1 (.term (call .annotatedExpression)) s r := by
    refine .call hs.free ?_
    cases r with
    | none => exact .miss hoperator
    | some p =>
      refine .bind hoperator (.bind (u := p.2) (b := none) ?_ (.plain trivial rfl))
      exact .right (.miss (.miss (hr p rfl).noColon)) (.plain trivial rfl)
  have hexpression : Steady S 10 0 (.term (call .expression)) s r := by
    refine .call hs.free (.nested hbound ?_)
    apply Steady.right ((hs.form .lambdaExpression (by decide)).mono (by decide))
    apply Steady.right ((hs.form .ifExpression (by decide)).mono (by decide))
    apply Steady.right ((hs.form .letExpression (by decide)).mono (by decide))
    apply Steady.right ((hs.form .forallExpression (by decide)).mono (by decide))
    apply Steady.right harrow
    apply Steady.right ((hs.form .mergeExpression (by decide)).mono (by decide))
    apply Steady.right ((hs.form .emptyListExpression (by decide)).mono (by decide))
    apply Steady.right ((hs.form .toMapExpression (by decide)).mono (by decide))
    exact hannotated.lastChoice
  refine .bind (.plain (by simp [whitespace]) (readBy_whitespace_tight hs.tight)) ?_
  cases r with
  | none => exact .miss hexpression
  | some p => exact .bind hexpression (.bind (hr p rfl).space (.plain trivial rfl))

end Lone

/-! ## Identifiers as operands -/

/-- A name is a variable, with the index that follows or zero. -/
theorem steady_variable {name : String} {index : Option Nat} (hfree : S.free s)
    (hname : Steady S 1 depth (.term (call .nonreservedLabel)) s (some (name, u)))
    (hindex : (optional? variableIndex).read u = .value index t) :
    Steady S 2 depth (.term (call .identifier)) s (some (.variable name (index.getD 0), t)) := by
  have hfound : Steady S 1 depth (.term (optional? (call .nonreservedLabel))) s
      (some (some name, u)) := .left (.bind hname (.plain trivial rfl))
  refine .call hfree (.bind hfound (.bind (.plain ?_ hindex) (.plain trivial rfl)))
  simp [variableIndex, whitespace]

/-- The rules that an operand is tried as before it is tried as an identifier, words for doubles
apart. -/
def literalRules : List Rule :=
  [.naturalLiteral, .integerLiteral, .textLiteral, .recordExpression, .unionType, .listLiteral]

theorem steady_identifier {r : Place Expr} (hfree : S.free s)
    (hdouble : Steady S 1 depth (.term (call .doubleLiteral)) s none)
    (hhead : ∀ rule ∈ literalRules, s.head?.any rule.first = false)
    (hparenthesis : s.head?.any "(".toList.contains = false)
    (h : Steady S 2 depth (.term (call .identifier)) s r) :
    Steady S 3 depth (.term (call .primitiveExpression)) s r := by
  have hmisses : ∀ (rule : Rule) {levels' : Nat}, rule ∈ literalRules → levels' ≤ 2 →
      Grammar.OpensWith rule.first levels' (call rule) →
      Steady S 2 depth (.term (call rule)) s none :=
    fun rule _ hm hl ho => (ho.steady (t := s) (hhead rule hm) hfree depth).mono hl
  refine .call hfree ?_
  apply Steady.right (.miss (hdouble.mono (by decide)))
  have hnatural := hmisses .naturalLiteral (by decide) (by decide) Rule.opens_naturalLiteral
  have hinteger := hmisses .integerLiteral (by decide) (by decide) Rule.opens_integerLiteral
  apply Steady.right (.miss hnatural)
  apply Steady.right (.miss hinteger)
  apply Steady.right (hmisses .textLiteral (by decide) (by decide) Rule.opens_textLiteral)
  apply Steady.right (hmisses .recordExpression (by decide) (by decide) Rule.opens_recordExpression)
  apply Steady.right (hmisses .unionType (by decide) (by decide) Rule.opens_unionType)
  apply Steady.right (hmisses .listLiteral (by decide) (by decide) Rule.opens_listLiteral)
  cases r with
  | some p => exact .left h
  | none =>
    refine .right h (Steady.lastChoice (.miss (.plain (by simp) ?_)))
    exact beginsWith_expect "(" (by decide) s hparenthesis

/-- Nothing is selected from a primitive expression that ends as an operand does. -/
theorem steady_selector {r : Place Expr} (hfree : S.free s)
    (hr : ∀ p ∈ r, EndsOperand p.2)
    (h : Steady S 3 depth (.term (call .primitiveExpression)) s r) :
    Steady S 4 depth (.term (call .selectorExpression)) s r := by
  cases r with
  | none => exact .call hfree (.miss h)
  | some p =>
    have ht : EndsOperand p.2 := hr p rfl
    refine .call hfree (.bind h (Steady.foldMany_last ?_))
    exact .bind ht.space (.miss (ht.noMark (by decide)))

/-- What is no import is an operand if it is a primitive expression. -/
theorem steady_operand {r : Place Expr} (hfree : S.free s)
    (hr : ∀ p ∈ r, EndsOperand p.2)
    (himport : Steady S 4 depth (.term (call .importClause)) s none)
    (h : Steady S 3 depth (.term (call .primitiveExpression)) s r) :
    Steady S 5 depth (.term (call .importExpression)) s r :=
  .call hfree (.right (.miss himport) (Steady.lastChoice (steady_selector hfree hr h)))

/-- An import that ends as an operand does has no hash and no mode. -/
theorem steady_importClause {kind : ImportKind String} (hfree : S.free s) (hu : EndsOperand u)
    (h : Steady S 2 depth (.term (call .importType)) s (some (kind, u))) :
    Steady S 4 depth (.term (call .importClause)) s (some (.mk kind none .code, u)) := by
  have hhashed : Steady S 3 depth (.term (call .importHashed)) s
      (some (.mk kind none .code, u)) := by
    refine .call hfree (.bind h (.bind (u := u) (b := none) ?_ (.plain trivial rfl)))
    exact .right (.miss (.miss hu.noSpace)) (.plain trivial rfl)
  refine .call hfree (.bind hhashed (.bind (u := u) (b := none) ?_ (.plain trivial rfl)))
  exact .right (.miss (.bind hu.space (.miss (hu.noKeyword (by decide))))) (.plain trivial rfl)

/-- An index of digits. -/
theorem read_index (d : DigitRun) :
    (optional? variableIndex).read ('@' :: d.chars) = .value (some (placeValue d.chars)) [] := by
  have hat : whitespace.read ('@' :: d.chars) = .value () ('@' :: d.chars) :=
    readBy_whitespace_tight (s := '@' :: d.chars) rfl
  have hexpect : (expect "@").read ('@' :: d.chars) = .value () d.chars := rfl
  have htight : Tight d.chars := List.append_nil d.chars ▸ tight_digit d []
  have hspace : whitespace.read d.chars = .value () d.chars := readBy_whitespace_tight htight
  have hdigits : (takeWhile1 digit "a variable index").read (d.chars ++ []) = .value d.chars [] :=
    readBy_takeWhile1_run d.ne_nil d.all_digit rfl _
  rw [List.append_nil] at hdigits
  simp only [Grammar.read] at hat hexpect hspace hdigits
  simp only [Grammar.read, variableIndex, readBy_optional?, readBy_bind, hat, hexpect, hspace,
    hdigits, Reading.bind_value, Reading.orElse_value, readBy_pure,
    positional_eq_placeValue d.digits]

/-! ## Words -/

/-- A label start and label characters. -/
structure IsWord (w : List Char) : Prop where
  start : w.head?.any labelStart = true
  later : w.tail.all labelContinue = true

namespace IsWord

variable (hw : IsWord w)

include hw

theorem continues : w.all labelContinue = true := by
  obtain ⟨c, t, rfl, hc⟩ := head?_of_any hw.start
  have hfirst : labelContinue c = true := by
    rw [labelStart_iff] at hc
    rw [labelContinue_iff]
    omega
  rw [List.all_cons, hfirst, Bool.true_and]
  exact hw.later

theorem head_append (u : List Char) : (w ++ u).head?.any labelStart = true := by
  obtain ⟨c, t, rfl, hc⟩ := head?_of_any hw.start
  exact hc

/-- Nothing but a word begins with other characters. -/
theorem refuted {chars : CharClass} (u : List Char)
    (hc : ∀ c, labelStart c = true → chars c = false) : (w ++ u).head?.any chars = false := by
  obtain ⟨c, t, rfl, hstart⟩ := head?_of_any hw.start
  exact hc c hstart

section

variable (hu : EndsOperand u)

include hu

theorem wordOf_eq : wordOf (w ++ u) = w ∧ behindWord (w ++ u) = u :=
  wordOf_append hw.continues (hu.head (by decide) (by decide))

theorem lone (hfree : S.free (w ++ u)) : Lone S (w ++ u) where
  free := hfree
  tight := Whitespace.tight_of_head (hw.refuted u (not_contains (by decide)))
  noMark := hw.refuted u (not_contains (by decide))
  noWord word hword levels depth α next hnext := by
    obtain ⟨hword', hbehind⟩ := hw.wordOf_eq hu
    have hall : ∀ word ∈ leadWords, word.toList.all labelContinue = true := by decide
    have hread : (keyword word).read (w ++ u) = _ :=
      readBy_keyword_word word (hall word hword) (w ++ u)
    by_cases he : w = word.toList
    · rw [hword', if_pos he, hbehind] at hread
      exact .bind (.plain (by simp) hread) (hnext u hu)
    · rw [hword', if_neg he] at hread
      exact .miss (.plain (by simp) hread)

/-- A word is no literal, except those for doubles, and no record, union, list or group. -/
theorem primitive {r : Place Expr} (hfree : S.free (w ++ u))
    (hdouble : w ∉ ["Infinity".toList, "NaN".toList])
    (h : Steady S 2 depth (.term (call .identifier)) (w ++ u) r) :
    Steady S 3 depth (.term (call .primitiveExpression)) (w ++ u) r := by
  have hread : Grammar.doubleLiteral.read (w ++ u) = .mismatch := by
    rw [← (hw.wordOf_eq hu).1] at hdouble
    exact (Rule.read_eq .doubleLiteral _).symm.trans
      (read_doubleLiteral_word (hw.head_append u) hdouble)
  refine steady_identifier hfree (.call hfree (.plain callFree_doubleLiteral hread)) ?_ ?_ h
  · simp only [literalRules, List.forall_mem_cons]
    refine ⟨hw.refuted u fun c hc => ?_, hw.refuted u (not_contains (by decide)),
      hw.refuted u (not_contains (by decide)), hw.refuted u (not_contains (by decide)),
      hw.refuted u (not_contains (by decide)), hw.refuted u (not_contains (by decide)),
      fun _ h => nomatch h⟩
    rw [labelStart_iff] at hc
    rw [Rule.first, ← Bool.not_eq_true, digit_iff]
    omega
  · exact hw.refuted u (not_contains (by decide))

/-- A word that is not reserved is a variable where it is no import, with the index that follows or
zero. -/
theorem named {index : Option Nat} {t : List Char} (hfree : S.free (w ++ u))
    (hname : Vocabulary.isReserved (String.ofList w) = false) (ht : EndsOperand t)
    (himport : Steady S 4 depth (.term (call .importClause)) (w ++ u) none)
    (hindex : (optional? variableIndex).read u = .value index t) :
    Steady S 5 depth (.term (call .importExpression)) (w ++ u)
      (some (.variable (String.ofList w) (index.getD 0), t)) := by
  obtain ⟨hword, hbehind⟩ := hw.wordOf_eq hu
  have hother : ∀ {word : String}, Vocabulary.isReserved word = true → w ≠ word.toList := by
    rintro word hreserved rfl
    rw [String.ofList_toList] at hname
    exact Bool.false_ne_true (hname.symm.trans hreserved)
  refine steady_operand hfree (by rintro _ ⟨⟩; exact ht) himport ?_
  refine hw.primitive hu hfree ?_ (steady_variable hfree ?_ hindex)
  · simp only [List.mem_cons, List.not_mem_nil, or_false, not_or]
    exact ⟨hother (by decide), hother (by decide)⟩
  · refine .call hfree (.plain (doesOnly_labelExcept _ _) ?_)
    refine (readBy_labelExcept_word (hw.head_append u) _ _).trans ?_
    rw [hword, hbehind, hname, if_neg Bool.false_ne_true]
    rfl

end

/-! ### Words as imports -/

section

variable (hu : AtSign u)

include hu

/-- Behind the name of a scheme a word ends or goes on, but no colon follows. -/
theorem httpImport : Steady S levels depth (.term Grammar.httpImport) (w ++ u) none := by
  have hcolon : ∀ {literal : String}, literal.toList.all labelContinue = true →
      literal.toList.isPrefixOf (w ++ u) = true →
      Steady S levels depth (.term (expect "://")) ((w ++ u).drop literal.toList.length) none := by
    intro literal hl hp
    have hprefix := isPrefixOf_wordOf hl hp
    rw [(hw.wordOf_eq hu.ends).1] at hprefix
    obtain ⟨r, rfl⟩ := List.isPrefixOf_iff_prefix.mp hprefix
    have hopens : (expect "://").BeginsWith Rule.read (· == ':') :=
      beginsWith_expect "://" (by decide)
    refine .plain (by simp) (hopens _ ?_)
    rw [List.append_assoc, List.drop_left]
    cases r with
    | nil => obtain rfl | ⟨v, rfl⟩ := hu <;> rfl
    | cons c r =>
      have hcontinue := List.all_eq_true.mp hw.continues c (by simp)
      refine beq_false_of_ne ?_
      rintro rfl
      cases hcontinue
  cases hsecure : "https".toList.isPrefixOf (w ++ u) with
  | true =>
    have hread : scheme.read (w ++ u) = .value .https ((w ++ u).drop 5) := by
      simp only [Grammar.read, scheme, readBy_bind, readBy_accept, hsecure, if_true,
        Reading.bind_value, readBy_pure]
      rfl
    exact .bind (.plain (by simp [scheme]) hread) (.miss (hcolon (by decide) hsecure))
  | false =>
    cases hplain : "http".toList.isPrefixOf (w ++ u) with
    | true =>
      have hread : scheme.read (w ++ u) = .value .http ((w ++ u).drop 4) := by
        simp only [Grammar.read, scheme, readBy_bind, readBy_accept, readBy_expect, hsecure, hplain,
          Bool.false_eq_true, if_false, if_true, Reading.bind_value, readBy_pure]
        rfl
      exact .bind (.plain (by simp [scheme]) hread) (.miss (hcolon (by decide) hplain))
    | false =>
      have hread : scheme.read (w ++ u) = .mismatch := by
        simp only [Grammar.read, scheme, readBy_bind, readBy_accept, readBy_expect, hsecure, hplain,
          Bool.false_eq_true, if_false, Reading.bind_value, Reading.bind_mismatch]
      exact .miss (.plain (by simp [scheme]) hread)

theorem envImport : Steady S levels depth (.term Grammar.envImport) (w ++ u) none := by
  refine .miss (.plain (by simp) ?_)
  have hnone : "env:".toList.isPrefixOf (w ++ u) = false := by
    refine Bool.eq_false_iff.mpr fun hp => ?_
    obtain ⟨r, hr⟩ := List.isPrefixOf_iff_prefix.mp hp
    have hbehind : behindWord (w ++ u) = ':' :: r := hr ▸ rfl
    rw [(hw.wordOf_eq hu.ends).2] at hbehind
    obtain rfl | ⟨v, rfl⟩ := hu <;> cases hbehind
  simp only [Grammar.read, readBy_expect, hnone, Bool.false_eq_true, if_false]
  rfl

/-- A word is no import, apart from the one for imports that are missing. -/
theorem importClause (hfree : S.free (w ++ u)) :
    Steady S 4 depth (.term (call .importClause)) (w ++ u)
      (if w = "missing".toList then some (.mk .missing none .code, u) else none) := by
  have hread : (keyword "missing").read (w ++ u) = _ :=
    readBy_keyword_word "missing" (by decide) (w ++ u)
  obtain ⟨hword, hbehind⟩ := hw.wordOf_eq hu.ends
  rw [hword, hbehind] at hread
  by_cases hm : w = "missing".toList
  · rw [if_pos hm] at hread ⊢
    have htype : Steady S 2 depth (.term (call .importType)) (w ++ u) (some (.missing, u)) :=
      .call hfree (.left (.bind (.plain (by simp) hread) (.plain trivial rfl)))
    exact steady_importClause hfree hu.ends htype
  · rw [if_neg hm] at hread ⊢
    have hlocal : Steady S 1 depth (.term (call .localImport)) (w ++ u) none :=
      Rule.opens_localImport.steady (hw.refuted u (not_contains (by decide))) hfree depth
    have htype : Steady S 2 depth (.term (call .importType)) (w ++ u) none := by
      refine .call hfree (.right (.miss (.plain (by simp) hread)) (.right hlocal ?_))
      refine .right (.call hfree (hw.httpImport hu)) ?_
      exact Steady.lastChoice (.call hfree (hw.envImport hu))
    exact .call hfree (.miss (.call hfree (.miss htype)))

end

end IsWord

/-- What a word stands for that is no variable name. -/
def reservedMeaning? (w : List Char) : Option Expr :=
  if Vocabulary.isBuiltin (String.ofList w) then some (.builtin (String.ofList w))
  else if w = "Infinity".toList then some (.double (.infinity false))
  else if w = "NaN".toList then some (.double (.nan false false 0))
  else if w = "missing".toList then some (.embedded (.mk .missing none .code))
  else none

/-- No keyword is a builtin, and it stands for nothing unless it is one of three. -/
theorem reservedMeaning?_keyword (hk : Vocabulary.isKeyword (String.ofList w) = true)
    (hne : String.ofList w ∉ ["Infinity", "NaN", "missing"]) : reservedMeaning? w = none := by
  have hall : ∀ entry ∈ Vocabulary.keywords, Vocabulary.isBuiltin entry.2 = false := by decide
  simp only [Vocabulary.isKeyword, Vocabulary.keyword?, Option.isSome_map] at hk
  obtain ⟨entry, he, hw⟩ := List.find?_isSome.mp hk
  have hbuiltin : Vocabulary.isBuiltin (String.ofList w) = false := beq_iff_eq.mp hw ▸ hall entry he
  have hother : ∀ word ∈ ["Infinity", "NaN", "missing"], w ≠ word.toList := by
    rintro word hm rfl
    exact hne (String.ofList_toList ▸ hm)
  rw [reservedMeaning?, hbuiltin, if_neg Bool.false_ne_true, if_neg (hother _ (by decide)),
    if_neg (hother _ (by decide)), if_neg (hother _ (by decide))]

namespace IsWord

variable (hw : IsWord w)

include hw

/-- A reserved word is an operand if it stands for something. -/
theorem reserved (hu : AtSign u) (hfree : S.free (w ++ u))
    (hreserved : Vocabulary.isReserved (String.ofList w) = true) :
    Steady S 5 depth (.term (call .importExpression)) (w ++ u)
      ((reservedMeaning? w).map fun e => (e, u)) := by
  have hr : ∀ {o : Option Expr}, ∀ p ∈ o.map fun e => (e, u), EndsOperand p.2 := by
    intro o p hp
    obtain ⟨e, -, rfl⟩ := Option.map_eq_some_iff.mp hp
    exact hu.ends
  have himport : Steady S 4 depth (.term (call .importClause)) (w ++ u) _ :=
    hw.importClause hu hfree
  obtain ⟨hword, hbehind⟩ := hw.wordOf_eq hu.ends
  by_cases hm : w = "missing".toList
  · subst hm
    exact .call hfree (.left (.bind himport (.plain trivial rfl)))
  rw [if_neg hm] at himport
  refine steady_operand hfree hr himport ?_
  by_cases hd : w ∈ ["Infinity".toList, "NaN".toList]
  · obtain ⟨d, hd, hread⟩ : ∃ d, reservedMeaning? w = some (.double d) ∧
        Grammar.doubleLiteral.read (w ++ u) = .value d u := by
      simp only [List.mem_cons, List.not_mem_nil, or_false] at hd
      obtain rfl | rfl := hd <;> refine ⟨_, rfl, ?_⟩ <;> obtain rfl | ⟨v, rfl⟩ := hu <;> rfl
    rw [hd]
    have hdouble : Steady S 2 depth (.term (call .doubleLiteral)) (w ++ u) (some (d, u)) :=
      .call hfree (.plain callFree_doubleLiteral hread)
    exact .call hfree (.left (.bind hdouble (.plain trivial rfl)))
  · refine hw.primitive hu.ends hfree hd ?_
    have hname : (labelExcept Vocabulary.isReserved "a variable name").read (w ++ u) =
        .mismatch := by
      refine (readBy_labelExcept_word (hw.head_append u) _ _).trans (if_pos ?_)
      rwa [hword]
    have hbuiltin : builtin.read (w ++ u) = _ := readBy_builtin_word (hw.head_append u)
    rw [hword, hbehind] at hbuiltin
    have hnone : Steady S 1 depth (.term (optional? (call .nonreservedLabel))) (w ++ u)
        (some (none, w ++ u)) :=
      .right (.miss (.call hfree (.plain (doesOnly_labelExcept _ _) hname))) (.plain trivial rfl)
    refine .call hfree (.bind hnone (.plain doesOnly_builtin (hbuiltin.trans ?_)))
    simp only [List.mem_cons, List.not_mem_nil, or_false, not_or] at hd
    simp only [reservedMeaning?, if_neg hd.1, if_neg hd.2, if_neg hm]
    split <;> rfl

/-- Any other word is a variable, with the index that follows or zero. -/
theorem nonreserved (hu : AtSign u) (hfree : S.free (w ++ u))
    (hname : Vocabulary.isReserved (String.ofList w) = false) {index : Option Nat}
    (hindex : (optional? variableIndex).read u = .value index []) :
    Steady S 5 depth (.term (call .importExpression)) (w ++ u)
      (some (.variable (String.ofList w) (index.getD 0), [])) := by
  have hmissing : w ≠ "missing".toList := by
    rintro rfl
    cases hname
  have himport : Steady S 4 depth (.term (call .importClause)) (w ++ u) _ :=
    hw.importClause hu hfree
  rw [if_neg hmissing] at himport
  exact hw.named hu.ends hfree hname .nothing himport hindex

end IsWord

/-! ## Labels in backquotes -/

/-- A label in backquotes is a variable, whatever word it is. -/
theorem steady_quoted {q : String} (hq : IsLabel q) (hfree : S.free (Rendering.label q)) :
    Lone S (Rendering.label q) ∧
    Steady S 5 depth (.term (call .importExpression)) (Rendering.label q)
      (some (.variable q 0, [])) := by
  have hhead : (Rendering.label q).head? = some '\x60' := rfl
  have hmisses : ∀ {chars : CharClass}, chars '\x60' = false →
      (Rendering.label q).head?.any chars = false := fun hc => by rw [hhead]; exact hc
  constructor
  · refine ⟨hfree, Whitespace.tight_of_head (hmisses (by decide)), hmisses (by decide), ?_⟩
    intro word hword levels depth α next _
    have hall : ∀ word ∈ leadWords, word.toList.head?.any (· != '\x60') = true := by decide
    refine .miss (.plain (by simp) ?_)
    exact beginsWith_keyword word (hall word hword) _ (hmisses (by decide))
  · have hname : Grammar.nonreservedLabel.read (Rendering.label q ++ []) = .value q [] :=
      readBy_labelExcept hq _ _ []
    rw [List.append_nil] at hname
    refine steady_operand hfree endsOperand_end ?_
      (steady_identifier hfree ?_ ?_ (hmisses (by decide))
        (@steady_variable S depth _ _ _ q none hfree
          (.call hfree (.plain (doesOnly_labelExcept _ _) hname)) rfl))
    · exact Rule.opens_importClause.steady (hmisses (by decide)) hfree depth
    · exact Rule.opens_doubleLiteral.steady (hmisses (by decide)) hfree depth
    · simp only [literalRules, List.forall_mem_cons]
      exact ⟨hmisses (by decide), hmisses (by decide), hmisses (by decide), hmisses (by decide),
        hmisses (by decide), hmisses (by decide), fun _ h => nomatch h⟩

/-! ## Whole sources -/

section Whole

variable {settings : Settings} (h : settings.Ample)

include h

/-- A source that begins with an operand, or with none, and with nothing that it goes on with. -/
theorem parse_operand {r : Place Expr} (hs : Lone .single s) (hr : ∀ p ∈ r, EndsOperand p.2)
    (himport : Steady .single 5 1 (.term (call .importExpression)) s r) :
    (∀ e, r = some (e, []) → parse settings (String.ofList s) = .ok e) ∧
    (∀ p ∈ r, p.2 ≠ [] →
      ∃ e, parse settings (String.ofList s) = .error (.source e) ∧ e.kind = .trailing) ∧
    (r = none →
      ∃ e, parse settings (String.ofList s) = .error (.source e) ∧ e.kind = .mismatch) := by
  have hwhole : Steady .single 10 0 (.term completeExpression) (String.ofList s).toList r := by
    rw [String.toList_ofList]
    exact hs.whole hr (Nat.le_refl 1) himport
  have hkeeps := Surroundings.single_keeps h (String.ofList s).toList
  refine ⟨?_, ?_, ?_⟩
  · rintro e rfl
    exact parse_of_steady hkeeps trivial hwhole h.stack
  · rintro p hp hne
    cases hp
    exact parse_trailing_of_steady hne hkeeps trivial hwhole h.stack
  · rintro rfl
    exact parse_mismatch_of_steady hkeeps trivial hwhole h.stack

/-- A reserved word is what it stands for, and is refused if it stands for nothing or an at sign
follows. -/
theorem parse_reserved (hw : IsWord w) (hname : Vocabulary.isReserved (String.ofList w) = true) :
    (∀ e, reservedMeaning? w = some e → parse settings (String.ofList w) = .ok e) ∧
    (reservedMeaning? w = none →
      ∃ e, parse settings (String.ofList w) = .error (.source e) ∧ e.kind = .mismatch) ∧
    ∀ v, ∃ e, parse settings (String.ofList (w ++ '@' :: v)) = .error (.source e) ∧
      (e.kind = .mismatch ∨ e.kind = .trailing) := by
  have hends : ∀ {e : Expr} {u : List Char}, EndsOperand u →
      ∀ p ∈ (some (e, u) : Place Expr), EndsOperand p.2 := by
    rintro e u hu _ ⟨⟩
    exact hu
  have himport : ∀ u, AtSign u → Steady .single 5 1 (.term (call .importExpression)) (w ++ u)
      ((reservedMeaning? w).map fun e => (e, u)) := fun u hu => hw.reserved hu trivial hname
  have hnil := himport [] (.inl rfl)
  have hlone : Lone .single (w ++ []) := hw.lone .nothing trivial
  rw [List.append_nil] at hnil hlone
  cases hm : reservedMeaning? w with
  | none =>
    rw [hm] at himport hnil
    have hnone : ∀ p ∈ (none : Place Expr), EndsOperand p.2 := by rintro _ ⟨⟩
    refine ⟨by rintro _ ⟨⟩, fun _ => ?_, fun v => ?_⟩
    · exact (parse_operand h hlone hnone hnil).2.2 rfl
    · have hv : AtSign ('@' :: v) := .inr ⟨v, rfl⟩
      obtain ⟨e, he, hkind⟩ :=
        (parse_operand h (hw.lone hv.ends trivial) hnone (himport _ hv)).2.2 rfl
      exact ⟨e, he, .inl hkind⟩
  | some e =>
    rw [hm] at himport hnil
    refine ⟨?_, by rintro ⟨⟩, fun v => ?_⟩
    · rintro _ ⟨⟩
      exact (parse_operand h hlone endsOperand_end hnil).1 e rfl
    · have hv : AtSign ('@' :: v) := .inr ⟨v, rfl⟩
      obtain ⟨error, herror, hkind⟩ := (parse_operand h (hw.lone hv.ends trivial) (hends hv.ends)
        (himport _ hv)).2.1 _ rfl (List.cons_ne_nil _ _)
      exact ⟨error, herror, .inr hkind⟩

end Whole

/-- A word is classified as a whole. It is a variable unless it is reserved, with an index too; a
builtin; one of the words for doubles; a missing import; and for every other keyword the source is
refused. A reserved word has no index. In backquotes every label is a variable. -/
theorem parse_word (settings : Settings) (h : settings.Ample) :
    (∀ word : List Char, IsWord word →
      let name := String.ofList word
      (Vocabulary.isReserved name = false → parse settings name = .ok (.variable name 0)) ∧
      (Vocabulary.isBuiltin name = true → parse settings name = .ok (.builtin name)) ∧
      (Vocabulary.isKeyword name = true → name ∉ ["Infinity", "NaN", "missing"] →
        ∃ e, parse settings name = .error (.source e) ∧ e.kind = .mismatch) ∧
      ∀ d : DigitRun,
        let indexed := String.ofList (word ++ '@' :: d.chars)
        (Vocabulary.isReserved name = false →
          parse settings indexed = .ok (.variable name (placeValue d.chars))) ∧
        (Vocabulary.isReserved name = true →
          ∃ e, parse settings indexed = .error (.source e) ∧
            (e.kind = .mismatch ∨ e.kind = .trailing))) ∧
    parse settings "Infinity" = .ok (.double (.infinity false)) ∧
    parse settings "NaN" = .ok (.double (.nan false false 0)) ∧
    parse settings "missing" = .ok (.embedded (.mk .missing none .code)) ∧
    ∀ label : List Char, (∀ c ∈ label, CharClass.quotedLabel c = true) →
      parse settings (String.ofList ('\x60' :: (label ++ ['\x60']))) =
        .ok (.variable (String.ofList label) 0) := by
  have hnamed : ∀ word : List Char, IsWord word →
      Vocabulary.isReserved (String.ofList word) = true →
      ∀ e, reservedMeaning? word = some e → parse settings (String.ofList word) = .ok e :=
    fun _ hw hname => (parse_reserved h hw hname).1
  refine ⟨fun word hw => ⟨fun hname => ?_, fun hbuiltin => ?_, fun hkeyword hother => ?_,
    fun d => ⟨fun hname => ?_, fun hname => ?_⟩⟩, ?_, ?_, ?_, fun label hlabel => ?_⟩
  · have hlone : Lone .single (word ++ []) := hw.lone .nothing trivial
    have himport : Steady .single 5 1 (.term (call .importExpression)) (word ++ []) _ :=
      hw.nonreserved (.inl rfl) trivial hname rfl
    rw [List.append_nil] at hlone himport
    exact (parse_operand h hlone endsOperand_end himport).1 _ rfl
  · refine hnamed _ hw (by rw [Vocabulary.isReserved, hbuiltin, Bool.or_true]) _ ?_
    rw [reservedMeaning?, if_pos hbuiltin]
  · refine (parse_reserved h hw (by rw [Vocabulary.isReserved, hkeyword, Bool.true_or])).2.1 ?_
    exact reservedMeaning?_keyword hkeyword hother
  · have hu : AtSign ('@' :: d.chars) := .inr ⟨d.chars, rfl⟩
    have himport : Steady .single 5 1 (.term (call .importExpression)) _ _ :=
      hw.nonreserved hu trivial hname (read_index d)
    exact (parse_operand h (hw.lone hu.ends trivial) endsOperand_end himport).1 _ rfl
  · exact (parse_reserved h hw hname).2.2 d.chars
  · exact hnamed "Infinity".toList ⟨rfl, rfl⟩ rfl _ rfl
  · exact hnamed "NaN".toList ⟨rfl, rfl⟩ rfl _ rfl
  · exact hnamed "missing".toList ⟨rfl, rfl⟩ rfl _ rfl
  · have hlabel : IsLabel (String.ofList label) := by rwa [IsLabel, String.toList_ofList]
    obtain ⟨hlone, himport⟩ : Lone .single _ ∧ Steady .single 5 1 _ _ _ :=
      steady_quoted hlabel trivial
    rw [Rendering.label, String.toList_ofList] at hlone himport
    exact (parse_operand h hlone endsOperand_end himport).1 _ rfl

/-- Words that begin as a keyword, a builtin, a URL and a double do. -/
theorem parse_word_beginnings :
    parse .standard "if-https" = .ok (.variable "if-https" 0) ∧
    parse .standard "Natural/fold" = .ok (.builtin "Natural/fold") ∧
    (∃ e, parse .standard "toMap" = .error (.source e) ∧ e.kind = .mismatch) ∧
    parse .standard "NaN1@007" = .ok (.variable "NaN1" 7) ∧
    (∃ e, parse .standard "missing@0" = .error (.source e) ∧
      (e.kind = .mismatch ∨ e.kind = .trailing)) ∧
    parse .standard "\x60if\x60" = .ok (.variable "if" 0) := by
  obtain ⟨hwords, -, -, -, hlabels⟩ := parse_word .standard Settings.ample_standard
  let zero : DigitRun := ⟨['0'], by decide, List.all_eq_true.mp (by decide)⟩
  let seven : DigitRun := ⟨['0', '0', '7'], by decide, List.all_eq_true.mp (by decide)⟩
  refine ⟨?_, ?_, ?_, ?_, ?_, ?_⟩
  · exact (hwords "if-https".toList ⟨by decide, by decide⟩).1 (by decide)
  · exact (hwords "Natural/fold".toList ⟨by decide, by decide⟩).2.1 (by decide)
  · exact (hwords "toMap".toList ⟨by decide, by decide⟩).2.2.1 (by decide) (by decide)
  · exact ((hwords "NaN1".toList ⟨by decide, by decide⟩).2.2.2 seven).1 (by decide)
  · exact ((hwords "missing".toList ⟨by decide, by decide⟩).2.2.2 zero).2 (by decide)
  · exact hlabels "if".toList (List.all_eq_true.mp (by decide))

end DhallSyntax
