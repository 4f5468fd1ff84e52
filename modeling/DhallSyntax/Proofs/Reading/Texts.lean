import DhallSyntax.Proofs.Reading.Escapes
import DhallSyntax.Proofs.Tree.Groups

/-!
Written texts are read back: every character, whether it stands for itself or is escaped, and every
interpolation.
-/

namespace DhallSyntax

open Grammar CharClass
open Reading (Iterates)
open Rendering (grouped word)

variable {rules : RuleReader}

/-! ## Characters -/

theorem mem_of_letter? {table : EscapeTable} {c letter : Char}
    (h : Rendering.letter? table c = some letter) : (letter, c) ∈ table := by
  obtain ⟨entry, hf, rfl⟩ := Option.map_eq_some_iff.mp h
  have hc : entry.2 = c := beq_iff_eq.mp (List.find?_some hf :)
  exact hc ▸ List.mem_of_find?_eq_some hf

theorem not_mem_of_letter? {table : EscapeTable} {c : Char}
    (h : Rendering.letter? table c = none) (letter : Char) : (letter, c) ∉ table := by
  intro hmem
  have hnone := List.find?_eq_none.mp (Option.map_eq_none_iff.mp h) _ hmem
  exact hnone (beq_self_eq_true c)

/-- Four hexadecimal digits give back the code point of every control character. -/
theorem hexDigits_control {n : Nat} (h : n < 128) :
    ∃ a b c d, (hexDigits 4 n).toList = [a, b, c, d] ∧ [a, b, c, d].all hexDigit = true ∧
      Numeral.positional 16 [a, b, c, d] = n := by
  have hall : ∀ n : Fin 128, (hexDigits 4 n).toList.length = 4 ∧
      (hexDigits 4 n).toList.all hexDigit = true ∧
      Numeral.positional 16 (hexDigits 4 n).toList = n := by decide +kernel
  obtain ⟨hlength, hhex, hvalue⟩ := hall ⟨n, h⟩
  match hdigits : (hexDigits 4 n).toList, hlength with
  | [a, b, c, d], _ => exact ⟨a, b, c, d, rfl, hdigits ▸ hhex, hdigits ▸ hvalue⟩

theorem readBy_escapeSequence_letter {letter c : Char} (h : (letter, c) ∈ EscapeTable.text)
    (t : List Char) : escapeSequence.readBy rules (letter :: t) = .value c t := by
  have hall : ∀ entry ∈ EscapeTable.text, EscapeTable.text.lookup entry.1 = some entry.2 := by
    decide
  simp [escapeSequence, hall _ h]

theorem readBy_doubleQuoteStep_letter {letter c : Char} (h : (letter, c) ∈ EscapeTable.text)
    (draft : TextDraft) (t : List Char) :
    (doubleQuoteStep draft).readBy rules ('\\' :: letter :: t) =
      .value (.inl (draft.add [c])) t := by
  have hstep : (doubleQuoteStep draft).readBy rules ('\\' :: letter :: t) =
      (escapeSequence.readBy rules (letter :: t)).bind fun c t =>
        .value (.inl (draft.add [c])) t := rfl
  rw [hstep, readBy_escapeSequence_letter h, Reading.bind_value]

theorem readBy_doubleQuoteStep_code {c : Char} (h : c.toNat < 128) (draft : TextDraft)
    (t : List Char) :
    (doubleQuoteStep draft).readBy rules ('\\' :: 'u' :: ((hexDigits 4 c.toNat).toList ++ t)) =
      .value (.inl (draft.add [c])) t := by
  obtain ⟨a, b, d, e, hdigits, hhex, hvalue⟩ := hexDigits_control h
  have hcode : HexCode [a, b, d, e] c := ⟨List.all_eq_true.mp hhex, hvalue⟩
  have hstep : (doubleQuoteStep draft).readBy rules ('\\' :: 'u' :: (a :: b :: d :: e :: t)) =
      (unicodeEscape.readBy rules (a :: b :: d :: e :: t)).bind fun c t =>
        .value (.inl (draft.add [c])) t := rfl
  have hescape : unicodeEscape.readBy rules (a :: b :: d :: e :: t) = .value c t :=
    readBy_unicodeEscape_four hcode rfl t
  rw [hdigits]
  exact hstep.trans (by rw [hescape, Reading.bind_value])

theorem readBy_doubleQuoteStep_plain {c : Char} (hp : printable c = true)
    (h : c ∉ ['"', '$', '\\']) (draft : TextDraft) (t : List Char) :
    (doubleQuoteStep draft).readBy rules (c :: t) = .value (.inl (draft.add [c])) t := by
  simp only [List.mem_cons, List.not_mem_nil, or_false, not_or] at h
  obtain ⟨hquote, hdollar, hbackslash⟩ := h
  have hne : ∀ {a : Char} {word : List Char}, c ≠ a → (a :: word).isPrefixOf (c :: t) = false :=
    fun hca => by simp [List.isPrefixOf, beq_false_of_ne (Ne.symm hca)]
  simp [doubleQuoteStep, readBy_accept, hne hquote, hne hdollar, hne hbackslash,
    readBy_takeIf_cons, hp]

/-- Every character of a text is read back as it is written. -/
theorem readBy_doubleQuoteStep_char (c : Char) (draft : TextDraft) (t : List Char) :
    (doubleQuoteStep draft).readBy rules (Rendering.textChar c ++ t) =
      .value (.inl (draft.add [c])) t := by
  unfold Rendering.textChar
  cases hl : Rendering.letter? EscapeTable.text c with
  | some letter => exact readBy_doubleQuoteStep_letter (mem_of_letter? hl) draft t
  | none =>
    by_cases hp : printable c = true
    · rw [if_pos hp]
      refine readBy_doubleQuoteStep_plain hp ?_ draft t
      have hescaped : ['"', '$', '\\'].all (fun c => EscapeTable.text.contains (c, c)) = true := by
        decide
      exact fun hmem => not_mem_of_letter? hl c
        (List.contains_iff_mem.mp (List.all_eq_true.mp hescaped c hmem))
    · rw [if_neg hp]
      rw [printable_iff] at hp
      exact readBy_doubleQuoteStep_code (by omega) draft t

theorem textChar_ne_nil (c : Char) : Rendering.textChar c ≠ [] := by
  unfold Rendering.textChar
  split
  · exact List.cons_ne_nil _ _
  · split <;> exact List.cons_ne_nil _ _

theorem TextDraft.add_add (draft : TextDraft) (s t : List Char) :
    (draft.add s).add t = draft.add (s ++ t) := by
  simp [TextDraft.add]

theorem TextDraft.build_add (text : List Char) :
    (TextDraft.empty.add text).build = .text [] (String.ofList text) := by
  simp [TextDraft.add, TextDraft.build, TextDraft.empty]

/-- The steps through a double-quoted text. -/
abbrev TextSteps (draft : TextDraft) (s : List Char) (r : Reading Expr) : Prop :=
  Iterates (fun draft s => (doubleQuoteStep draft).readBy Rule.read s) draft s r

theorem textSteps_text (s : List Char) {draft : TextDraft} {t : List Char} {r : Reading Expr}
    (h : TextSteps (draft.add s) t r) : TextSteps draft (s.flatMap Rendering.textChar ++ t) r := by
  induction s generalizing draft with
  | nil => exact h
  | cons c s ih =>
    have hshorter := List.length_pos_iff.mpr (textChar_ne_nil c)
    rw [List.flatMap_cons, List.append_assoc]
    refine .next (readBy_doubleQuoteStep_char c draft _) ?_ (ih ?_)
    · simp only [List.length_append]
      omega
    · rw [TextDraft.add_add]
      exact h

/-! ## Interpolations -/

theorem readBy_doubleQuoteStep_interpolation {cs : List Char} {e : Expr} (h : Writes cs e)
    (draft : TextDraft) (t : List Char) :
    (doubleQuoteStep draft).read (word "$\x7b " ++ (grouped cs ++ (word " \x7d" ++ t))) =
      .value (.inl (draft.interpolate e)) t := by
  have hcomplete := read_completeExpression (tight_grouped cs _)
    (h.read_expression (endsExpression_closing (by decide : '}' ∈ _) t))
    (by rfl : Whitespace.Tight ('}' :: t))
  have hstep : (doubleQuoteStep draft).read
      (word "$\x7b " ++ (grouped cs ++ (word " \x7d" ++ t))) =
        ((completeExpression.read (' ' :: (grouped cs ++ ' ' :: '}' :: t))).bind fun e s =>
          ((expect "\x7d").read s).bind fun _ s => .value (draft.interpolate e) s).bind
            fun draft s => .value (.inl draft) s := rfl
  rw [hstep, hcomplete]
  rfl

theorem textSteps_chunks {chunks : List (String × Expr)} {suffix : String}
    (h : ∀ chunk ∈ chunks, Writes (Rendering.chars chunk.2) chunk.2)
    (done : List (String × Expr)) (t : List Char) :
    TextSteps ⟨done, []⟩
      (Rendering.chunksChars chunks ++ (Rendering.text suffix ++ '"' :: t))
      (.value (.text (done.reverse ++ chunks) suffix) t) := by
  induction chunks generalizing done with
  | nil =>
    refine textSteps_text suffix.toList (.last ?_)
    have hbuild : (TextDraft.add ⟨done, []⟩ suffix.toList).build = .text done.reverse suffix := by
      simp [TextDraft.add, TextDraft.build]
    rw [List.append_nil, ← hbuild]
    rfl
  | cons chunk chunks ih =>
    obtain ⟨s, e⟩ := chunk
    obtain ⟨he, hrest⟩ := List.forall_mem_cons.mp h
    have hnext : (TextDraft.add ⟨done, []⟩ s.toList).interpolate e = ⟨(s, e) :: done, []⟩ := by
      simp [TextDraft.add, TextDraft.interpolate]
    have hlater := ih hrest ((s, e) :: done)
    rw [← hnext, List.reverse_cons, List.append_assoc, List.singleton_append] at hlater
    simp only [Rendering.chunksChars, Rendering.chunk, List.append_assoc]
    refine textSteps_text s.toList (.next (readBy_doubleQuoteStep_interpolation he _ _) ?_ hlater)
    simp only [List.length_append]
    have hmark : (word "$\x7b ").length = 3 := rfl
    omega

/-- A text is read back with its interpolations if they are. -/
theorem writes_text {chunks : List (String × Expr)} {suffix : String}
    (h : ∀ chunk ∈ chunks, Writes (Rendering.chars chunk.2) chunk.2) :
    Writes (Rendering.chars (.text chunks suffix)) (.text chunks suffix) where
  tight t := rfl
  read t ht := by
    have hshape : Rendering.chars (.text chunks suffix) ++ t =
        '"' :: (Rendering.chunksChars chunks ++ (Rendering.text suffix ++ '"' :: t)) := by
      simp [Rendering.chars]
    have hquoted : (call .doubleQuoteLiteral).read
        ('"' :: (Rendering.chunksChars chunks ++ (Rendering.text suffix ++ '"' :: t))) =
          .value (.text chunks suffix) t := by
      refine (Rule.read_eq .doubleQuoteLiteral _).trans ?_
      exact readBy_iterate (textSteps_chunks h [] t)
    have htext : Rule.textLiteral.read
        ('"' :: (Rendering.chunksChars chunks ++ (Rendering.text suffix ++ '"' :: t))) =
          .value (.text chunks suffix) t := by
      rw [Rule.read_eq]
      simp only [Rule.body, textLiteral, readBy_choice_cons, hquoted, Reading.orElse_value]
    have hmisses : ∀ rule : Rule, rule.first '"' = false → rule.read
        ('"' :: (Rendering.chunksChars chunks ++ (Rendering.text suffix ++ '"' :: t))) =
          .mismatch := fun rule hr => rule.read_of_first hr
    rw [hshape]
    refine read_expression_plain (plainStart_of_first rfl) ?_ ht.ends
    rw [read_primitiveExpression, hmisses .doubleLiteral rfl, hmisses .naturalLiteral rfl,
      hmisses .integerLiteral rfl, htext]
    rfl

end DhallSyntax
