import DhallSyntax.Proofs.Seam.Addresses

/-!
Imports in front of a seam: their kind, hash and mode. Main statements:

* `Seam.carries_importClause`: an import carries over where nothing goes on with it;
* `Seam.misses_importClause`: what is an operand but no import with the first end is no import with
  the second.
-/

namespace DhallSyntax

open CharClass Grammar

variable {α β : Type}

namespace Seam

variable {T : Seam} {n m : Nat} {x y z : List Char}

/-! ## Kinds, hashes and modes -/

theorem carries_importType (hlocal : T.Carries n (fun _ => T.EndsOperand) (call .localImport))
    (hhttp : T.Carries n (fun _ => T.EndsOperand) (call .httpImport))
    (henv : T.Carries n (fun _ => T.EndsOperand) (call .envImport)) :
    T.Carries n (fun _ => T.EndsOperand) importType := by
  have hmissing : Grammar.OpensWith "m".toList.contains 0 (keyword "missing" >>= fun _ =>
      (return .missing : Grammar (ImportKind String))) :=
    .bind (Rule.opens_keyword "missing" (by decide))
  have hpaths := Headed.orElse Rule.opens_localImport (.call .localImport hlocal)
    (not_contains (by decide)) (Headed.orElse Rule.opens_httpImport (.call .httpImport hhttp)
      (not_contains (by decide)) (Headed.last (.call .envImport henv)))
  exact (Headed.orElse hmissing (.bind (headed_keyword (by decide)) fun _ => .pure _)
    (not_contains (by decide)) hpaths).carries

theorem starts_hexDigit {c : Char} (hc : hexDigit c = true) (s : List Char) :
    Whitespace.starts (c :: s) = false := by
  refine Bool.eq_false_iff.mpr fun hs => ?_
  have hall : ∀ c ∈ " \t\n\r-\x7b".toList, hexDigit c = false := forall_mem_of_all (by decide)
  rw [hall c (List.contains_iff_mem.mp (starts_head hs))] at hc
  cases hc

theorem carries_integrityHash {E : Digest → List Char → Prop} : T.Carries n E integrityHash := by
  intro x a y hl he
  obtain ⟨b, z, hb, h⟩ := Lands.bind hl
  obtain ⟨hwas, rfl⟩ := lands_look hb
  clear hl hb
  split at h
  · cases h
  rename_i hfree
  rw [Bool.not_eq_true] at hfree
  subst hfree
  obtain ⟨_, v, hv, hrest⟩ := Lands.bind h
  obtain rfl := lands_expect hv
  obtain ⟨run, w, hrun, hlast⟩ := Lands.bind hrest
  obtain ⟨rfl, hall, -⟩ := lands_takeWhile hrun
  -- Behind the colon comes a digit, and no whitespace.
  obtain ⟨c, run, rfl⟩ : ∃ c t, run = c :: t := by
    cases run with
    | nil => cases hlast
    | cons c t => exact ⟨c, t, rfl⟩
  have hnow : ("sha256:".toList.isPrefixOf (T.now ("sha256:".toList ++ (c :: run ++ w))) &&
      Whitespace.starts ((T.now ("sha256:".toList ++ (c :: run ++ w))).drop 7)) = false := by
    refine Bool.and_eq_false_iff.mpr (.inr ?_)
    exact starts_hexDigit (hall c List.mem_cons_self) _
  apply Same.bind (reads_look hwas.symm hnow)
  rw [if_neg Bool.false_ne_true]
  refine Carries.andThen (carries_expect (by decide)) (fun _ => ?_) _ a y h he
  refine .andThen (carries_takeWhile (.inl hexDigit_unbroken)) fun _ => ?_
  exact .ite (fun _ => .pure _) fun _ => .abort _ _

theorem leads_token_integrityHash {E : Digest → List Char → Prop} :
    T.Leads n E Token integrityHash := by
  intro x a y h _
  obtain ⟨v, rfl⟩ := lands_integrityHash h
  exact token_append (by decide) v

theorem carries_importHashed (htype : T.Carries n (fun _ => T.EndsOperand) (call .importType)) :
    T.Carries n (fun _ => T.EndsOperand) importHashed := by
  apply Carries.bind htype
  · intro kind
    refine Leads.bind (F := fun _ => T.EndsOperand) ?_ fun _ => .pure fun _ h => h
    exact Leads.optional? leads_hash fun _ h => h
  · intro kind
    refine Carries.bind (F := fun _ => T.EndsOperand) ?_ (fun _ => .pure fun _ h => h) fun _ => .pure _
    exact Carries.optional? (Carries.spaced1 leads_token_integrityHash carries_integrityHash)
      fun _ h => h.hash

theorem carries_importMode {E : ImportMode → List Char → Prop} : T.Carries n E importMode := by
  have hraw : Grammar.OpensWith "T".toList.contains 0 (keyword ImportMode.rawText.word >>= fun _ =>
      (return .rawText : Grammar ImportMode)) := .bind (Rule.opens_keyword _ (by decide))
  have hnone : ∀ x (a : ImportMode) y,
      ¬ T.Lands n (choice [fail "'Text' or 'Location'"]) x a y := by
    intro x a y h
    obtain h | ⟨-, h⟩ := h.orElse <;> cases h
  have hlocation : T.Headed n E "L".toList.contains (choice
      [do keyword ImportMode.location.word; return .location, fail "'Text' or 'Location'"]) := by
    constructor
    · exact .orElse (.andThen (carries_keyword _) fun _ => .pure _)
        (fun x a y h => absurd h (hnone x a y)) fun x a y _ h => absurd h (hnone x a y)
    · exact .orElse (.front (headed_keyword (n := n) (E := fun _ _ => True) (by decide)).begins)
        fun x a y h => absurd h (hnone x a y)
  exact (Headed.orElse hraw (.bind (headed_keyword (by decide)) fun _ => .pure _)
    (not_contains (by decide)) hlocation).carries

theorem leads_token_importMode {E : ImportMode → List Char → Prop} :
    T.Leads n E Token importMode :=
  .orElse (.front (leads_token_keyword (by decide)))
    (.orElse (.front (leads_token_keyword (by decide))) fun _ _ _ h => nomatch h)

/-- An import carries over where nothing goes on with it. -/
theorem carries_importClause
    (hhashed : T.Carries n (fun _ => T.EndsOperand) (call .importHashed)) :
    T.Carries n (fun _ => T.EndsOperand) importClause := by
  apply Carries.bind hhashed
  · intro hashed
    refine Leads.bind (F := fun _ => T.EndsOperand) ?_ fun _ => .pure fun _ h => h
    exact Leads.optional? leads_mode fun _ h => h
  · intro hashed
    refine Carries.bind (F := fun _ => T.EndsOperand) ?_ (fun _ => .pure fun _ h => h) fun _ => .pure _
    refine Carries.optional? ?_ fun _ h => h.mode
    refine Carries.spaced (.front (leads_token_keyword (by decide))) ?_
    exact .andThen (carries_keyword _) fun _ =>
      Carries.spaced1 leads_token_importMode carries_importMode

/-! ## Operands that are no imports -/

/-- What a text begins with that is made of the characters of labels is in front of the seam if its
first word is. -/
theorem word_prefix (h : T.WordIn x) (hs : x.head?.any labelStart = true) {literal : List Char}
    (hl : literal.all labelContinue = true) (hp : literal.isPrefixOf (T.was x) = true) :
    ∃ t, x = literal ++ t := by
  obtain ⟨t, hx, -⟩ := word_split (h hs)
  obtain ⟨r, hr⟩ := List.isPrefixOf_iff_prefix.mp (isPrefixOf_wordOf hl hp)
  exact ⟨r ++ t, by rw [← List.append_assoc, hr]; exact hx⟩

/-- The first word of the text is that of a URL, in front of the seam, or with neither end. -/
theorem scheme_cases (h : T.WordIn x) (hs : x.head?.any labelStart = true) :
    T.Misses scheme x ∨ ∃ word ∈ ["https", "http"], ∃ s t, x = word.toList ++ t ∧
      ∀ n, T.Lands n scheme x s t := by
  have hfree : scheme.CallFree := by simp [scheme]
  have hlands : ∀ {n : Nat} {s : Scheme} {t : List Char},
      scheme.readBy Rule.read (T.was x) = .value s (T.was t) → T.Lands n scheme x s t :=
    fun hr => (lands_iff hfree (by simp [scheme])).mpr hr
  have hread : ∀ s, scheme.readBy Rule.read s =
      if "https".toList.isPrefixOf s then .value .https (s.drop 5)
      else if "http".toList.isPrefixOf s then .value .http (s.drop 4) else .mismatch := by
    intro s
    simp only [scheme, readBy_bind, readBy_accept]
    split
    · rfl
    · simp only [Reading.bind_value, Bool.false_eq_true, if_false, readBy_bind, readBy_expect]
      split <;> rfl
  cases hsecure : "https".toList.isPrefixOf (T.was x) with
  | true =>
    obtain ⟨t, rfl⟩ := word_prefix h hs (by decide) hsecure
    refine .inr ⟨"https", List.mem_cons_self, .https, t, rfl, fun n => hlands ?_⟩
    rw [hread, if_pos hsecure]
    rfl
  | false =>
    have hsecure' := isPrefixOf_was (by decide) hsecure
    cases hplain : "http".toList.isPrefixOf (T.was x) with
    | true =>
      obtain ⟨t, rfl⟩ := word_prefix h hs (by decide) hplain
      refine .inr ⟨"http", List.mem_cons_of_mem _ List.mem_cons_self, .http, t, rfl,
        fun n => hlands ?_⟩
      rw [hread, hsecure, if_neg Bool.false_ne_true, if_pos hplain]
      rfl
    | false =>
      have hplain' := isPrefixOf_was (by decide) hplain
      refine .inl (misses_plain hfree ?_ ?_)
      · rw [hread, hsecure, hplain, if_neg Bool.false_ne_true, if_neg Bool.false_ne_true]
      · rw [hread, hsecure', hplain', if_neg Bool.false_ne_true, if_neg Bool.false_ne_true]

/-- What is looked for behind the scheme of a URL is only looked for at the seam. -/
theorem quiet_slashes (next : Unit → Grammar α) : T.Quiet (expect "://" >>= next) := by
  have hopens : Grammar.OpensWith (· == ':') T.levels (expect "://" >>= next) :=
    .bind (Rule.opens_expect "://" (by decide))
  have hhead : (T.now []).head?.any (· == ':') = false := by
    cases hnow : T.now [] with
    | nil => rfl
    | cons c v =>
      refine beq_false_of_ne ?_
      rintro rfl
      exact absurd (now_nil_head hnow) (by decide)
  exact fun depth => hopens.steady hhead trivial depth

section Selector

variable {a : Expr} (h : T.Lands n (call .selectorExpression) x a y)
  (hy : ∀ v, y = ':' :: v → v ≠ [] ∧ Whitespace.starts (T.now v) = true)

include h hy

/-- A name in front of a colon begins no URL. -/
theorem ready_httpImport (hs : x.head?.any labelStart = true) : T.Ready httpImport x := by
  intro m hf
  obtain hmiss | ⟨word, hword, s, t, rfl, hlands⟩ :=
    scheme_cases (leads_word_selectorExpression (E := fun _ _ => True) x a y h trivial) hs
  · exact .miss hmiss
  refine .bind (carries_scheme (E := fun _ _ => True) _ s t (hlands n) trivial) ?_
  cases t with
  | nil => exact (quiet_slashes _).ready m (Fails.bind hf (hlands m))
  | cons c t =>
    apply Same.miss
    by_cases hc : c = ':'
    · subst hc
      have hcolon : word ∈ colonWords := by
        have hall : ∀ word ∈ ["https", "http"], word ∈ colonWords := by decide
        exact hall word hword
      have hprefix : word.toList ++ [':'] <+: T.now (word.toList ++ ':' :: t) :=
        ⟨T.now t, by rw [now_append, List.append_assoc]; rfl⟩
      obtain ⟨v, hv, hne, hstarts⟩ := colon_edge hcolon h hy hprefix
      obtain ⟨-, rfl⟩ := List.cons.inj (List.append_cancel_left hv)
      obtain ⟨d, v, rfl⟩ := List.exists_cons_of_ne_nil hne
      have hd : d ≠ '/' := by
        rintro rfl
        exact absurd (starts_head hstarts) (by decide)
      have hslash : ∀ r, (expect "://").readBy Rule.read (':' :: d :: r) = .mismatch := by
        intro r
        have hliteral : "://".toList = [':', '/', '/'] := by decide
        rw [readBy_expect, hliteral, List.isPrefixOf, List.isPrefixOf, beq_false_of_ne hd.symm,
          Bool.false_and, Bool.and_false, if_neg Bool.false_ne_true]
      exact misses_plain (by simp) (hslash (T.was v)) (hslash (T.now v))
    · exact misses_expect "://" (bne_iff_ne.mpr (Ne.symm hc))

/-- Nor an environment variable. -/
theorem ready_envImport : T.Ready envImport x := by
  intro m hf
  have hfree : envImport.CallFree := by
    simp [envImport, doesOnly_bashName, doesOnly_quotedNameStep]
  refine misses_fails hfree hf ?_
  cases hp : "env:".toList.isPrefixOf (T.now x) with
  | false => simp only [envImport, readBy_bind, readBy_expect, hp, Bool.false_eq_true, if_false,
      Reading.bind_mismatch]
  | true =>
    have hprefix : "env".toList ++ [':'] <+: T.now x := List.isPrefixOf_iff_prefix.mp hp
    obtain ⟨v, rfl, hne, hstarts⟩ := colon_edge (by decide : "env" ∈ colonWords) h hy hprefix
    obtain ⟨d, v, rfl⟩ := List.exists_cons_of_ne_nil hne
    have hd := List.contains_iff_mem.mp (starts_head hstarts)
    have hall : ∀ d ∈ " \t\n\r-\x7b".toList, d ≠ '"' ∧ (alpha d || d == '_') = false :=
      forall_mem_of_all (by decide)
    obtain ⟨hquote, hname⟩ := hall d hd
    have henv : (expect "env:").readBy Rule.read (T.now ("env".toList ++ ':' :: d :: v)) =
        .value () (d :: T.now v) := rfl
    have haccept : (accept "\"").readBy Rule.read (d :: T.now v) = .value false (d :: T.now v) := by
      have hhead : (d :: T.now v).head?.any (· == '"') = false := beq_false_of_ne hquote
      exact readBy_accept_of_head "\"" rfl hhead
    simp only [envImport, bashName, readBy_bind, henv, haccept, Reading.bind_value,
      Bool.false_eq_true, if_false, readBy_peek, List.head?_cons, hname, readBy_fail,
      Reading.bind_mismatch]

/-- What is an operand but no import with the first end is no import with the second. -/
theorem ready_importClause : T.Ready (call .importClause) x := by
  intro m hf
  obtain ⟨c, t, rfl, hc⟩ := h.first
  by_cases hstart : importStart c = true
  · have hall : ∀ c ∈ "./~ehm".toList, primitiveStart c = true → labelStart c = true ∧
        "./~".toList.contains c = false := forall_mem_of_all (by decide)
    obtain ⟨hs, hno⟩ := hall c (List.contains_iff_mem.mp hstart) hc
    have hs : (c :: t).head?.any labelStart = true := hs
    obtain ⟨k, hf⟩ := hf.call
    obtain ⟨k, hf⟩ := (Fails.first hf fun _ => softly_optional_ne_mismatch _ _).call
    obtain ⟨k, hf⟩ := (Fails.first hf fun _ => softly_optional_ne_mismatch _ _).call
    obtain ⟨hmissing, hf⟩ := Fails.choice hf
    obtain ⟨-, hf⟩ := Fails.choice hf
    obtain ⟨hhttp, hf⟩ := Fails.choice hf
    obtain ⟨henv, -⟩ := Fails.choice hf
    have hword : T.WordIn (c :: t) :=
      leads_word_selectorExpression (E := fun _ _ => True) _ a y h trivial
    have hkeyword : T.Misses (keyword "missing") (c :: t) := by
      have hf := (fails_iff (by simp) (by simp)).mp (Fails.first hmissing fun _ _ he => nomatch he)
      rw [readBy_keyword_word "missing" (by decide)] at hf
      refine misses_otherWord hword hs (by decide) fun he => ?_
      rw [if_pos he] at hf
      cases hf
    have hx := List.cons_ne_nil c t
    refine .call hx (.miss (.call hx (.miss (.call hx ?_))))
    refine .right (.miss hkeyword) (.right (misses_head Rule.opens_localImport hno) ?_)
    refine .right ((ready_httpImport h hy hs).call hx k hhttp) ?_
    exact .right ((ready_envImport h hy).call hx k henv) (.plain trivial (.refl _) rfl)
  · exact misses_head Rule.opens_importClause (Bool.eq_false_iff.mpr hstart)

end Selector

end Seam

end DhallSyntax
