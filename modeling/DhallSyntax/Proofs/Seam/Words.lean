import DhallSyntax.Proofs.Reading.Levels
import DhallSyntax.Proofs.Seam.Ends

/-!
Words in front of a seam. An operand that lands in front of the seam has its first word there as a
whole, so that no keyword is read of it with one end of the text but not with the other. Main
statements:

* `Seam.leads_operatorExpression`: the first word of a chain of operators is in front of the seam;
* `Seam.leads_argument`, `Seam.leads_selector`: an operand ends in front of an argument, or in front
  of a selector.
-/

namespace DhallSyntax

open CharClass Grammar

variable {α β : Type}

namespace Seam

variable {T : Seam} {n : Nat} {u v x y : List Char}

/-- The first word of the text, if it begins with one, is in front of the seam. -/
def WordIn (T : Seam) (x : List Char) : Prop :=
  x.head?.any labelStart = true → (wordOf (T.was x)).length ≤ x.length

theorem word_split (h : (wordOf (T.was x)).length ≤ x.length) :
    ∃ t, x = wordOf (T.was x) ++ t ∧ behindWord (T.was x) = T.was t := by
  have hs := wordOf_behindWord (T.was x)
  have hprefix : wordOf (T.was x) <+: x :=
    List.prefix_of_prefix_length_le ⟨_, hs⟩ (List.prefix_append x _) h
  obtain ⟨t, ht⟩ := hprefix
  refine ⟨t, ht.symm, ?_⟩
  have hwas : T.was x = wordOf (T.was x) ++ T.was t :=
    (congrArg T.was ht.symm).trans (was_append _ t)
  exact List.append_cancel_left (hs.trans hwas)

/-- A word in front of the seam is the same with either end. -/
theorem word_now (h : (wordOf (T.was x)).length ≤ x.length) :
    wordOf (T.now x) = wordOf (T.was x) ∧
      ∃ t, behindWord (T.was x) = T.was t ∧ behindWord (T.now x) = T.now t := by
  obtain ⟨t, hx, ht⟩ := word_split h
  have hstop := head_behindWord (T.was x)
  rw [ht] at hstop
  have hall : (wordOf (T.was x)).all labelContinue = true :=
    List.all_eq_true.mpr fun c hc => mem_takeWhile hc
  have hnow := wordOf_append hall (head_was labelContinue_unbroken hstop)
  rw [← now_append, ← hx] at hnow
  exact ⟨hnow.1, t, ht, hnow.2⟩

/-- A keyword that is not the first word is missed. -/
theorem misses_otherWord (h : T.WordIn x) (hs : x.head?.any labelStart = true)
    {word : String} (hw : word.toList.all labelContinue = true)
    (hne : wordOf (T.was x) ≠ word.toList) : T.Misses (keyword word) x := by
  obtain ⟨hword, -⟩ := word_now (h hs)
  refine misses_plain (by simp) ?_ ?_
  · rw [readBy_keyword_word word hw, if_neg hne]
  · rw [readBy_keyword_word word hw, hword, if_neg hne]

/-! ## Where words are read -/

/-- A rule that does not begin with a letter has no word to read. -/
theorem leads_word_of_first (rule : Rule) {E : rule.Result → List Char → Prop}
    (h : ∀ c, labelStart c = true → rule.first c = false) :
    T.Leads n E T.WordIn (.call rule) := by
  intro x a y ha _ hs
  obtain ⟨c, t, rfl, hc⟩ := ha.first
  rw [h c hs] at hc
  cases hc

theorem labelStart_not_mem {text : List Char} (h : text.all (fun c => !labelStart c) = true) :
    ∀ c, labelStart c = true → text.contains c = false := by
  intro c hc
  rw [← Bool.not_eq_true, List.contains_iff_mem]
  intro hm
  have hn := List.all_eq_true.mp h c hm
  rw [hc] at hn
  cases hn

theorem wordIn_append {word t : List Char} (hw : word.all labelContinue = true)
    (ht : (T.was t).head?.any labelContinue = false) : T.WordIn (word ++ t) := by
  intro _
  rw [was_append, (wordOf_append hw ht).1, List.length_append]
  omega

theorem leads_word_keyword {word : String} (hw : word.toList.all labelContinue = true)
    {E : Unit → List Char → Prop} : T.Leads n E T.WordIn (keyword word) :=
  leads_keyword fun _ hy _ => wordIn_append hw hy

theorem leads_word_label (excluded : String → Bool) (expected : String)
    {E : String → List Char → Prop} : T.Leads n E T.WordIn (labelExcept excluded expected) := by
  intro x a y h _ hs
  have hr := (lands_iff (doesOnly_labelExcept _ _) (doesOnly_labelExcept _ _)).mp h
  have hstart : (T.was x).head?.any labelStart = true := by
    obtain ⟨c, t, rfl, hc⟩ := head?_of_any hs
    exact hc
  rw [readBy_labelExcept_word hstart] at hr
  split at hr
  · cases hr
  · have hbehind := (Reading.value.inj hr).2
    have hlength := congrArg List.length (wordOf_behindWord (T.was x))
    rw [List.length_append, hbehind, was_length, was_length (x := x)] at hlength
    omega

theorem leads_word_builtin {E : Expr → List Char → Prop} : T.Leads n E T.WordIn builtin := by
  intro x a y h _ hs
  have hr := (lands_iff doesOnly_builtin doesOnly_builtin).mp h
  have hstart : (T.was x).head?.any labelStart = true := by
    obtain ⟨c, t, rfl, hc⟩ := head?_of_any hs
    exact hc
  rw [readBy_builtin_word hstart] at hr
  split at hr
  · have hbehind := (Reading.value.inj hr).2
    have hlength := congrArg List.length (wordOf_behindWord (T.was x))
    rw [List.length_append, hbehind, was_length, was_length (x := x)] at hlength
    omega
  · cases hr

theorem leads_word_identifier {E : Expr → List Char → Prop} :
    T.Leads n E T.WordIn (call .identifier) := by
  refine Leads.call .identifier ?_
  intro x a y h he
  obtain ⟨name, z, hname, hz⟩ := Lands.bind h
  obtain ⟨label, rfl, hlabel⟩ | ⟨rfl, rfl, -⟩ := hname.optional?
  · have hleads : T.Leads n (fun _ _ => True) T.WordIn (call .nonreservedLabel) :=
      Leads.call .nonreservedLabel (leads_word_label _ _)
    exact hleads x label z hlabel trivial
  · exact leads_word_builtin _ a y hz he

theorem leads_word_doubleLiteral {E : Decimal → List Char → Prop} :
    T.Leads n E T.WordIn (call .doubleLiteral) := by
  refine Leads.call .doubleLiteral ?_
  intro x a y h _
  obtain ⟨entry, z, hfind, h⟩ := Lands.bind h
  obtain ⟨hentry, hz⟩ :=
    Reading.value.inj (show Reading.value _ _ = .value entry (T.was z) from hfind)
  obtain rfl := was_injective hz
  cases entry with
  | some entry =>
    obtain ⟨_, z, hword, -⟩ := Lands.bind h
    have hwords : ∀ entry ∈ specialDoubles, entry.1.toList.all labelContinue = true := by decide
    obtain ⟨rfl, hstop⟩ := lands_keyword hword
    exact wordIn_append (hwords entry (List.mem_of_find?_eq_some hentry)) hstop
  | none =>
    -- A sign and digits are no word.
    intro hs
    obtain ⟨_, z, hsign, h⟩ := Lands.bind h
    obtain ⟨_, w, hdigits, -⟩ := Lands.bind h
    obtain ⟨c, u, hc, hv⟩ := Lands.bind hsign
    obtain ⟨-, rfl⟩ := Lands.pure hv
    obtain ⟨d, -, rfl, hd⟩ | ⟨-, rfl, -⟩ := lands_takeIf hc
    · have hd : (d == '+' || d == '-') = true := hd
      simp only [Bool.or_eq_true, beq_iff_eq] at hd
      obtain rfl | rfl := hd <;> cases hs
    · obtain ⟨hrun, hne⟩ := lands_takeWhile1 hdigits
      obtain ⟨rfl, hall, -⟩ := lands_takeWhile hrun
      obtain ⟨d, t, rfl⟩ := List.exists_cons_of_ne_nil hne
      have hdigit := hall d List.mem_cons_self
      have hstart : labelStart d = true := hs
      rw [labelStart_iff] at hstart
      rw [digit_iff] at hdigit
      omega

theorem leads_word_primitiveExpression {E : Expr → List Char → Prop} :
    T.Leads n E T.WordIn (call .primitiveExpression) := by
  have hnone : ∀ {text : List Char}, text.all (fun c => !labelStart c) = true →
      ∀ c, labelStart c = true → text.contains c = false := labelStart_not_mem
  have hdigit : ∀ c, labelStart c = true → digit c = false := by
    intro c hc
    rw [labelStart_iff] at hc
    rw [← Bool.not_eq_true, digit_iff]
    omega
  refine Leads.call .primitiveExpression (Leads.choice ?_)
  simp only [List.forall_mem_cons]
  exact ⟨.front leads_word_doubleLiteral, .front (leads_word_of_first .naturalLiteral hdigit),
    .front (leads_word_of_first .integerLiteral (hnone (by decide))),
    leads_word_of_first .textLiteral (hnone (by decide)),
    leads_word_of_first .recordExpression (hnone (by decide)),
    leads_word_of_first .unionType (hnone (by decide)),
    leads_word_of_first .listLiteral (hnone (by decide)), leads_word_identifier,
    .front (leads_expect fun y _ hs => nomatch (show labelStart '(' = true from hs)), fun _ h => nomatch h⟩

theorem leads_word_selectorExpression {E : Expr → List Char → Prop} :
    T.Leads n E T.WordIn (call .selectorExpression) :=
  Leads.call .selectorExpression (.front leads_word_primitiveExpression)

theorem lands_scheme {a : Scheme} (hl : T.Lands n scheme x a y) :
    ∃ word ∈ ["https", "http"], x = word.toList ++ y := by
  obtain ⟨b, z, hb, h⟩ := Lands.bind hl
  clear hl
  obtain ⟨rfl, rfl⟩ | ⟨rfl, rfl, -⟩ := lands_accept hb
  · obtain ⟨-, rfl⟩ := Lands.pure h
    exact ⟨"https", List.mem_cons_self, rfl⟩
  · obtain ⟨_, z, hz, h⟩ := Lands.bind h
    obtain ⟨-, rfl⟩ := Lands.pure h
    exact ⟨"http", List.mem_cons_of_mem _ List.mem_cons_self, lands_expect hz⟩

/-- The words that URLs and environment variables begin with have a colon behind them. -/
theorem wordIn_colon {word : String} (hw : word ∈ ["https", "http", "env"]) {t : List Char} :
    T.WordIn (word.toList ++ ':' :: t) := by
  have hall : ∀ word ∈ ["https", "http", "env"], word.toList.all labelContinue = true := by decide
  exact wordIn_append (hall word hw) rfl

theorem leads_word_importType {E : ImportKind String → List Char → Prop} :
    T.Leads n E T.WordIn (call .importType) := by
  refine Leads.call .importType (Leads.choice ?_)
  simp only [List.forall_mem_cons]
  refine ⟨.front (leads_word_keyword (by decide)),
    leads_word_of_first .localImport (labelStart_not_mem (by decide)),
    Leads.call .httpImport ?_, Leads.call .envImport (.front ?_),
    fun _ h => nomatch h⟩
  · intro x a y h _
    obtain ⟨_, z, hscheme, h⟩ := Lands.bind h
    obtain ⟨_, w, hslashes, -⟩ := Lands.bind h
    obtain ⟨word, hword, rfl⟩ := lands_scheme hscheme
    obtain rfl := lands_expect hslashes
    exact wordIn_colon (List.mem_append_left ["env"] hword)
  · exact leads_expect fun y _ => wordIn_colon (List.mem_append_right ["https", "http"] (List.mem_singleton_self _))

theorem leads_word_importExpression {E : Expr → List Char → Prop} :
    T.Leads n E T.WordIn (call .importExpression) := by
  refine Leads.call .importExpression (Leads.choice ?_)
  simp only [List.forall_mem_cons]
  refine ⟨.front ?_, leads_word_selectorExpression, fun _ h => nomatch h⟩
  exact Leads.call .importClause (.front
    (Leads.call .importHashed (.front leads_word_importType)))

theorem leads_word_firstApplication {E : Expr → List Char → Prop} :
    T.Leads n E T.WordIn (call .firstApplicationExpression) := by
  refine Leads.call .firstApplicationExpression (Leads.choice ?_)
  simp only [List.forall_mem_cons]
  exact ⟨.front (leads_word_keyword (by decide)), .front (leads_word_keyword (by decide)),
    .front (leads_word_keyword (by decide)), leads_word_importExpression, fun _ h => nomatch h⟩

/-- The first word of a chain of operators is in front of the seam. -/
theorem leads_word_operatorExpression {E : Expr → List Char → Prop} :
    T.Leads n E T.WordIn (call .operatorExpression) :=
  Leads.call .operatorExpression (.front
    (Leads.call .applicationExpression (.front leads_word_firstApplication)))

/-! ## Operands in front of something that goes on with them -/

/-- An operand ends in front of a selector. -/
theorem leads_selector {E : Selector → List Char → Prop} :
    T.Leads n E T.EndsOperand selector := by
  intro x a y h _
  have hready := h.ready
  obtain ⟨_, u, hw, h⟩ := Lands.bind h
  obtain ⟨_, v, hdot, -⟩ := Lands.bind h
  obtain rfl := lands_expect hdot
  have htoken : Token (".".toList ++ v) := ⟨'.', v, rfl, by decide⟩
  exact endsOperand_token hw htoken hready (misses_expect "@" (by decide))
    (misses_keyword "using" (by decide))
    (ready_whitespace1 hw htoken (misses_integrityHash (by decide)))
    (ready_whitespace hw htoken (.miss (misses_keyword "as" (by decide))))
    fun _ => ⟨misses_pathComponent (by decide), fun _ hv => (nomatch hv), fun _ hv => (nomatch hv)⟩

theorem lands_integrityHash {a : Digest} (h : T.Lands n integrityHash x a y) :
    ∃ v, x = "sha256:".toList ++ v := by
  obtain ⟨b, z, hb, h⟩ := Lands.bind h
  have hz := (Reading.value.inj (show Reading.value _ _ = .value b (T.was z) from hb)).2
  obtain rfl := was_injective hz
  split at h
  · cases h
  · obtain ⟨_, v, hv, -⟩ := Lands.bind h
    exact ⟨v, lands_expect hv⟩

/-- The kind of an import ends in front of its hash. -/
theorem leads_hash {E : Digest → List Char → Prop} : T.Leads n E T.EndsOperand hashTail := by
  intro x a y h _
  have hready := h.ready
  obtain ⟨_, u, hw, h⟩ := Lands.bind h
  obtain ⟨v, rfl⟩ := lands_integrityHash h
  have htoken : Token ("sha256:".toList ++ v) := ⟨'s', _, rfl, by decide⟩
  have hw := (lands_whitespace1 hw).1
  exact endsOperand_token hw htoken (ready_whitespace hw htoken (.miss (misses_expect "." (by decide))))
    (misses_expect "@" (by decide)) (misses_keyword "using" (by decide)) hready
    (ready_whitespace hw htoken (.miss (misses_keyword "as" (by decide))))
    fun _ => ⟨misses_pathComponent (by decide), fun _ hv => (nomatch hv), fun _ hv => (nomatch hv)⟩

/-- An import ends in front of its mode. -/
theorem leads_mode {E : ImportMode → List Char → Prop} : T.Leads n E T.EndsOperand modeTail := by
  intro x a y h _
  have hready := h.ready
  obtain ⟨_, u, hw, h⟩ := Lands.bind h
  obtain ⟨_, v, hword, -⟩ := Lands.bind h
  obtain ⟨rfl, -⟩ := lands_keyword hword
  have htoken : Token ("as".toList ++ v) := ⟨'a', _, rfl, by decide⟩
  exact endsOperand_token hw htoken (ready_whitespace hw htoken (.miss (misses_expect "." (by decide))))
    (misses_expect "@" (by decide)) (misses_keyword "using" (by decide))
    (ready_whitespace1 hw htoken (misses_integrityHash (by decide))) hready
    fun _ => ⟨misses_pathComponent (by decide), fun _ hv => (nomatch hv), fun _ hv => (nomatch hv)⟩

/-- What a part reads to is where it lands, unless it ends with a fault. -/
theorem Lands.eq_of_read {g : Grammar α} {a b : α} {t : List Char} (h : T.Lands n g x a y)
    (hr : g.read (T.was x) = .value b t) : T.was y = t := by
  have hb := Grammar.read_of_soft h fun he => nomatch he
  rw [hr] at hb
  exact (Reading.value.inj (hb.eq_of_ne fun _ _ he => nomatch he)).2

/-- What a text is that begins with a dot and is an operand: the beginning of a path. -/
def DotPath (u : List Char) : Prop := ∀ t, u = '.' :: t → ∃ d v, t = d :: v ∧ (d = '.' ∨ d = '/')

theorem leads_dotPath_of_first (rule : Rule) {E : rule.Result → List Char → Prop}
    (hf : rule.first '.' = false) : T.Leads n E DotPath (.call rule) := by
  intro x a y h _ t ht
  obtain ⟨c, s, hc, hfirst⟩ := h.first
  obtain ⟨rfl, -⟩ := List.cons.inj (hc.symm.trans ht)
  rw [hf] at hfirst
  cases hfirst

theorem leads_dotPath_localImport {E : ImportKind String → List Char → Prop} :
    T.Leads n E DotPath (call .localImport) := by
  refine Leads.call .localImport ?_
  intro x a y hl _ t ht
  obtain ⟨a, z, hanchor, hl⟩ := Lands.bind hl
  obtain ⟨_, w, hcomponent, -⟩ := Lands.bind hl
  obtain ⟨_, v, hslash, -⟩ := Lands.bind hcomponent
  obtain rfl := lands_expect hslash
  clear hl hslash hcomponent
  obtain ⟨b, z, hb, h⟩ := Lands.bind hanchor
  clear hanchor
  obtain ⟨rfl, rfl⟩ | ⟨rfl, rfl, -⟩ := lands_accept hb
  · obtain rfl := (List.cons.inj ht).2
    exact ⟨'.', z, rfl, .inl rfl⟩
  · obtain ⟨b, z', hb', h'⟩ := Lands.bind h
    clear h hb
    obtain ⟨rfl, rfl⟩ | ⟨rfl, rfl, -⟩ := lands_accept hb'
    · obtain ⟨-, rfl⟩ := Lands.pure h'
      obtain rfl := (List.cons.inj ht).2
      exact ⟨'/', v, rfl, .inr rfl⟩
    · subst ht
      obtain ⟨b, z'', hb'', h''⟩ := Lands.bind h'
      clear h' hb'
      obtain ⟨rfl, hx⟩ | ⟨rfl, rfl, -⟩ := lands_accept hb''
      · cases (List.cons.inj hx).1
      · cases (List.cons.inj (Lands.pure h'').2).1

theorem leads_dotPath_importExpression {E : Expr → List Char → Prop} :
    T.Leads n E DotPath (call .importExpression) := by
  have hword : ∀ {n : Nat} {E : Unit → List Char → Prop},
      T.Leads n E DotPath (keyword "missing") :=
    leads_keyword fun y _ _ t ht => nomatch (List.cons.inj ht).1
  have htype : ∀ {n : Nat} {E : ImportKind String → List Char → Prop},
      T.Leads n E DotPath (call .importType) := by
    refine Leads.call .importType (Leads.choice ?_)
    simp only [List.forall_mem_cons]
    exact ⟨.front hword, leads_dotPath_localImport, leads_dotPath_of_first .httpImport (by decide),
      leads_dotPath_of_first .envImport (by decide), fun _ h => nomatch h⟩
  refine Leads.call .importExpression (Leads.choice ?_)
  simp only [List.forall_mem_cons]
  refine ⟨.front ?_, leads_dotPath_of_first .selectorExpression (by decide), fun _ h => nomatch h⟩
  exact Leads.call .importClause (.front (Leads.call .importHashed (.front htype)))

/-- No selector begins as a path does. -/
theorem misses_selector_path {d : Char} (hd : d = '.' ∨ d = '/') {v : List Char} :
    T.Misses (expect "." >>= fun _ => do
      whitespace
      if ← accept "\x7b" then
        return Selector.labels (← projectionLabels)
      else if ← accept "(" then
        let type ← completeExpression
        expect ")"
        return .type type
      else
        return .label (← call .label)) ('.' :: d :: v) := by
  have htight : ∀ t, Whitespace.Tight (d :: t) := by
    intro t
    obtain rfl | rfl := hd <;> rfl
  have hdot : T.Reads (expect ".") ('.' :: d :: v) () (d :: v) := .plain (by simp) (.refl _) rfl
  have hspace : T.Reads whitespace (d :: v) () (d :: v) := by
    have hwas : whitespace.read (T.was (d :: v)) = .value () (T.was (d :: v)) :=
      readBy_whitespace_tight (htight (T.was v))
    exact .plain (by simp [whitespace]) (hwas ▸ .refl _) (readBy_whitespace_tight (htight (T.now v)))
  have haccept : ∀ {literal : String}, literal.toList.head?.any (· != d) = true →
      T.Reads (accept literal) (d :: v) false (d :: v) := by
    intro literal hl
    have hread : ∀ t, (accept literal).read (d :: t) = .value false (d :: t) := fun t =>
      readBy_accept_of_head literal hl (bne_self_eq_false d)
    exact .plain trivial (hread (T.was v) ▸ .refl _) (hread (T.now v))
  have hlabel : Rule.label.first d = false := by obtain rfl | rfl := hd <;> decide
  apply Same.bind hdot
  apply Same.bind hspace
  apply Same.bind (haccept (by obtain rfl | rfl := hd <;> decide))
  apply Same.bind (haccept (by obtain rfl | rfl := hd <;> decide))
  exact .miss (misses_head Rule.opens_label hlabel)

/-- The characters that whitespace begins with. -/
theorem starts_head {c : Char} {v : List Char} (h : Whitespace.starts (c :: v) = true) :
    " \t\n\r-\x7b".toList.contains c = true := by
  unfold Whitespace.starts Whitespace.chunk at h
  split at h <;> rename_i heq <;> simp_all

theorem now_nil_head {c : Char} {v : List Char} (h : T.now [] = c :: v) :
    " \t\n\r-\x7b".toList.contains c = true := by
  obtain hn | hs := T.blank
  · cases hn.symm.trans h
  · have hs : Whitespace.starts (T.now []) = true := hs
    exact starts_head (h ▸ hs)

/-- The names that something else than a variable may begin with, in front of a colon. -/
def colonWords : List String := ["sha256", "https", "http", "env"]

/-- In front of a colon such a name is a variable, and has a type. -/
theorem colon_edge {word : String} (hw : word ∈ colonWords) {a : Expr}
    (h : T.Lands n (call .selectorExpression) x a y)
    (hy : ∀ v, y = ':' :: v → v ≠ [] ∧ Whitespace.starts (T.now v) = true)
    (hp : word.toList ++ [':'] <+: T.now x) :
    ∃ v, x = word.toList ++ ':' :: v ∧ v ≠ [] ∧ Whitespace.starts (T.now v) = true := by
  have hall : ∀ word ∈ colonWords, Unbroken (word.toList ++ [':']) ∧
      word.toList.all labelContinue = true ∧ word.toList.head?.any labelStart = true ∧
      Vocabulary.isReserved (String.ofList word.toList) = false := by decide
  obtain ⟨hbroken, hcontinue, hstart, hfree⟩ := hall word hw
  obtain ⟨t, ht⟩ := prefix_was hbroken hp
  rw [List.append_assoc] at ht
  obtain ⟨hword, hbehind⟩ := wordOf_append hcontinue (by rfl : ([':'] ++ t).head?.any _ = false)
  rw [ht] at hword hbehind
  have hstart : (T.was x).head?.any labelStart = true := by
    obtain ⟨c, s, hs, hc⟩ := head?_of_any hstart
    rw [← ht, hs]
    exact hc
  have hread := read_selectorExpression_colon hstart (by rw [hword]; exact hfree) hbehind
  have hland := h.eq_of_read hread
  have hx : x = word.toList ++ y := eq_append_of_was (by rw [hland]; exact ht.symm)
  cases y with
  | nil =>
    obtain ⟨s, hs⟩ := hp
    rw [hx, List.append_assoc, now_append, List.append_cancel_left_eq] at hs
    cases now_nil_head hs.symm
  | cons c v =>
    obtain ⟨rfl, -⟩ := List.cons.inj (hland : c :: T.was v = ':' :: t)
    exact ⟨v, hx, hy v rfl⟩

/-- A hash that does not match with the first end is no hash in front of something else. -/
theorem misses_hash {m : Nat} {a : Expr} (ha : T.Lands n (call .importExpression) u a y)
    (hy : ∀ v, y = ':' :: v → v ≠ [] ∧ Whitespace.starts (T.now v) = true)
    (hf : T.Fails m integrityHash u) : T.Misses integrityHash u := by
  refine misses_fails (by simp [integrityHash]) hf ?_
  cases hp : "sha256:".toList.isPrefixOf (T.now u) with
  | false => exact readBy_integrityHash_of_word hp
  | true =>
    have hprefix : "sha256".toList ++ [':'] <+: T.now u := List.isPrefixOf_iff_prefix.mp hp
    have hselector : ∃ k, T.Lands k (call .selectorExpression) u a y := by
      cases n with
      | zero => cases ha
      | succ k =>
        obtain hclause | ⟨-, hselector⟩ := Lands.choice (ha : T.Lands k _ u a y)
        · obtain ⟨i, z, hi, -⟩ := Lands.bind hclause
          obtain ⟨c, s, rfl, hc⟩ := hi.first
          obtain ⟨r, hr⟩ := hprefix
          obtain ⟨rfl, -⟩ := List.cons.inj (hr : 's' :: _ = c :: T.now s)
          cases hc
        · obtain hselector | ⟨-, hnone⟩ := Lands.choice hselector
          · exact ⟨k, hselector⟩
          · cases hnone
    obtain ⟨k, hselector⟩ := hselector
    obtain ⟨v, rfl, -, hs⟩ := colon_edge List.mem_cons_self hselector hy hprefix
    have hnow : T.now ("sha256".toList ++ ':' :: v) = "sha256:".toList ++ T.now v := rfl
    have hannotation : ("sha256:".toList.isPrefixOf ("sha256:".toList ++ T.now v) &&
        Whitespace.starts (("sha256:".toList ++ T.now v).drop 7)) = true := by
      rw [isPrefixOf_append, Bool.true_and]
      exact hs
    simp only [hnow, integrityHash, readBy_bind, readBy_look, Reading.bind_value, hannotation,
      if_true, readBy_fail]

/-- The keywords that begin no operand. -/
def marks : List String :=
  ["if", "then", "else", "let", "in", "as", "using", "merge", "Some", "toMap", "forall"]

theorem marks_spec : ∀ word ∈ marks, word.toList.all labelContinue = true ∧
    word.toList.head?.any labelStart = true ∧ Vocabulary.isKeyword word = true ∧
    word.toList ∉ ["missing".toList, "Infinity".toList, "NaN".toList] := by decide

/-- A word that no text of some kind begins with is missed at such a text. -/
theorem misses_word {word : String} (hm : word ∈ marks) (hin : T.WordIn x) (hx : x ≠ [])
    (hne : x.head?.any labelStart = true → wordOf (T.was x) ≠ word.toList) :
    T.Misses (keyword word) x := by
  obtain ⟨hcontinue, hstart, -, -⟩ := marks_spec word hm
  obtain ⟨c, t, rfl⟩ := List.exists_cons_of_ne_nil hx
  by_cases hs : labelStart c = true
  · exact misses_otherWord hin hs hcontinue (hne hs)
  · obtain ⟨d, s, hd, hds⟩ := head?_of_any hstart
    refine misses_keyword word ?_
    rw [hd]
    refine bne_iff_ne.mpr ?_
    rintro rfl
    exact hs hds

/-- A text that begins with such a keyword. -/
theorem beginsMark_of_word {s : List Char} {word : String} (hm : word ∈ marks)
    (hs : s.head?.any labelStart = true) (hw : wordOf s = word.toList) : BeginsMark s := by
  obtain ⟨-, -, hkeyword, hno⟩ := marks_spec word hm
  exact ⟨⟨hs, by rw [hw, String.ofList_toList]; exact hkeyword⟩, by rw [hw]; exact hno⟩

theorem misses_mark {word : String} (hm : word ∈ marks) {a : Expr}
    (ha : T.Lands n (call .importExpression) x a y) : T.Misses (keyword word) x := by
  obtain ⟨c, t, rfl, -⟩ := ha.first
  refine misses_word hm (leads_word_importExpression (E := fun _ _ => True) _ a y ha trivial)
    (List.cons_ne_nil c t) fun hs hw => ha.ne_mismatch ?_
  exact Rule.refuses_importExpression.read (beginsMark_of_word hm hs hw)

/-- An operand ends in front of a further argument. -/
theorem endsOperand_argument {m : Nat} {a : Expr} (hw : T.Lands n whitespace1 x () u)
    (ha : T.Lands m (call .importExpression) u a y)
    (hy : ∀ v, y = ':' :: v → v ≠ [] ∧ Whitespace.starts (T.now v) = true) :
    T.EndsOperand x := by
  have hone := hw
  obtain ⟨hw, hstarts⟩ := lands_whitespace1 hw
  obtain ⟨c, t, rfl, hc⟩ := ha.first
  have hc : operandStart c = true := hc
  have hne : ∀ d, operandStart d = false → d ≠ c := by
    rintro d hd rfl
    rw [hc] at hd
    cases hd
  have htoken : Token (c :: t) := ⟨c, t, rfl, (hne '\r' (by decide)).symm⟩
  have hword : ∀ word ∈ ["using", "as"], T.Misses (keyword word) (c :: t) := by
    intro word hm
    have hmarks : ∀ word ∈ ["using", "as"], word ∈ marks := by decide
    exact misses_mark (hmarks word hm) ha
  refine endsOperand_token hw htoken ?_ (misses_expect "@" (bne_iff_ne.mpr (hne '@' (by decide))))
    (hword _ List.mem_cons_self) ?_
    (ready_whitespace hw htoken (.miss (hword _ (List.mem_cons_of_mem _ List.mem_cons_self)))) ?_
  · by_cases hdot : c = '.'
    · subst hdot
      obtain ⟨d, v, rfl, hd⟩ := leads_dotPath_importExpression (E := fun _ _ => True) _ a y ha trivial t rfl
      exact ready_whitespace hw htoken (misses_selector_path hd)
    · exact ready_whitespace hw htoken (.miss (misses_expect "." (bne_iff_ne.mpr (Ne.symm hdot))))
  · intro k hf
    exact .bind (carries_whitespace1 (E := fun _ => Token) (fun _ h => h) _ () _ hone htoken)
      (misses_hash ha hy (hf.bind hone))
  · rintro rfl
    obtain ⟨-, hs⟩ | ⟨⟨-, hlt⟩, -⟩ := whitespace_head hw htoken
    · rw [hstarts] at hs
      cases hs
    · exact absurd hlt (Nat.lt_irrefl _)

end Seam

end DhallSyntax
