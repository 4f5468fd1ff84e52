import DhallSyntax.Proofs.Reading.Spelling
import DhallSyntax.Proofs.Seam.Texts

/-!
Paths, URLs and environment variables in front of a seam. Main statements:

* `Seam.carries_host`: a host is the same with either end;
* `Seam.carries_httpImport`, `Seam.carries_localImport`, `Seam.carries_envImport`: addresses carry
  over where nothing goes on with them.
-/

namespace DhallSyntax

open CharClass Grammar

variable {α β : Type}

namespace Seam

variable {T : Seam} {n : Nat} {x y z : List Char}

/-! ## First characters -/

/-- A text that begins with a character of a class. -/
def Begins (chars : CharClass) (x : List Char) : Prop := ∃ c t, x = c :: t ∧ chars c = true

/-- A part carries over, and begins with characters of a class where it lands. -/
structure Headed (T : Seam) (n : Nat) (E : α → List Char → Prop) (chars : CharClass)
    (g : Grammar α) : Prop where
  carries : T.Carries n E g
  begins : T.Leads n E (Begins chars) g

theorem Headed.call (rule : Rule) {E : rule.Result → List Char → Prop}
    (h : T.Carries n E (call rule)) : T.Headed n E rule.first (call rule) :=
  ⟨h, fun _ _ _ hl _ => hl.first⟩

theorem Headed.bind {chars : CharClass} {first : Grammar β} {next : β → Grammar α}
    {E : α → List Char → Prop} (h : T.Headed n (fun _ _ => True) chars first)
    (hn : ∀ b, T.Carries n E (next b)) : T.Headed n E chars (first >>= next) :=
  ⟨.andThen h.carries hn, .front h.begins⟩

theorem headed_expect {literal : String} (hl : Unbroken literal.toList) {chars : CharClass}
    (h : literal.toList.head?.any chars = true) {E : Unit → List Char → Prop} :
    T.Headed n E chars (expect literal) := by
  refine ⟨carries_expect hl, leads_expect fun y _ => ?_⟩
  obtain ⟨c, t, ht, hc⟩ := head?_of_any h
  exact ⟨c, t ++ y, by rw [ht]; rfl, hc⟩

theorem headed_keyword {word : String} {chars : CharClass}
    (h : word.toList.head?.any chars = true) {E : Unit → List Char → Prop} :
    T.Headed n E chars (keyword word) := by
  refine ⟨carries_keyword word, leads_keyword fun y _ _ => ?_⟩
  obtain ⟨c, t, ht, hc⟩ := head?_of_any h
  exact ⟨c, t ++ y, by rw [ht]; rfl, hc⟩

/-- The last of some alternatives. -/
theorem Headed.last {chars : CharClass} {g : Grammar α} {E : α → List Char → Prop}
    (h : T.Headed n E chars g) : T.Headed n E chars (choice [g]) where
  carries := .orElse h.carries (fun _ _ _ h => nomatch h) fun _ _ _ _ h => nomatch h
  begins := .orElse h.begins fun _ _ _ h => nomatch h

/-- Two alternatives that begin with different characters. -/
theorem Headed.orElse {chars later : CharClass} {levels : Nat} {first second : Grammar α}
    {E : α → List Char → Prop} (ho : Grammar.OpensWith chars levels first)
    (h : T.Headed n E chars first) (hd : ∀ c, later c = true → chars c = false)
    (hs : T.Headed n E later second) :
    T.Headed n E (fun c => chars c || later c) (.orElse first second) where
  carries := by
    refine .orElse h.carries hs.carries fun x a y _ ha he => ?_
    obtain ⟨c, t, rfl, hc⟩ := hs.begins x a y ha he
    exact misses_head ho (hd c hc)
  begins := by
    refine .orElse (h.begins.mono (fun _ _ he => he) ?_) (hs.begins.mono (fun _ _ he => he) ?_)
    · rintro _ ⟨c, t, rfl, hc⟩
      exact ⟨c, t, rfl, Bool.or_eq_true_iff.mpr (.inl hc)⟩
    · rintro _ ⟨c, t, rfl, hc⟩
      exact ⟨c, t, rfl, Bool.or_eq_true_iff.mpr (.inr hc)⟩

/-! ## Paths -/

theorem carries_pathComponent {E : String → List Char → Prop} :
    T.Carries n E pathComponent := by
  apply Carries.andThen (carries_expect (by decide))
  intro _
  refine .andThen (carries_accept (by decide)) fun _ => .ite (fun _ => ?_) fun _ => ?_
  · apply Carries.bind (F := fun _ z => z ≠ []) (carries_takeWhile1 (.inr fun _ _ h => h) _)
    · intro _
      exact .front (leads_expect fun y _ => List.cons_ne_nil _ _)
    · exact fun _ => .andThen (carries_expect (by decide)) fun _ => .pure _
  · exact .andThen (carries_takeWhile1 (.inl ⟨by decide, by decide⟩) _) fun _ => .pure _

theorem pathComponent_shrinks {K : String → Prop} : T.Shrinks n K pathComponent :=
  .of_ends (ends_pathComponent (Rule.softUpTo_leaves n))

theorem carries_anchor {E : Anchor → List Char → Prop} : T.Carries n E anchor := by
  refine .andThen (carries_accept (by decide)) fun _ => .ite (fun _ => .pure _) fun _ => ?_
  refine .andThen (carries_accept (by decide)) fun _ => .ite (fun _ => .pure _) fun _ => ?_
  exact .andThen (carries_accept (by decide)) fun _ => .ite (fun _ => .pure _) fun _ => .pure _

/-- A path carries over where no component follows. -/
theorem carries_localImport {E : ImportKind String → List Char → Prop}
    (hE : ∀ a y, E a y → T.Ready pathComponent y) : T.Carries n E localImport := by
  refine .andThen carries_anchor fun _ => .andThen carries_pathComponent fun _ => ?_
  refine Carries.bind (F := fun _ y => T.Ready pathComponent y) ?_
    (fun _ => .pure fun x h => hE _ x h) fun _ => .pure _
  exact Carries.many (P := fun _ => True) (carries_pathComponent.mono fun _ _ _ => trivial)
    (.any _) (fun x a z h => pathComponent_shrinks (K := fun _ => True) x a z h trivial)
    fun _ x h => ⟨trivial, h⟩

/-! ## Parts of a certain length -/

theorem lands_takeLength {length : List Char → Nat} {text : String} (hle : ∀ s, length s ≤ s.length)
    (h : T.Lands n (takeLength length) x text y) :
    ∃ w, x = w ++ y ∧ text = String.ofList w ∧ length (T.was x) = w.length := by
  obtain ⟨taken, z, htaken, h⟩ := Lands.bind h
  obtain ⟨_, u, hadvance, h⟩ := Lands.bind h
  obtain ⟨rfl, rfl⟩ := Lands.pure h
  obtain ⟨rfl, rfl⟩ := lands_look htaken
  have hlength := List.length_take_of_le (hle (T.was z))
  obtain ⟨w, hw, rfl⟩ := lands_advance hadvance (by rw [hlength]; exact hle _)
  have htake : (T.was (w ++ y)).take (length (T.was (w ++ y))) = w := by
    rw [hlength] at hw
    rw [← hw, was_append, List.take_left]
  exact ⟨w, rfl, by rw [htake], by rw [hw, hlength]⟩

theorem reads_takeLength {length : List Char → Nat} {w : List Char}
    (hwas : length (T.was (w ++ y)) = w.length) (hnow : length (T.now (w ++ y)) = w.length) :
    T.Reads (takeLength length) (w ++ y) (String.ofList w) y := by
  have hlook : T.Reads (look fun s => s.take (length s)) (w ++ y) w (w ++ y) :=
    reads_look (by rw [hwas, was_append, List.take_left]) (by rw [hnow, now_append, List.take_left])
  exact .bind hlook (.bind (reads_advance w) (.plain trivial (.refl _) rfl))

theorem carries_takeLength {length : List Char → Nat} (hle : ∀ s, length s ≤ s.length)
    (hnow : ∀ w y, length (T.was (w ++ y)) = w.length → length (T.now (w ++ y)) = w.length)
    {E : String → List Char → Prop} : T.Carries n E (takeLength length) := by
  intro x text y h _
  obtain ⟨w, rfl, rfl, hw⟩ := lands_takeLength hle h
  exact reads_takeLength hw (hnow w y hw)

/-- Characters of a class, and the percent escapes, are unbroken. -/
theorem unbroken_piece {chars : CharClass} (hc : chars.Unbroken) {piece : List Char}
    (h : ∀ c ∈ piece, chars c = true ∨ c = '%' ∨ hexDigit c = true) : Unbroken piece := by
  have hclass : CharClass.Unbroken fun c => chars c || c == '%' || hexDigit c := by
    simp [CharClass.Unbroken, hc.1, hc.2, hexDigit_unbroken.1, hexDigit_unbroken.2]
  exact Unbroken.of_class hclass fun c hm => by simpa [or_assoc] using h c hm

theorem runLength_now {chars : CharClass} (hc : chars.Unbroken) (hpercent : chars '%' = false)
    (w y : List Char) (h : Host.runLength chars (T.was (w ++ y)) = w.length) :
    Host.runLength chars (T.now (w ++ y)) = w.length := by
  rw [was_append] at h
  obtain ⟨hw, hstop⟩ := Host.runLength_split h
  rw [now_append]
  refine Host.runLength_append_of_stop hpercent hw ?_
  cases hnow : Host.runLength chars (T.now y) with
  | zero => rfl
  | succ k =>
    obtain ⟨piece, rest, hpiece, hgoes, hall⟩ :=
      Host.runLength_piece hpercent (by rw [hnow]; exact Nat.succ_ne_zero k)
    obtain ⟨t, ht⟩ := prefix_was (unbroken_piece hc hall) ⟨rest, hpiece.symm⟩
    exact absurd (ht ▸ hstop) (hgoes t)

theorem carries_run {chars : CharClass} (hc : chars.Unbroken) (hpercent : chars '%' = false)
    {E : String → List Char → Prop} : T.Carries n E (takeLength (Host.runLength chars)) :=
  carries_takeLength (Host.runLength_le chars) (runLength_now hc hpercent)

theorem carries_port {E : String → List Char → Prop} :
    T.Carries n E (takeLength fun s => (s.takeWhile digit).length) := by
  refine carries_takeLength (fun s => (List.takeWhile_prefix _).length_le) fun w y h => ?_
  rw [was_append] at h
  obtain ⟨hall, hstop⟩ := takeWhile_length h
  rw [now_append, (takeWhile_append_stop hall (head_was digit_unbroken hstop)).1]

theorem carries_marked {mark : String} (hm : Unbroken mark.toList) {length : List Char → Nat}
    (hlength : ∀ {E : String → List Char → Prop}, T.Carries n E (takeLength length))
    {E : Option String → List Char → Prop} : T.Carries n E (marked mark length) :=
  .andThen (carries_accept hm) fun _ => .ite (fun _ => .andThen hlength fun _ => .pure _)
    fun _ => .pure _

/-! ## Hosts -/

theorem put_hostChar (T : Seam) : T.put.head?.any Host.hostChar = false := by
  obtain h | ⟨c, r, h, rfl | rfl⟩ := T.put_cases <;> rw [h] <;> rfl

/-- A host in front of the seam is the same with either end. -/
theorem host_now {k : Nat} (h : Host.length? (T.was x) = some k) (hk : k ≤ x.length) :
    Host.length? (T.now x) = some k := by
  rw [was, ← List.append_assoc] at h
  have hcut := Host.length?_cut h (by rw [List.length_append]; omega)
  rw [now, ← List.append_assoc]
  exact Host.length?_append hcut T.put_hostChar

/-- What lands as a host is as long as the host of the text ahead. -/
theorem lands_host {a : String} (h : T.Lands n host x a y) :
    ∃ w, x = w ++ y ∧ a = String.ofList w ∧ Host.length? (T.was x) = some w.length := by
  obtain ⟨length?, z, hlength, h⟩ := Lands.bind h
  obtain ⟨hl, rfl⟩ := lands_look hlength
  cases length? with
  | none => cases h
  | some k =>
    have hk := Host.length?_le hl.symm
    obtain ⟨taken, z', htaken, h⟩ := Lands.bind h
    obtain ⟨_, u, hadvance, h⟩ := Lands.bind h
    obtain ⟨rfl, rfl⟩ := Lands.pure h
    obtain ⟨rfl, rfl⟩ := lands_look htaken
    have htake := List.length_take_of_le hk
    obtain ⟨w, hw, rfl⟩ := lands_advance hadvance (by rw [htake]; exact hk)
    rw [htake] at hw
    subst hw
    exact ⟨w, rfl, by rw [was_append, List.take_left], hl.symm⟩

theorem carries_host {E : String → List Char → Prop} : T.Carries n E host := by
  intro x a y h _
  obtain ⟨w, rfl, rfl, hl⟩ := lands_host h
  have hnow := host_now hl (by rw [List.length_append]; omega)
  exact .bind (reads_look hl hnow) (reads_takeLength rfl rfl)

/-! ## User information -/

/-- The part of a URL in front of the at sign. -/
abbrev userinfoPart : Grammar String := do
  let text ← takeLength (Host.runLength Host.userinfoChar)
  if ← accept "@" then return text else mismatch

theorem userinfoChar_unbroken : Host.userinfoChar.Unbroken := ⟨by decide, by decide⟩

/-- User information is read exactly where an at sign stands behind a run of its characters. -/
theorem readBy_userinfoPart_eq_mismatch {rules : RuleReader} {s : List Char} :
    userinfoPart.readBy rules s = .mismatch ↔
      ∀ w, w ++ "@".toList <+: s → Host.runLength Host.userinfoChar w ≠ w.length := by
  obtain ⟨w, t, rfl, hw⟩ : ∃ w t, s = w ++ t ∧
      Host.runLength Host.userinfoChar (w ++ t) = w.length := by
    refine ⟨_, _, (List.take_append_drop (Host.runLength Host.userinfoChar s) s).symm, ?_⟩
    rw [List.take_append_drop, List.length_take_of_le (Host.runLength_le _ _)]
  have hpart : userinfoPart.readBy rules (w ++ t) =
      if "@".toList.isPrefixOf t then .value (String.ofList w) (t.drop 1) else .mismatch := by
    simp only [userinfoPart, readBy_bind, readBy_takeLength hw, readBy_accept, Reading.bind_value]
    split <;> rfl
  rw [hpart]
  constructor
  · rintro hmiss w' ⟨r, hr⟩ hfull
    have hrun : Host.runLength Host.userinfoChar (w' ++ ("@".toList ++ r)) = w'.length :=
      Host.runLength_append_of_stop (by decide) hfull rfl
    rw [← List.append_assoc, hr, hw] at hrun
    rw [List.append_assoc] at hr
    obtain ⟨-, rfl⟩ := List.append_inj hr hrun.symm
    cases hmiss
  · intro hnone
    obtain ⟨hfull, -⟩ := Host.runLength_split hw
    refine if_neg fun hat => ?_
    obtain ⟨r, rfl⟩ := List.isPrefixOf_iff_prefix.mp hat
    exact hnone w ⟨r, List.append_assoc w _ r⟩ hfull

theorem userinfoPart_free {P : Deed → Prop} : userinfoPart.DoesOnly P := by simp [takeLength]

/-- With the second end there is no at sign that there was not with the first. -/
theorem ready_userinfoPart : T.Ready userinfoPart x := by
  intro n hf
  refine misses_fails userinfoPart_free hf ?_
  have hwas := (fails_iff userinfoPart_free userinfoPart_free).mp hf
  rw [readBy_userinfoPart_eq_mismatch] at hwas ⊢
  intro w hp hfull
  refine hwas w (prefix_was (Unbroken.append ?_ (by decide)) hp) hfull
  exact unbroken_piece userinfoChar_unbroken fun c hc =>
    Host.mem_take_runLength (by rwa [hfull, List.take_length])

theorem carries_userinfo {E : Option String → List Char → Prop} : T.Carries n E userinfo := by
  refine Carries.optional? ?_ fun _ _ => ready_userinfoPart
  refine .andThen (carries_run userinfoChar_unbroken (by decide)) fun _ => ?_
  refine .andThen (carries_accept (by decide)) fun _ => .ite (fun _ => .pure _) fun _ => ?_
  exact fun _ _ _ h => nomatch h

/-! ## Paths of URLs -/

/-- A text that does not begin with a quote. -/
def NoQuote (x : List Char) : Prop := ∀ v, x ≠ '"' :: v

theorem noQuote_cons {c : Char} (hc : c ≠ '"') : NoQuote (c :: x) :=
  fun _ h => hc (List.cons.inj h).1

theorem head?_eq_any (s : List Char) (c : Char) : (s.head? == some c) = s.head?.any (· == c) := by
  cases s <;> rfl

theorem lands_urlComponent {a : String} (hl : T.Lands n urlComponent x a y) :
    ∃ t, x = '/' :: t ∧ T.Lands n (orElse pathComponent pathSegment) x a y := by
  obtain ⟨b, z, hb, h⟩ := Lands.bind hl
  clear hl
  obtain ⟨hslash, rfl⟩ := lands_look hb
  split at h
  · rename_i hb
    subst hb
    cases z with
    | cons c t =>
      have hc : c = '/' := by
        have hc : (some c == some '/') = true := hslash.symm
        simpa using hc
      exact ⟨t, by rw [hc], h⟩
    | nil =>
      -- The first end is no part of the text in front of the seam.
      obtain h' | ⟨-, h'⟩ := h.orElse
      · exact absurd (pathComponent_shrinks (K := fun _ => True) _ _ _ h' trivial)
          (Nat.not_lt_zero _)
      · obtain ⟨_, u, hadvance, -⟩ := Lands.bind h'
        have hlength : 1 ≤ (T.was []).length := by
          cases hw : T.was [] with
          | nil => rw [hw] at hslash; cases hslash
          | cons c t => exact Nat.succ_pos _
        obtain ⟨w, hw, hnil⟩ := lands_advance hadvance hlength
        rw [(List.append_eq_nil_iff.mp hnil.symm).1] at hw
        cases hw
  · cases h

/-- Behind a slash without a quote, a component is read exactly where one of its characters is. -/
theorem readBy_pathComponent_eq_mismatch {rules : RuleReader} {t : List Char}
    (ht : t.head?.any (· == '"') = false) :
    pathComponent.readBy rules ('/' :: t) = .mismatch ↔ t.head?.any path = false := by
  have hslash : (expect "/").readBy rules ('/' :: t) = .value () t := rfl
  have hquote : (accept "\"").readBy rules t = .value false t :=
    readBy_accept_of_head "\"" rfl ht
  simp only [Grammar.pathComponent, readBy_bind, hslash, hquote, Reading.bind_value,
    Bool.false_eq_true, if_false, readBy_takeWhile1]
  cases t with
  | nil => simp
  | cons c t =>
    by_cases hc : path c = true
    · simp [List.takeWhile_cons_of_pos hc, hc]
    · simp [List.takeWhile_cons_of_neg hc, Bool.eq_false_iff.mpr hc]

/-- A segment that is no component has no quote behind its slash, with either end. -/
theorem misses_segmentComponent {t : List Char} (ht : NoQuote t)
    (h : T.Fails n pathComponent ('/' :: t)) : T.Misses pathComponent ('/' :: t) := by
  have hwas : (T.was t).head?.any path = false :=
    head_of_no_component ((fails_iff doesOnly_pathComponent doesOnly_pathComponent).mp h)
  have hquote : (T.now t).head?.any (· == '"') = false := by
    cases t with
    | cons c t => exact beq_false_of_ne fun hc => ht t (by rw [hc])
    | nil =>
      cases hnow : T.now [] with
      | nil => rfl
      | cons c v =>
        refine beq_false_of_ne ?_
        rintro rfl
        exact absurd (now_nil_head hnow) (by decide)
  refine misses_fails doesOnly_pathComponent h ?_
  exact (readBy_pathComponent_eq_mismatch hquote).mpr (head_was ⟨by decide, by decide⟩ hwas)

theorem segmentChar_unbroken : Host.segmentChar.Unbroken := ⟨by decide, by decide⟩

/-- Behind its slash a segment is a run of characters. -/
theorem lands_pathSegment {t : List Char} {a : String}
    (h : T.Lands n pathSegment ('/' :: t) a y) :
    T.Lands n (takeLength (Host.runLength Host.segmentChar)) t a y := by
  obtain ⟨_, z, hadvance, h⟩ := Lands.bind h
  obtain ⟨w, hw, hx⟩ := lands_advance hadvance (Nat.succ_le_succ (Nat.zero_le _))
  obtain ⟨c, rfl⟩ := List.length_eq_one_iff.mp hw
  obtain ⟨-, rfl⟩ := List.cons.inj hx
  exact h

/-- A quote behind the slash would be where the segment ends. -/
theorem noQuote_of_segment {t : List Char} {a : String}
    (h : T.Lands n pathSegment ('/' :: t) a y) (hy : NoQuote y) : NoQuote t := by
  rintro v rfl
  obtain ⟨w, hv, -, hlength⟩ := lands_takeLength (Host.runLength_le _) (lands_pathSegment h)
  have hzero : Host.runLength Host.segmentChar ('"' :: T.was v) = 0 := by
    rw [Host.runLength_cons (by decide), if_neg (by decide)]
  obtain rfl := List.eq_nil_of_length_eq_zero (hlength.symm.trans hzero)
  exact hy v hv.symm

theorem carries_pathSegment {t : List Char} {a : String}
    (h : T.Lands n pathSegment ('/' :: t) a y) : T.Reads pathSegment ('/' :: t) a y :=
  .bind (reads_advance ['/']) (carries_run (E := fun _ _ => True) segmentChar_unbroken (by decide)
    t a y (lands_pathSegment h) trivial)

theorem carries_urlComponent : T.Carries n (fun _ => NoQuote) urlComponent := by
  intro x a y hl hy
  obtain ⟨t, rfl, h⟩ := lands_urlComponent hl
  clear hl
  have hlook : T.Reads (look fun s => s.head? == some '/') ('/' :: t) true ('/' :: t) :=
    reads_look rfl rfl
  apply Same.bind hlook
  rw [if_pos rfl]
  obtain h | ⟨hf, h⟩ := h.orElse
  · exact .left (carries_pathComponent (E := fun _ _ => True) _ a y h trivial)
  · exact .right (misses_segmentComponent (noQuote_of_segment h hy) hf) (carries_pathSegment h)

theorem leads_urlComponent {E : String → List Char → Prop} : T.Leads n E NoQuote urlComponent := by
  intro x a y h _
  obtain ⟨t, rfl, -⟩ := lands_urlComponent h
  exact noQuote_cons (by decide)

theorem urlComponent_shrinks {K : String → Prop} : T.Shrinks n K urlComponent := by
  intro x a y h _
  obtain ⟨t, rfl, h⟩ := lands_urlComponent h
  obtain h | ⟨-, h⟩ := h.orElse
  · exact pathComponent_shrinks (K := fun _ => True) _ _ _ h trivial
  · exact Nat.lt_succ_of_le (lands_pathSegment h).length_le

theorem ready_urlComponent : T.Ready urlComponent x := by
  intro n hf
  cases hslash : (T.was x).head? == some '/' with
  | true =>
    -- A segment may be empty, so that it is read behind every slash.
    have hlook : T.Lands n (look fun s => s.head? == some '/') x true x :=
      congrArg (Reading.value · (T.was x)) hslash
    have hor := Fails.bind hf hlook
    rw [if_pos rfl] at hor
    obtain ⟨-, hsegment⟩ := Reading.orElse_eq_mismatch.mp hor
    obtain hadvance | ⟨_, u, -, hrun⟩ := Reading.bind_eq_mismatch.mp hsegment
    · cases hadvance
    · cases hrun
  | false =>
    have hhead : (T.was x).head?.any (· == '/') = false := (head?_eq_any _ _).symm.trans hslash
    have hnow := (head?_eq_any _ '/').trans (head_was ⟨by decide, by decide⟩ hhead)
    exact .bind (reads_look hslash hnow) (misses_plain trivial rfl rfl)

theorem carries_urlPath : T.Carries n (fun _ => NoQuote) urlPath :=
  Carries.many (P := NoQuote) carries_urlComponent leads_urlComponent
    (fun x a z h => urlComponent_shrinks (K := fun _ => True) x a z h trivial)
    fun _ _ h => ⟨h, ready_urlComponent⟩

/-! ## URLs -/

theorem carries_scheme {E : Scheme → List Char → Prop} : T.Carries n E scheme :=
  .andThen (carries_accept (by decide)) fun _ => .ite (fun _ => .pure _) fun _ =>
    .andThen (carries_expect (by decide)) fun _ => .pure _

section Hashed

variable (hhashed : T.Carries n (fun _ => T.EndsOperand) (call .importHashed))

include hhashed

theorem carries_usingClause : T.Carries n (fun _ => T.EndsOperand) usingClause := by
  apply Carries.spaced (.front (leads_token_keyword (by decide)))
  apply Carries.andThen (carries_keyword _)
  intro _
  have hfirst : ∀ {E : Import String → List Char → Prop},
      T.Leads n E Token (call .importHashed) := leads_token_call .importHashed (by decide)
  refine Carries.spaced1 (leads_token_accept (by decide) hfirst) ?_
  refine .andThen (carries_accept (by decide)) fun _ => .ite (fun _ => ?_) fun _ => hhashed
  refine Carries.spaced (.front hfirst) ?_
  refine Carries.bind (F := fun _ => T.EndsExpression)
    (hhashed.mono fun _ _ h => h.toEndsOperand) (fun _ => ?_) fun _ => ?_
  · exact leads_ends (.front (leads_stops_expect (by decide)))
  · exact Carries.spaced (.front (leads_token_expect (by decide)))
      (.andThen (carries_expect (by decide)) fun _ => .pure _)

theorem carries_httpImport : T.Carries n (fun _ => T.EndsOperand) httpImport := by
  apply Carries.andThen carries_scheme
  intro scheme
  apply Carries.andThen (carries_expect (by decide))
  intro _
  apply Carries.andThen carries_userinfo
  intro userinfo
  apply Carries.andThen carries_host
  intro host
  apply Carries.andThen (carries_marked (by decide) carries_port)
  intro port
  -- Neither a query nor headers begin with a quote.
  have hheaders : T.Leads n (fun _ => T.EndsOperand) NoQuote (optional? usingClause) := by
    refine Leads.optional? ?_ fun x h v => h.quote v
    intro x a y h _
    obtain ⟨_, u, hspace, h⟩ := Lands.bind h
    obtain ⟨_, v, hword, -⟩ := Lands.bind h
    obtain ⟨rfl, -⟩ := lands_keyword hword
    obtain ⟨rfl, -⟩ | ⟨-, c, t, rfl, hc⟩ := whitespace_head hspace (token_append (by decide) v)
    · exact noQuote_cons (by decide)
    · refine noQuote_cons ?_
      rintro rfl
      exact absurd hc (by decide)
  apply Carries.bind carries_urlPath
  · intro path
    refine Leads.bind (F := fun _ => NoQuote) ?_ fun _ => Leads.bind hheaders fun headers => ?_
    · intro x a y hl hy
      obtain ⟨b, z, hb, h⟩ := Lands.bind hl
      clear hl
      obtain ⟨rfl, rfl⟩ | ⟨rfl, rfl, -⟩ := lands_accept hb
      · exact noQuote_cons (by decide)
      · obtain ⟨-, rfl⟩ := Lands.pure h
        exact hy
    · cases headers with
      | none => exact .pure fun _ h => h
      | some headers => exact .pure fun _ h => h
  intro path
  have hquery : T.Carries n (fun _ _ => True) (marked "?" (Host.runLength Host.queryChar)) :=
    carries_marked (by decide) (carries_run ⟨by decide, by decide⟩ (by decide))
  apply Carries.andThen hquery
  intro query
  refine Carries.bind (F := fun _ => T.EndsOperand)
    (Carries.optional? (carries_usingClause hhashed) fun x h => h.headers)
    (fun headers => ?_) fun headers => ?_
  · cases headers with
    | none => exact .pure fun _ h => h
    | some headers => exact .pure fun _ h => h
  · cases headers with
    | none => exact .pure _
    | some headers => exact .pure _

end Hashed

/-! ## Environment variables -/

/-- An unquoted name is read at a character that it may begin with. -/
theorem lands_bashName {a : String} (hl : T.Lands n bashName x a y) :
    ∃ c t, x = c :: t ∧ (alpha c || c == '_') = true ∧
      T.Lands n (do return String.ofList (← takeWhile fun c => alphanumeric c || c == '_'))
        x a y := by
  obtain ⟨c, z, hc, h⟩ := Lands.bind hl
  obtain ⟨hc, rfl⟩ := lands_look hc
  clear hl
  cases c with
  | none => cases h
  | some c =>
    dsimp only at h
    split at h
    · rename_i halpha
      cases z with
      | cons d t =>
        obtain rfl : c = d := Option.some.inj hc
        exact ⟨c, t, rfl, halpha, h⟩
      | nil =>
        -- A name that begins behind the seam would not end at it.
        obtain ⟨run, u, hrun, h⟩ := Lands.bind h
        obtain ⟨hnil, -, hstop⟩ := lands_takeWhile hrun
        obtain ⟨-, rfl⟩ := List.append_eq_nil_iff.mp hnil.symm
        rw [← hc, Option.any_some] at hstop
        simp only [Bool.or_eq_true, alphanumeric, Bool.or_eq_false_iff] at halpha hstop
        obtain ha | hu := halpha
        · rw [hstop.1.1] at ha
          cases ha
        · rw [hstop.2] at hu
          cases hu
    · cases h

theorem carries_bashName {E : String → List Char → Prop} : T.Carries n E bashName := by
  intro x a y hl he
  obtain ⟨c, t, rfl, halpha, h⟩ := lands_bashName hl
  apply Same.bind (reads_look rfl rfl)
  change T.Same (.term (if (alpha c || c == '_') = true then _ else _)) (c :: t) _
  rw [if_pos halpha]
  exact Carries.andThen (carries_takeWhile (.inl ⟨by decide, by decide⟩)) (fun _ => .pure _)
    _ a y h he

theorem quotedNameStep_shrinks (name : List Char) {K : List Char ⊕ String → Prop} :
    T.Shrinks n K (quotedNameStep name) := by
  intro x a y hl hk
  obtain ⟨b, z, hb, h⟩ := Lands.bind hl
  obtain ⟨rfl, rfl⟩ := lands_look hb
  clear hl hb
  split at h
  · rename_i hclose
    obtain ⟨_, v, hv, hn⟩ := Lands.bind h
    simp only [Bool.and_eq_true, beq_iff_eq] at hclose
    obtain rfl := lands_advance_one hclose.1 hv
    exact Nat.lt_succ_of_le hn.length_le
  · exact Shrinks.accept (by decide) (.takeIf (.fail _)) z a y h hk

/-- The character an escape of a quoted name stands for. -/
abbrev quotedNameEscape (name : List Char) : Grammar (List Char ⊕ String) := do
  match (← peek).bind fun c => EscapeTable.environment.lookup c with
  | some meaning =>
    advance 1
    return .inl (meaning :: name)
  | none => fail "an escape sequence"

theorem lands_quotedNameEscape {name : List Char} {a : List Char ⊕ String}
    (hl : T.Lands n (quotedNameEscape name) x a y) :
    ∃ c meaning, EscapeTable.environment.lookup c = some meaning ∧ x = c :: y ∧
      a = .inl (meaning :: name) := by
  obtain ⟨c, z, hc, h⟩ := Lands.bind hl
  obtain ⟨rfl, rfl⟩ := lands_look hc
  clear hl hc
  cases hhead : (T.was z).head? with
  | none =>
    rw [hhead] at h
    cases h
  | some c =>
    rw [hhead, Option.bind_some] at h
    cases hm : EscapeTable.environment.lookup c with
    | none =>
      rw [hm] at h
      cases h
    | some meaning =>
      rw [hm] at h
      obtain ⟨_, v, hv, hn⟩ := Lands.bind h
      obtain rfl := lands_advance_one hhead hv
      obtain ⟨rfl, rfl⟩ := Lands.pure hn
      exact ⟨c, meaning, hm, rfl, rfl⟩

theorem carries_quotedNameEscape (name : List Char) {E : List Char ⊕ String → List Char → Prop} :
    T.Carries n E (quotedNameEscape name) := by
  intro x a y hl _
  obtain ⟨c, meaning, hm, rfl, rfl⟩ := lands_quotedNameEscape hl
  apply Same.bind (reads_look rfl rfl)
  have hfound : ((T.was (c :: y)).head?.bind fun c => EscapeTable.environment.lookup c) =
      some meaning := hm
  rw [hfound]
  exact .bind (reads_advance [c]) (.plain trivial (.refl _) rfl)

theorem carries_quotedNameStep (name : List Char) {E : List Char ⊕ String → List Char → Prop} :
    T.Carries n E (quotedNameStep name) := by
  intro x a y hl he
  have hne := Shrinks.leads (E := fun _ _ => True) (quotedNameStep_shrinks name) x a y hl trivial
  obtain ⟨b, z, hb, h⟩ := Lands.bind hl
  obtain ⟨rfl, rfl⟩ := lands_look hb
  clear hl hb
  apply Same.bind (reads_look rfl (by rw [now_head hne, was_head hne]))
  split at h
  · rename_i hclose
    rw [if_pos hclose]
    obtain ⟨_, v, hv, h⟩ := Lands.bind h
    simp only [Bool.and_eq_true, beq_iff_eq] at hclose
    obtain rfl := lands_advance_one hclose.1 hv
    obtain ⟨rfl, rfl⟩ := Lands.pure h
    exact .bind (reads_advance ['"']) (.plain trivial (.refl _) rfl)
  · rename_i hclose
    rw [if_neg hclose]
    refine Carries.andThen (carries_accept (by decide)) (fun _ => ?_) z a y h he
    refine .ite (fun _ => carries_quotedNameEscape name) fun _ => ?_
    exact carries_takeIf_some (fun _ _ _ h => by cases h) fun _ => .pure _

theorem carries_envImport {E : ImportKind String → List Char → Prop} :
    T.Carries n E envImport := by
  refine .andThen (carries_expect (by decide)) fun _ => ?_
  refine .andThen (carries_accept (by decide)) fun _ => .ite (fun _ => .andThen ?_ fun _ => .pure _)
    fun _ => .andThen carries_bashName fun _ => .pure _
  refine Carries.iterate (fun _ _ => True) (fun name => carries_quotedNameStep name)
    (fun _ => .any _) ?_
  exact fun name x next z h => quotedNameStep_shrinks (K := fun _ => True) name x _ z h trivial

end Seam

end DhallSyntax
