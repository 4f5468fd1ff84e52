import DhallSyntax.Grammar.Host
import DhallSyntax.Proofs.Text.CharClass

/-!
Patterns of URLs look no further than their own end. A host that a pattern takes is taken just so
when something follows that can belong to no host (`length?_append`), and a run of characters ends
where one stands that it cannot hold (`runLength_append`).
-/

namespace DhallSyntax.Host

open CharClass

/-! ## Runs of characters -/

/-- What a run of characters and percent escapes is made of. -/
theorem mem_take_runLength {chars : CharClass} {s : List Char} {c : Char}
    (h : c ∈ s.take (runLength chars s)) : chars c = true ∨ c = '%' ∨ hexDigit c = true := by
  fun_induction runLength chars s with
  | case1 a b rest hab ih =>
    simp only [Bool.and_eq_true] at hab
    simp only [List.take_succ_cons, List.mem_cons] at h
    obtain rfl | rfl | rfl | h := h
    · exact .inr (.inl rfl)
    · exact .inr (.inr hab.1)
    · exact .inr (.inr hab.2)
    · exact ih h
  | case2 => cases h
  | case3 d rest _ hd ih =>
    obtain rfl | h := List.mem_cons.mp h
    · exact .inl hd
    · exact ih h
  | case4 => cases h
  | case5 => cases h

theorem runLength_cons {chars : CharClass} {c : Char} (hc : c ≠ '%') (s : List Char) :
    runLength chars (c :: s) = if chars c then runLength chars s + 1 else 0 := by
  rw [runLength]
  intro a b rest h
  exact fun _ => hc h

theorem runLength_le (chars : CharClass) (s : List Char) : runLength chars s ≤ s.length := by
  fun_induction runLength chars s with
  | case1 a b rest _ ih =>
    simp only [List.length_cons]
    omega
  | case3 c rest _ _ ih =>
    rw [List.length_cons]
    omega
  | _ => exact Nat.zero_le _

/-- A run that fills a text goes no further in front of something that no run begins with. -/
theorem runLength_append_of_stop {chars : CharClass} (hpercent : chars '%' = false)
    {s r : List Char} (hs : runLength chars s = s.length) (hr : runLength chars r = 0) :
    runLength chars (s ++ r) = s.length := by
  fun_induction runLength chars s with
  | case1 a b rest hhex ih =>
    have hrest : runLength chars rest = rest.length := by simpa using hs
    simp only [List.cons_append, runLength, hhex, if_true, ih hrest, List.length_cons]
  | case2 a b rest hhex => cases hs
  | case3 c rest hnot hc ih =>
    have hrest : runLength chars rest = rest.length := by simpa using hs
    have hne : c ≠ '%' := by
      rintro rfl
      exact absurd (hc.symm.trans hpercent) (by decide)
    rw [List.cons_append, runLength_cons hne, if_pos hc, ih hrest, List.length_cons]
  | case4 c rest hnot hc => simp at hs
  | case5 => exact hr

theorem runLength_append {chars : CharClass} (hpercent : chars '%' = false) {s r : List Char}
    (hs : runLength chars s = s.length)
    (hr : ∀ c ∈ r.head?, c ≠ '%' ∧ chars c = false) :
    runLength chars (s ++ r) = s.length := by
  refine runLength_append_of_stop hpercent hs ?_
  cases r with
  | nil => rfl
  | cons c r =>
    obtain ⟨hne, hc⟩ := hr c rfl
    rw [runLength_cons hne, hc, if_neg Bool.false_ne_true]

/-- A run is a run by itself, and what follows it begins no run. -/
theorem runLength_split {chars : CharClass} {w p : List Char}
    (h : runLength chars (w ++ p) = w.length) :
    runLength chars w = w.length ∧ runLength chars p = 0 := by
  generalize hs : w ++ p = s at h
  fun_induction runLength chars s generalizing w with
  | case1 a b rest hhex ih =>
    match w with
    | [] | [_] | [_, _] => simp at h
    | _ :: _ :: _ :: w =>
      simp only [List.cons_append, List.cons.injEq] at hs
      obtain ⟨rfl, rfl, rfl, hs⟩ := hs
      obtain ⟨hw, hp⟩ := ih hs (by simpa using h)
      exact ⟨by simp only [runLength, hhex, if_true, hw, List.length_cons], hp⟩
  | case2 a b rest hhex =>
    obtain rfl := List.eq_nil_of_length_eq_zero h.symm
    refine ⟨rfl, ?_⟩
    rw [List.nil_append] at hs
    rw [hs, runLength, if_neg hhex]
  | case3 c rest hnot hc ih =>
    cases w with
    | nil => simp at h
    | cons d w =>
      rw [List.cons_append, List.cons.injEq] at hs
      obtain ⟨rfl, rfl⟩ := hs
      obtain ⟨hw, hp⟩ := ih rfl (by simpa using h)
      refine ⟨?_, hp⟩
      rw [runLength, if_pos hc, hw, List.length_cons]
      rintro a b t rfl rfl
      exact hnot a b (t ++ p) rfl rfl
  | case4 c rest hnot hc =>
    obtain rfl := List.eq_nil_of_length_eq_zero h.symm
    refine ⟨rfl, ?_⟩
    rw [List.nil_append] at hs
    rw [hs, runLength, if_neg hc]
    exact hnot
  | case5 =>
    obtain ⟨rfl, rfl⟩ := List.append_eq_nil_iff.mp hs
    exact ⟨rfl, rfl⟩

/-- What a run begins with: a character or a percent escape, whatever follows it. -/
theorem runLength_piece {chars : CharClass} (hpercent : chars '%' = false) {s : List Char}
    (h : runLength chars s ≠ 0) : ∃ piece rest, s = piece ++ rest ∧
      (∀ t, runLength chars (piece ++ t) ≠ 0) ∧
      ∀ c ∈ piece, chars c = true ∨ c = '%' ∨ hexDigit c = true := by
  unfold runLength at h
  split at h
  · rename_i a b rest
    split at h
    · rename_i hab
      refine ⟨['%', a, b], rest, rfl, fun t => ?_, ?_⟩
      · simp only [List.cons_append, List.nil_append, runLength, hab, if_true]
        exact Nat.succ_ne_zero _
      · simp only [Bool.and_eq_true] at hab
        simp [hab]
    · exact absurd rfl h
  · rename_i c rest _
    split at h
    · rename_i hc
      have hne : c ≠ '%' := by
        rintro rfl
        exact absurd (hc.symm.trans hpercent) (by decide)
      refine ⟨[c], rest, rfl, fun t => ?_, List.forall_mem_singleton.mpr (.inl hc)⟩
      rw [List.singleton_append, runLength_cons hne, if_pos hc]
      exact Nat.succ_ne_zero _
    · exact absurd rfl h
  · exact absurd rfl h

/-! ## IPv4 -/

/-- A letter, a digit, a hyphen or a dot: what hosts without brackets are made of. -/
def hostChar : CharClass := fun c => alphanumeric c || c == '-' || c == '.'

theorem not_between {c lo hi : Char} (h : digit c = false) (hlo : '0' ≤ lo) (hhi : hi ≤ '9') :
    (decide (lo ≤ c) && decide (c ≤ hi)) = false := by
  rw [← Bool.not_eq_true, digit_iff] at h
  rw [le_iff_toNat] at hlo hhi
  simp only [Char.reduceToNat] at hlo hhi
  simp only [Bool.and_eq_false_iff, decide_eq_false_iff_not, le_iff_toNat]
  omega

theorem afterOctet_append (s : List Char) {r : List Char} (hr : r.head?.any digit = false) :
    afterOctet (s ++ r) = (afterOctet s).map (· ++ r) := by
  cases r with
  | nil => simp
  | cons c r =>
    have hc : digit c = false := hr
    have h04 := not_between hc (by decide : '0' ≤ '0') (by decide : '4' ≤ '9')
    have h05 := not_between hc (by decide : '0' ≤ '0') (by decide : '5' ≤ '9')
    have h19 := not_between hc (by decide : '0' ≤ '1') (by decide : '9' ≤ '9')
    have hne : ∀ d, digit d = true → (c == d) = false := by
      intro d hd
      refine beq_false_of_ne ?_
      rintro rfl
      exact absurd (hd.symm.trans hc) (by decide)
    have h1 := hne '1' rfl
    have h2 := hne '2' rfl
    have h5 := hne '5' rfl
    match s with
    | a :: b :: d :: rest =>
      simp only [List.cons_append, afterOctet, List.map_append, apply_ite (List.map (· ++ c :: r)),
        List.map_cons, List.map_nil]
    | [a, b] =>
      simp only [List.cons_append, List.nil_append, afterOctet, Bool.and_assoc, h05, hc,
        Bool.and_false, Bool.or_self, Bool.false_eq_true, if_false, List.map_append,
        apply_ite (List.map (· ++ c :: r)), List.map_cons, List.map_nil]
    | [a] =>
      cases r with
      | nil =>
        simp only [List.cons_append, List.nil_append, afterOctet, hc, Bool.and_false,
          Bool.false_eq_true, if_false, apply_ite (List.map (· ++ [c])), List.map_cons,
          List.map_nil]
      | cons d r =>
        have h04' : ∀ b, (decide ('0' ≤ c) && (decide (c ≤ '4') && b)) = false := by
          intro b
          rw [← Bool.and_assoc, h04, Bool.false_and]
        simp only [List.cons_append, List.nil_append, afterOctet, Bool.and_assoc, h5, h04', hc,
          Bool.and_false, Bool.false_and, Bool.or_self, Bool.false_eq_true, if_false,
          apply_ite (List.map (· ++ c :: d :: r)), List.map_cons, List.map_nil]
    | [] =>
      match r with
      | [] =>
        simp only [List.nil_append, afterOctet, hc, Bool.false_eq_true, if_false, List.map_nil]
      | [d] =>
        simp only [List.nil_append, afterOctet, hc, h19, Bool.false_and, Bool.false_eq_true,
          if_false, List.map_nil]
      | d :: e :: r =>
        simp only [List.nil_append, afterOctet, hc, h1, h2, h19, Bool.false_and, Bool.or_self,
          Bool.false_eq_true, if_false, List.map_nil]

theorem afterChar_append {c : Char} (s : List Char) {r : List Char} (hr : ∀ d ∈ r.head?, c ≠ d) :
    afterChar c (s ++ r) = (afterChar c s).map (· ++ r) := by
  cases s with
  | cons d s =>
    simp only [List.cons_append, afterChar, apply_ite (List.map (· ++ r)), List.map_cons,
      List.map_nil]
  | nil =>
    cases r with
    | nil => rfl
    | cons d r => simp [afterChar, hr d rfl]

theorem hostChar_of_digit {c : Char} (h : digit c = true) : hostChar c = true := by
  simp [hostChar, alphanumeric, h]

theorem head?_any_mono {chars chars' : CharClass} (h : ∀ c, chars c = true → chars' c = true)
    {s : List Char} (hs : s.head?.any chars' = false) : s.head?.any chars = false := by
  cases s with
  | nil => rfl
  | cons c s =>
    have hc : chars' c = false := hs
    exact Bool.eq_false_iff.mpr fun hchars => absurd ((h c hchars).symm.trans hc) (by decide)

theorem head?_ne {chars : CharClass} {c : Char} (hc : chars c = true) {s : List Char}
    (hs : s.head?.any chars = false) : ∀ d ∈ s.head?, c ≠ d := by
  rintro d hd rfl
  rw [hd] at hs
  exact absurd (hc.symm.trans hs) (by decide)

theorem afterOctets_append (n : Nat) (s : List Char) {r : List Char}
    (hr : r.head?.any hostChar = false) :
    afterOctets n (s ++ r) = (afterOctets n s).map (· ++ r) := by
  have hoctet := fun s => afterOctet_append s (head?_any_mono (fun _ => hostChar_of_digit) hr)
  have hdot := fun s => afterChar_append (c := '.') s (head?_ne rfl hr)
  induction n generalizing s with
  | zero => exact hoctet s
  | succ n ih =>
    simp only [afterOctets, hoctet, hdot, List.flatMap_map, List.map_flatMap, ih]

theorem ipv4Length?_append (s : List Char) {r : List Char} (hr : r.head?.any hostChar = false) :
    ipv4Length? (s ++ r) = ipv4Length? s := by
  rw [ipv4Length?, ipv4Length?, afterIPv4, afterIPv4, afterOctets_append 3 s hr]
  cases afterOctets 3 s with
  | nil => rfl
  | cons rest more =>
    simp only [List.map_cons, List.head?_cons, Option.map_some, List.length_append]
    congr 1
    omega

/-! ## Domain names -/

theorem labelLength_append (hyphens : Nat) (s : List Char) {r : List Char}
    (hr : r.head?.any hostChar = false) :
    labelLength hyphens (s ++ r) = labelLength hyphens s := by
  induction s generalizing hyphens with
  | nil =>
    cases r with
    | nil => rfl
    | cons c r =>
      have hc : hostChar c = false := hr
      simp only [hostChar, Bool.or_eq_false_iff] at hc
      simp [labelLength, hc]
  | cons c s ih => simp only [List.cons_append, labelLength, ih]

theorem labelLength_le (hyphens : Nat) (s : List Char) :
    labelLength hyphens s ≤ hyphens + s.length := by
  induction s generalizing hyphens with
  | nil => exact Nat.zero_le _
  | cons c s ih =>
    rw [labelLength, List.length_cons]
    have h0 := ih 0
    have h1 := ih (hyphens + 1)
    split
    · omega
    · split <;> omega

theorem furtherLabelsLength_of_head {bound : Nat} {s : List Char} (h : ∀ c ∈ s.head?, c ≠ '.') :
    furtherLabelsLength bound s = 0 := by
  cases s with
  | nil => cases bound <;> rfl
  | cons c s =>
    have hc : c ≠ '.' := h c rfl
    cases bound with
    | zero => rfl
    | succ bound => simp [furtherLabelsLength, hc]

theorem furtherLabelsLength_append {bound bound' : Nat} {s r : List Char}
    (hs : s.length ≤ bound) (hb : (s ++ r).length ≤ bound') (hr : r.head?.any hostChar = false) :
    furtherLabelsLength bound' (s ++ r) = furtherLabelsLength bound s := by
  have hdot := head?_ne (by rfl : hostChar '.' = true) hr
  induction bound generalizing bound' s with
  | zero =>
    obtain rfl := List.eq_nil_of_length_eq_zero (Nat.le_zero.mp hs)
    exact furtherLabelsLength_of_head fun d hd => (hdot d hd).symm
  | succ bound ih =>
    match s with
    | [] =>
      rw [List.nil_append, furtherLabelsLength_of_head fun d hd => (hdot d hd).symm]
      rfl
    | c :: rest =>
      obtain ⟨bound', rfl⟩ : ∃ b, bound' = b + 1 := by
        cases bound' with
        | zero => simp at hb
        | succ b => exact ⟨b, rfl⟩
      by_cases hc : c = '.'
      · subst hc
        cases rest with
        | nil =>
          cases r with
          | nil => rfl
          | cons d r =>
            have hd : hostChar d = false := hr
            simp only [hostChar, Bool.or_eq_false_iff] at hd
            simp [furtherLabelsLength, hd]
        | cons d rest =>
          have hn := labelLength_append 0 (d :: rest) hr
          have hle := labelLength_le 0 (d :: rest)
          simp only [List.length_cons, List.length_append] at hs hb
          rw [Nat.zero_add] at hle
          have hnext : furtherLabelsLength bound'
              ((d :: rest).drop (labelLength 0 (d :: rest)) ++ r) = _ := ih
            (by simp only [List.length_drop, List.length_cons]; omega)
            (by simp only [List.length_append, List.length_drop, List.length_cons]; omega)
          simp only [List.cons_append] at hn ⊢
          simp only [furtherLabelsLength, hn]
          rw [← List.cons_append, List.drop_append_of_le_length hle, hnext]
      · rw [furtherLabelsLength_of_head (s := c :: rest) (by rintro d ⟨⟩; exact hc),
          furtherLabelsLength_of_head (s := c :: rest ++ r) (by rintro d ⟨⟩; exact hc)]

theorem domainLength?_append {s r : List Char} (hs : s ≠ []) (hr : r.head?.any hostChar = false) :
    domainLength? (s ++ r) = domainLength? s := by
  obtain ⟨c, rest, rfl⟩ := List.exists_cons_of_ne_nil hs
  have hn := labelLength_append 0 (c :: rest) hr
  have hle := labelLength_le 0 (c :: rest)
  rw [Nat.zero_add] at hle
  have hfurther : furtherLabelsLength (c :: rest ++ r).length
      ((c :: rest).drop (labelLength 0 (c :: rest)) ++ r) =
        furtherLabelsLength (c :: rest).length
          ((c :: rest).drop (labelLength 0 (c :: rest))) := furtherLabelsLength_append
    (by simp only [List.length_drop]; omega)
    (by simp only [List.length_append, List.length_drop]; omega) hr
  simp only [List.cons_append] at hn ⊢
  simp only [domainLength?, hn]
  rw [← List.cons_append, List.drop_append_of_le_length hle, hfurther]

/-! ## Hosts -/

theorem takeWhile_append_of_length_lt {p : Char → Bool} {s : List Char}
    (h : (s.takeWhile p).length < s.length) (r : List Char) :
    (s ++ r).takeWhile p = s.takeWhile p := by
  induction s with
  | nil => cases h
  | cons c s ih =>
    by_cases hc : p c = true
    · rw [List.takeWhile_cons_of_pos hc, List.length_cons, List.length_cons] at h
      rw [List.cons_append, List.takeWhile_cons_of_pos hc, List.takeWhile_cons_of_pos hc,
        ih (by omega)]
    · rw [List.cons_append, List.takeWhile_cons_of_neg hc, List.takeWhile_cons_of_neg hc]

theorem bracketedLength?_append {s : List Char} {n : Nat} (h : bracketedLength? s = some n)
    (r : List Char) : bracketedLength? (s ++ r) = some n := by
  unfold bracketedLength? at h
  split at h
  next rest =>
    dsimp only at h
    split at h
    next hc =>
      obtain rfl := Option.some.inj h
      simp only [Bool.and_eq_true, decide_eq_true_eq] at hc
      obtain ⟨hlt, haddress⟩ := hc
      have htake := takeWhile_append_of_length_lt hlt r
      have hlt' : (rest.takeWhile (· != ']')).length < (rest ++ r).length := by
        rw [List.length_append]
        omega
      simp only [List.cons_append, bracketedLength?, htake, hlt', decide_true, haddress,
        Bool.and_self, if_true]
    next => cases h
  next => cases h

theorem bracketedLength?_of_head {s : List Char} (h : ∀ c ∈ s.head?, c ≠ '[') :
    bracketedLength? s = none := by
  cases s with
  | nil => rfl
  | cons c s =>
    have hc : c ≠ '[' := h c rfl
    simp [bracketedLength?, hc]

theorem head?_of_bracketedLength? {s : List Char} {n : Nat} (h : bracketedLength? s = some n) :
    s.head? = some '[' := by
  unfold bracketedLength? at h
  split at h
  next rest => rfl
  next => cases h

theorem ipv4Length?_of_head {s : List Char} (h : s.head?.any digit = false) :
    ipv4Length? s = none := by
  have hnone : afterOctet s = [] := afterOctet_append [] h
  rw [ipv4Length?, afterIPv4, afterOctets, hnone]
  rfl

/-- A host without brackets begins with something else than a bracket. -/
theorem head?_ne_bracket {s : List Char} {n : Nat} (hb : bracketedLength? s = none)
    (h : length? s = some n) : s ≠ [] ∧ ∀ c ∈ s.head?, c ≠ '[' := by
  rw [length?, hb, Option.none_or] at h
  refine ⟨?_, ?_⟩
  · rintro rfl
    cases h
  · rintro c hc rfl
    obtain ⟨rest, rfl⟩ := List.head?_eq_some_iff.mp hc
    rw [ipv4Length?_of_head (by rfl)] at h
    cases h

/-- A host is a host too where something follows that can belong to no host. -/
theorem length?_append {s r : List Char} {k : Nat} (h : length? s = some k)
    (hr : r.head?.any hostChar = false) : length? (s ++ r) = some k := by
  cases hb : bracketedLength? s with
  | some n =>
    have hn : some n = some k := by rw [length?, hb, Option.some_or] at h; exact h
    rw [length?, bracketedLength?_append hb, Option.some_or, hn]
  | none =>
    obtain ⟨hne, hhead⟩ := head?_ne_bracket hb h
    have hhead' : ∀ c ∈ (s ++ r).head?, c ≠ '[' := by
      obtain ⟨c, rest, rfl⟩ := List.exists_cons_of_ne_nil hne
      exact hhead
    rw [length?, bracketedLength?_of_head hhead', ipv4Length?_append s hr,
      domainLength?_append hne hr, ← hb, ← length?, h]

/-! ## The characters of hosts -/

/-- What precedes the text behind an octet is made of digits. -/
theorem afterOctet_suffix {s t : List Char} (h : t ∈ afterOctet s) :
    ∃ octet, s = octet ++ t ∧ ∀ c ∈ octet, digit c = true := by
  have hdigit : ∀ c : Char, digit c = true ↔ 48 ≤ c.toNat ∧ c.toNat ≤ 57 := fun _ => digit_iff
  match s with
  | a :: b :: c :: rest =>
    simp only [afterOctet, List.mem_append, List.mem_ite_nil_right, List.mem_singleton,
      Bool.or_eq_true, Bool.and_eq_true, beq_iff_eq, decide_eq_true_eq, le_iff_toNat, hdigit,
      ← Char.toNat_inj, Char.reduceToNat] at h
    obtain (⟨hc, rfl⟩ | ⟨hc, rfl⟩) | ⟨hc, rfl⟩ := h
    · refine ⟨[a, b, c], rfl, ?_⟩
      simp only [List.forall_mem_cons, List.not_mem_nil, false_implies, implies_true, and_true,
        hdigit]
      omega
    · refine ⟨[a, b], rfl, ?_⟩
      simp only [List.forall_mem_cons, List.not_mem_nil, false_implies, implies_true, and_true,
        hdigit]
      omega
    · exact ⟨[a], rfl, List.forall_mem_singleton.mpr ((hdigit a).mpr hc)⟩
  | [a, b] =>
    simp only [afterOctet, List.mem_append, List.mem_ite_nil_right, List.mem_singleton,
      Bool.and_eq_true, decide_eq_true_eq, le_iff_toNat, hdigit, Char.reduceToNat] at h
    obtain ⟨hc, rfl⟩ | ⟨hc, rfl⟩ := h
    · refine ⟨[a, b], rfl, ?_⟩
      simp only [List.forall_mem_cons, List.not_mem_nil, false_implies, implies_true, and_true,
        hdigit]
      omega
    · exact ⟨[a], rfl, List.forall_mem_singleton.mpr ((hdigit a).mpr hc)⟩
  | [a] =>
    simp only [afterOctet, List.mem_ite_nil_right, List.mem_singleton] at h
    obtain ⟨hc, rfl⟩ := h
    exact ⟨[a], rfl, List.forall_mem_singleton.mpr hc⟩
  | [] => cases h

theorem afterOctets_suffix {n : Nat} {s t : List Char} (h : t ∈ afterOctets n s) :
    ∃ octets, s = octets ++ t ∧ ∀ c ∈ octets, hostChar c = true := by
  induction n generalizing s with
  | zero =>
    obtain ⟨octet, hs, hall⟩ := afterOctet_suffix h
    exact ⟨octet, hs, fun c hc => hostChar_of_digit (hall c hc)⟩
  | succ n ih =>
    obtain ⟨u, hu, hmem⟩ := List.mem_flatMap.mp h
    obtain ⟨v, hv, hmem⟩ := List.mem_flatMap.mp hmem
    obtain ⟨octet, rfl, hoctet⟩ := afterOctet_suffix hu
    obtain ⟨octets, rfl, hoctets⟩ := ih hmem
    have hdot : u = '.' :: (octets ++ t) := by
      cases u with
      | nil => cases hv
      | cons d u =>
        simp only [afterChar, List.mem_ite_nil_right, List.mem_singleton, beq_iff_eq] at hv
        obtain ⟨rfl, rfl⟩ := hv
        rfl
    refine ⟨octet ++ '.' :: octets, by simp [hdot], fun c hc => ?_⟩
    rw [List.mem_append, List.mem_cons] at hc
    obtain hc | rfl | hc := hc
    · exact hostChar_of_digit (hoctet c hc)
    · rfl
    · exact hoctets c hc

/-- Hyphens that have been passed do not count among the characters ahead. -/
theorem labelLength_chars {hyphens : Nat} {s : List Char} {c : Char}
    (h : c ∈ s.take (labelLength hyphens s - hyphens)) : hostChar c = true := by
  induction s generalizing hyphens with
  | nil => simp at h
  | cons d s ih =>
    rw [labelLength] at h
    split at h
    next hd =>
      have hn : hyphens + 1 + labelLength 0 s - hyphens = labelLength 0 s + 1 := by omega
      rw [hn, List.take_succ_cons, List.mem_cons] at h
      obtain rfl | h := h
      · simp [hostChar, hd]
      · exact ih (by rwa [Nat.sub_zero] : c ∈ s.take (labelLength 0 s - 0))
    next =>
      split at h
      next hd =>
        by_cases hle : labelLength (hyphens + 1) s ≤ hyphens
        · simp [Nat.sub_eq_zero_of_le hle] at h
        · have hn : labelLength (hyphens + 1) s - hyphens =
              labelLength (hyphens + 1) s - (hyphens + 1) + 1 := by omega
          rw [hn, List.take_succ_cons, List.mem_cons] at h
          obtain rfl | h := h
          · simp [hostChar, beq_iff_eq.mp hd]
          · exact ih h
      next => simp at h

theorem furtherLabelsLength_chars {bound : Nat} {s : List Char} {c : Char}
    (h : c ∈ s.take (furtherLabelsLength bound s)) : hostChar c = true := by
  induction bound generalizing s with
  | zero => cases h
  | succ bound ih =>
    by_cases hdot : ∀ d ∈ s.head?, d ≠ '.'
    · rw [furtherLabelsLength_of_head hdot] at h
      cases h
    · obtain ⟨rest, rfl⟩ : ∃ rest, s = '.' :: rest := by
        cases s with
        | nil => exact absurd (fun _ h => nomatch h) hdot
        | cons d s =>
          refine ⟨s, ?_⟩
          by_cases hd : d = '.'
          · rw [hd]
          · exact absurd (by rintro e ⟨⟩; exact hd) hdot
      cases rest with
      | nil =>
        simp only [furtherLabelsLength, List.take_succ_cons, List.mem_cons, List.take_zero,
          List.not_mem_nil, or_false] at h
        subst h
        rfl
      | cons d rest =>
        simp only [furtherLabelsLength] at h
        split at h
        · rw [Nat.add_right_comm, List.take_succ_cons, List.mem_cons, List.take_add,
            List.mem_append] at h
          obtain rfl | h | h := h
          · rfl
          · exact labelLength_chars (by rwa [Nat.sub_zero])
          · exact ih h
        · simp only [List.take_succ_cons, List.mem_cons, List.take_zero, List.not_mem_nil,
            or_false] at h
          subst h
          rfl

/-- An address in brackets ends with the first closing one. -/
theorem eq_of_bracketedLength? {s : List Char} {n : Nat} (h : bracketedLength? s = some n) :
    ∃ address r, s = '[' :: (address ++ ']' :: r) ∧ n = address.length + 2 := by
  unfold bracketedLength? at h
  split at h
  next rest =>
    dsimp only at h
    split at h
    next hc =>
      simp only [Bool.and_eq_true, decide_eq_true_eq] at hc
      have hrest := List.takeWhile_append_dropWhile (p := fun c => c != ']') (l := rest)
      cases hd : rest.dropWhile fun c => c != ']' with
      | nil =>
        rw [hd, List.append_nil] at hrest
        rw [hrest] at hc
        omega
      | cons c r =>
        have hclose : (c != ']') = false := by
          have hhead := List.head?_dropWhile_not (fun c => c != ']') rest
          rw [hd] at hhead
          exact hhead
        have hc' : c = ']' := by simpa using hclose
        subst hc'
        refine ⟨rest.takeWhile fun c => c != ']', r, ?_, (Option.some.inj h).symm⟩
        rw [← hd, List.takeWhile_append_dropWhile]
    next => cases h
  next => cases h

/-- A host without brackets is made of letters, digits, hyphens and dots. -/
theorem hostChar_of_take {s : List Char} {n : Nat} (hb : bracketedLength? s = none)
    (h : length? s = some n) : ∀ c ∈ s.take n, hostChar c = true := by
  rw [length?, hb, Option.none_or] at h
  cases h4 : ipv4Length? s with
  | some m =>
    rw [h4, Option.some_or] at h
    obtain ⟨t, ht, hn⟩ := Option.map_eq_some_iff.mp (h4.trans h)
    obtain ⟨octets, hs, hall⟩ := afterOctets_suffix (List.mem_of_mem_head? ht)
    have hlength := congrArg List.length hs
    rw [List.length_append] at hlength
    rw [← hn, hs, List.take_append_of_le_length (by rw [List.length_append]; omega)]
    exact fun c hc => hall c (List.mem_of_mem_take hc)
  | none =>
    rw [h4, Option.none_or] at h
    cases s with
    | nil => exact fun _ h => nomatch List.take_nil ▸ h
    | cons c s =>
      rw [domainLength?] at h
      split at h
      next hc =>
        intro d hd
        rw [← Option.some.inj h, List.take_add, List.mem_append] at hd
        obtain hd | hd := hd
        · exact labelLength_chars (by rwa [Nat.sub_zero])
        · exact furtherLabelsLength_chars hd
      next => cases h

theorem hostChar_of_length? {s : List Char} (hb : bracketedLength? s = none)
    (h : length? s = some s.length) : ∀ c ∈ s, hostChar c = true := by
  have hchars := hostChar_of_take hb h
  rwa [List.take_length] at hchars

end DhallSyntax.Host
