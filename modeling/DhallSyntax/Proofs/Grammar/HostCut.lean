import DhallSyntax.Proofs.Grammar.Host

/-!
Hosts with nothing behind them. A host that a pattern takes is taken just so when text behind it is
cut off. Main statement: `length?_cut`.
-/

namespace DhallSyntax.Host

open CharClass

/-! ## Addresses -/

/-- What is left of a text in front of something else: of the texts that may follow a pattern there,
those with all of that at their end. -/
def Cut (r : List Char) (long short : List (List Char)) : Prop :=
  long.filter (fun t => decide (r.length ≤ t.length)) = short.map (· ++ r)

theorem afterChar_cut (c : Char) (s r : List Char) :
    Cut r (afterChar c (s ++ r)) (afterChar c s) := by
  unfold Cut
  cases s with
  | cons d s =>
    simp only [List.cons_append, afterChar]
    split <;> simp
  | nil =>
    cases r with
    | nil => rfl
    | cons d r =>
      simp only [List.nil_append, afterChar]
      split <;> simp

theorem filter_ite_singleton (p : List Char → Bool) (c : Prop) [Decidable c] (t : List Char) :
    List.filter p (if c then [t] else []) = if p t then (if c then [t] else []) else [] := by
  cases hp : p t <;> split <;> simp [hp]

theorem afterOctet_cut (s r : List Char) : Cut r (afterOctet (s ++ r)) (afterOctet s) := by
  unfold Cut
  match s, r with
  | a :: b :: c :: s, r =>
    simp +arith [afterOctet, List.filter_append, filter_ite_singleton, apply_ite (List.map _)]
  | [a, b], [] =>
    simp +arith [afterOctet, List.filter_append, filter_ite_singleton]
  | [a, b], d :: r =>
    simp +arith [afterOctet, List.filter_append, filter_ite_singleton, apply_ite (List.map _)]
  | [a], [] => simp [afterOctet]
  | [a], [d] =>
    simp +arith [afterOctet, List.filter_append, filter_ite_singleton, apply_ite (List.map _)]
  | [a], d :: e :: r =>
    simp +arith [afterOctet, List.filter_append, filter_ite_singleton, apply_ite (List.map _)]
  | [], [] => rfl
  | [], [d] => simp +arith [afterOctet, filter_ite_singleton]
  | [], [d, e] => simp +arith [afterOctet, List.filter_append, filter_ite_singleton]
  | [], d :: e :: f :: r => simp +arith [afterOctet, List.filter_append, filter_ite_singleton]

theorem Cut.flatMap {r : List Char} {long short : List (List Char)}
    {f g : List Char → List (List Char)} (h : Cut r long short)
    (hf : ∀ s, Cut r (f (s ++ r)) (g s))
    (hshort : ∀ t, t.length < r.length → ∀ u ∈ f t, u.length < r.length) :
    Cut r (long.flatMap f) (short.flatMap g) := by
  have hfilter : ∀ long : List (List Char),
      (long.flatMap f).filter (fun t => decide (r.length ≤ t.length)) =
        (long.filter fun t => decide (r.length ≤ t.length)).flatMap fun s =>
          (f s).filter fun t => decide (r.length ≤ t.length) := by
    intro long
    induction long with
    | nil => rfl
    | cons t long ih =>
      rw [List.flatMap_cons, List.filter_append, ih]
      by_cases ht : r.length ≤ t.length
      · rw [List.filter_cons_of_pos (by simpa using ht), List.flatMap_cons]
      · have hnone : (f t).filter (fun t => decide (r.length ≤ t.length)) = [] := by
          refine List.filter_eq_nil_iff.mpr fun u hu => ?_
          have hlt := hshort t (Nat.lt_of_not_le ht) u hu
          simpa using hlt
        rw [List.filter_cons_of_neg (by simpa using ht), hnone, List.nil_append]
  have hmap : ∀ s, (f (s ++ r)).filter (fun t => decide (r.length ≤ t.length)) =
      (g s).map (· ++ r) := hf
  unfold Cut
  rw [hfilter, h, List.flatMap_map, List.map_flatMap]
  simp only [hmap]

theorem afterOctets_cut (n : Nat) (s r : List Char) :
    Cut r (afterOctets n (s ++ r)) (afterOctets n s) := by
  induction n generalizing s with
  | zero => exact afterOctet_cut s r
  | succ n ih =>
    have hoctets : ∀ t, ∀ u ∈ afterOctets n t, u.length ≤ t.length := by
      intro t u hu
      obtain ⟨octets, rfl, -⟩ := afterOctets_suffix hu
      rw [List.length_append]
      omega
    have hdot : ∀ t, ∀ u ∈ afterChar '.' t, u.length ≤ t.length := by
      intro t u hu
      cases t with
      | nil => cases hu
      | cons d t =>
        rw [afterChar, List.mem_ite_nil_right, List.mem_singleton] at hu
        rw [hu.2, List.length_cons]
        omega
    refine (afterOctet_cut s r).flatMap (fun s => ?_) fun t ht u hu => ?_
    · refine (afterChar_cut '.' s r).flatMap ih fun t ht u hu => ?_
      exact Nat.lt_of_le_of_lt (hoctets t u hu) ht
    · obtain ⟨v, hv, hu⟩ := List.mem_flatMap.mp hu
      exact Nat.lt_of_le_of_lt (Nat.le_trans (hoctets v u hu) (hdot t v hv)) ht

/-- An address is the same without what follows it. -/
theorem ipv4Length?_cut (s r : List Char) (h : ∀ k ∈ ipv4Length? (s ++ r), k ≤ s.length) :
    ipv4Length? s = ipv4Length? (s ++ r) := by
  have hcut : (afterOctets 3 (s ++ r)).filter (fun t => decide (r.length ≤ t.length)) =
      (afterOctets 3 s).map (· ++ r) := afterOctets_cut 3 s r
  simp only [ipv4Length?, afterIPv4] at h ⊢
  cases hlong : afterOctets 3 (s ++ r) with
  | nil =>
    rw [hlong] at hcut
    rw [List.map_eq_nil_iff.mp hcut.symm]
    rfl
  | cons t more =>
    rw [hlong] at hcut h
    have hk : (s ++ r).length - t.length ≤ s.length := h _ rfl
    obtain ⟨octets, hs, -⟩ := afterOctets_suffix (n := 3) (hlong ▸ List.mem_cons_self)
    have hlength := congrArg List.length hs
    rw [List.length_append, List.length_append] at hlength
    rw [List.length_append] at hk
    rw [List.filter_cons_of_pos (by simp only [decide_eq_true_eq]; omega)] at hcut
    cases hshort : afterOctets 3 s with
    | nil =>
      rw [hshort] at hcut
      cases hcut
    | cons u more' =>
      rw [hshort, List.map_cons] at hcut
      obtain ⟨rfl, -⟩ := List.cons.inj hcut
      simp only [List.head?_cons, Option.map_some, List.length_append, Option.some.injEq]
      omega

/-! ## Domain names -/

theorem labelLength_zero_or (hyphens : Nat) (s : List Char) :
    labelLength hyphens s = 0 ∨ hyphens < labelLength hyphens s := by
  induction s generalizing hyphens with
  | nil => exact .inl rfl
  | cons c s ih =>
    rw [labelLength]
    split
    · exact .inr (by omega)
    · split
      · obtain h | h := ih (hyphens + 1)
        · exact .inl h
        · exact .inr (by omega)
      · exact .inl rfl

theorem labelLength_cut {hyphens : Nat} {s r : List Char}
    (h : labelLength hyphens (s ++ r) ≤ hyphens + s.length) :
    labelLength hyphens s = labelLength hyphens (s ++ r) := by
  induction s generalizing hyphens with
  | nil =>
    obtain h0 | hlt := labelLength_zero_or hyphens r
    · exact h0.symm
    · rw [List.nil_append, List.length_nil, Nat.add_zero] at h
      omega
  | cons c s ih =>
    rw [List.cons_append, labelLength] at h ⊢
    rw [List.length_cons] at h
    rw [labelLength]
    split
    · rename_i hc
      rw [if_pos hc] at h
      rw [ih (by omega)]
    · rename_i hc
      rw [if_neg hc] at h
      split
      · rename_i hd
        rw [if_pos hd] at h
        exact ih (by omega)
      · rfl

theorem furtherLabelsLength_cut {bound bound' : Nat} {s r : List Char} (hs : s.length ≤ bound)
    (hb : (s ++ r).length ≤ bound') (h : furtherLabelsLength bound' (s ++ r) ≤ s.length) :
    furtherLabelsLength bound s = furtherLabelsLength bound' (s ++ r) := by
  induction bound generalizing bound' s with
  | zero =>
    obtain rfl := List.eq_nil_of_length_eq_zero (Nat.le_zero.mp hs)
    exact (Nat.le_zero.mp h).symm
  | succ bound ih =>
    match s with
    | [] => exact (Nat.le_zero.mp h).symm
    | c :: rest =>
      obtain ⟨bound', rfl⟩ : ∃ b, bound' = b + 1 := by
        cases bound' with
        | zero => simp at hb
        | succ b => exact ⟨b, rfl⟩
      by_cases hc : c = '.'
      · subst hc
        cases rest with
        | nil =>
          cases r with
          | nil => rfl
          | cons d r =>
            simp only [List.cons_append, List.nil_append, furtherLabelsLength,
              List.length_singleton] at h ⊢
            split at h
            · rename_i hd
              rw [labelLength, if_pos hd] at h
              omega
            · rename_i hd
              rw [if_neg hd]
        | cons d rest =>
          simp only [List.cons_append, furtherLabelsLength, List.length_cons] at h hs hb ⊢
          by_cases hd : alphanumeric d = true
          · rw [if_pos hd] at h
            have hn : labelLength 0 (d :: rest) = labelLength 0 (d :: rest ++ r) :=
              labelLength_cut (by simp only [List.cons_append, List.length_cons]; omega)
            have hle := labelLength_le 0 (d :: rest)
            rw [Nat.zero_add] at hle
            rw [if_pos hd, if_pos hd, ← List.cons_append, ← hn]
            rw [← List.cons_append, ← hn, List.drop_append_of_le_length hle] at h
            rw [List.drop_append_of_le_length hle]
            simp only [List.length_append, List.length_cons] at hb hle
            have hnext : furtherLabelsLength bound ((d :: rest).drop (labelLength 0 (d :: rest))) =
                furtherLabelsLength bound'
                  ((d :: rest).drop (labelLength 0 (d :: rest)) ++ r) := ih
              (by simp only [List.length_drop, List.length_cons]; omega)
              (by simp only [List.length_append, List.length_drop, List.length_cons]; omega)
              (by simp only [List.length_drop, List.length_cons]; omega)
            rw [hnext]
          · rw [if_neg hd, if_neg hd]
      · rw [furtherLabelsLength_of_head (s := c :: rest) (by rintro d ⟨⟩; exact hc),
          furtherLabelsLength_of_head (s := c :: rest ++ r) (by rintro d ⟨⟩; exact hc)]

theorem domainLength?_cut {s r : List Char} {k : Nat} (h : domainLength? (s ++ r) = some k)
    (hk : k ≤ s.length) : domainLength? s = some k := by
  cases s with
  | nil =>
    cases r with
    | nil => exact h
    | cons c r =>
      simp only [List.nil_append, domainLength?] at h
      split at h
      · rename_i hc
        rw [← Option.some.inj h, labelLength, if_pos hc, List.length_nil] at hk
        omega
      · cases h
  | cons c s =>
    simp only [List.cons_append, domainLength?] at h ⊢
    split at h
    · rename_i hc
      have hk' := Option.some.inj h
      have hn : labelLength 0 (c :: s) = labelLength 0 (c :: s ++ r) :=
        labelLength_cut (by rw [List.cons_append]; omega)
      have hle := labelLength_le 0 (c :: s)
      rw [Nat.zero_add] at hle
      rw [← List.cons_append, ← hn, List.drop_append_of_le_length hle] at hk'
      rw [if_pos hc, ← hk', @furtherLabelsLength_cut _ (c :: s ++ r).length _ r
        (by rw [List.length_drop]; omega)
        (by rw [List.length_append, List.length_append, List.length_drop]; omega)
        (by rw [List.length_drop]; omega)]
    · cases h

/-! ## Hosts -/

theorem bracketedLength?_cut {s r : List Char} {k : Nat} (h : bracketedLength? (s ++ r) = some k)
    (hk : k ≤ s.length) : bracketedLength? s = some k := by
  cases s with
  | nil =>
    obtain ⟨address, t, -, rfl⟩ := eq_of_bracketedLength? h
    exact absurd hk (Nat.not_succ_le_zero _)
  | cons c s =>
    have hc : c = '[' := Option.some.inj (head?_of_bracketedLength? h)
    subst hc
    rw [List.cons_append, bracketedLength?] at h
    split at h
    · rename_i haddress
      obtain rfl := Option.some.inj h
      rw [List.length_cons] at hk
      have hlt : (s.takeWhile (· != ']')).length < s.length := by
        refine Nat.lt_of_not_le fun hle => ?_
        have hall : s.takeWhile (· != ']') = s := (List.takeWhile_prefix _).eq_of_length_le hle
        have hlong : s.length ≤ ((s ++ r).takeWhile (· != ']')).length := by
          rw [List.takeWhile_append, hall, if_pos rfl, List.length_append]
          omega
        omega
      rw [takeWhile_append_of_length_lt hlt] at haddress ⊢
      simp only [Bool.and_eq_true, decide_eq_true_eq] at haddress
      simp only [bracketedLength?, hlt, decide_true, haddress.2, Bool.and_self, if_true]
    · cases h

theorem furtherLabelsLength_le (bound : Nat) (s : List Char) :
    furtherLabelsLength bound s ≤ s.length := by
  induction bound generalizing s with
  | zero => exact Nat.zero_le _
  | succ bound ih =>
    match s with
    | [] => exact Nat.zero_le _
    | c :: rest =>
      by_cases hc : c = '.'
      · subst hc
        cases rest with
        | nil => exact Nat.le_refl _
        | cons d rest =>
          simp only [furtherLabelsLength]
          split
          · have hn := labelLength_le 0 (d :: rest)
            have hnext := ih ((d :: rest).drop (labelLength 0 (d :: rest)))
            rw [List.length_drop] at hnext
            simp only [List.length_cons] at hn hnext ⊢
            omega
          · simp only [List.length_cons]
            omega
      · rw [furtherLabelsLength_of_head (by rintro d ⟨⟩; exact hc)]
        exact Nat.zero_le _

theorem length?_le {s : List Char} {k : Nat} (h : length? s = some k) : k ≤ s.length := by
  cases hb : bracketedLength? s with
  | some m =>
    rw [length?, hb, Option.some_or] at h
    obtain ⟨address, r, rfl, rfl⟩ := eq_of_bracketedLength? hb
    obtain rfl := Option.some.inj h
    simp only [List.length_cons, List.length_append]
    omega
  | none =>
    rw [length?, hb, Option.none_or] at h
    cases h4 : ipv4Length? s with
    | some m =>
      rw [h4, Option.some_or] at h
      obtain rfl := Option.some.inj h
      obtain ⟨t, -, rfl⟩ := Option.map_eq_some_iff.mp h4
      exact Nat.sub_le _ _
    | none =>
      rw [h4, Option.none_or] at h
      cases s with
      | nil => cases h
      | cons c s =>
        rw [domainLength?] at h
        split at h
        · have hn := labelLength_le 0 (c :: s)
          have hnext := furtherLabelsLength_le (c :: s).length
            ((c :: s).drop (labelLength 0 (c :: s)))
          rw [List.length_drop] at hnext
          rw [← Option.some.inj h]
          omega
        · cases h

/-- A host is the same without what follows it. -/
theorem length?_cut {s r : List Char} {k : Nat} (h : length? (s ++ r) = some k)
    (hk : k ≤ s.length) : length? s = some k := by
  rw [length?] at h ⊢
  cases hb : bracketedLength? (s ++ r) with
  | some m =>
    rw [hb, Option.some_or] at h
    rw [bracketedLength?_cut (hb.trans h) hk, Option.some_or]
  | none =>
    have hb' : bracketedLength? s = none := by
      rw [← Option.not_isSome_iff_eq_none, Option.isSome_iff_exists]
      rintro ⟨m, hm⟩
      rw [bracketedLength?_append hm] at hb
      cases hb
    rw [hb, Option.none_or] at h
    have h4 : ∀ m ∈ ipv4Length? (s ++ r), m ≤ s.length := by
      intro m hm
      rw [Option.mem_def.mp hm, Option.some_or] at h
      rwa [Option.some.inj h]
    rw [hb', Option.none_or, ipv4Length?_cut s r h4]
    cases hlength : ipv4Length? (s ++ r) with
    | some m => rwa [hlength] at h
    | none =>
      rw [hlength, Option.none_or] at h
      rw [Option.none_or, domainLength?_cut h hk]

end DhallSyntax.Host
