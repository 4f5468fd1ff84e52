import DhallSyntax.Proofs.Grammar.HostNames

/-!
Hosts in brackets. The nine forms of an IPv6 address are one rule about the number of its groups:
eight without a gap, at most seven around one (`isIPv6_iff`). In brackets an address is taken as a
whole exactly if it follows this rule or is of a later version (`bracketed_address_iff`).
-/

namespace DhallSyntax.Host

open CharClass

variable {s t head tail : List Char} {m n bound : Nat} {quad : Bool}

/-! ## Addresses by their groups -/

/-- One to four hexadecimal digits. -/
structure IsGroup (s : List Char) : Prop where
  ne_nil : s ≠ []
  length_le : s.length ≤ 4
  digits : ∀ c ∈ s, hexDigit c = true

/-- A number of groups with single colons between them. With `quad` the last two of them may be
written as an IPv4 address. -/
inductive Groups (quad : Bool) : Nat → List Char → Prop where
  | nothing : Groups quad 0 []
  | last {s : List Char} : IsGroup s → Groups quad 1 s
  | address {s : List Char} : quad = true → IsIPv4Address s → Groups quad 2 s
  | next {n : Nat} {group rest : List Char} : IsGroup group → Groups quad (n + 1) rest →
      Groups quad (n + 2) (group ++ ':' :: rest)

/-- Eight groups, or at most seven with a gap somewhere. An IPv4 address stands behind the gap. -/
inductive IsIPv6Address : List Char → Prop where
  | whole {s : List Char} : Groups true 8 s → IsIPv6Address s
  | gap {m n : Nat} {head tail : List Char} : m + n ≤ 7 → Groups false m head →
      Groups true n tail → IsIPv6Address (head ++ ':' :: ':' :: tail)

/-- A later version of IP addresses, told by hexadecimal digits. -/
inductive IsIPvFutureAddress : List Char → Prop where
  | mk {version address : List Char} : version ≠ [] → (∀ c ∈ version, hexDigit c = true) →
      address ≠ [] → (∀ c ∈ address, userinfoChar c = true) →
      IsIPvFutureAddress ('v' :: (version ++ '.' :: address))

theorem isGroup_iff : isGroup s = true ↔ IsGroup s := by
  simp only [isGroup, Bool.and_eq_true, decide_eq_true_eq, List.all_eq_true]
  constructor
  · rintro ⟨⟨hpos, hle⟩, hdigits⟩
    exact ⟨List.ne_nil_of_length_pos hpos, hle, hdigits⟩
  · rintro ⟨hne, hle, hdigits⟩
    exact ⟨⟨List.length_pos_iff.mpr hne, hle⟩, hdigits⟩

theorem isIPv4_iff : isIPv4 s = true ↔ IsIPv4Address s := by
  rw [isIPv4, List.any_eq_true]
  constructor
  · rintro ⟨t, ht, hempty⟩
    obtain ⟨address, haddress, rfl⟩ := mem_afterOctets.mp ht
    rwa [List.isEmpty_iff.mp hempty, List.append_nil]
  · intro h
    exact ⟨[], mem_afterOctets.mpr ⟨s, h, (List.append_nil s).symm⟩, rfl⟩

theorem IsIPv4Address.hostChar (h : IsIPv4Address s) : ∀ c ∈ s, hostChar c = true := by
  obtain ⟨octets, hs, hchars⟩ :=
    afterOctets_suffix (mem_afterOctets.mpr ⟨s, h, (List.append_nil s).symm⟩)
  rwa [hs, List.append_nil]

theorem IsGroup.colon (h : IsGroup s) : ':' ∉ s :=
  fun hmem => absurd (h.digits ':' hmem) (by decide)

theorem Groups.chars (h : Groups quad n s) : ∀ c ∈ s, hostChar c = true ∨ c = ':' := by
  have hgroup : ∀ {s}, IsGroup s → ∀ c ∈ s, hostChar c = true ∨ c = ':' := fun h c hc => by
    have hhex := h.digits c hc
    simp only [hexDigit_iff] at hhex
    refine .inl ?_
    simp only [hostChar, alphanumeric, Bool.or_eq_true, alpha_iff, digit_iff]
    omega
  induction h with
  | nothing =>
    intro c hc
    cases hc
  | last h => exact hgroup h
  | address _ h => exact fun c hc => .inl (h.hostChar c hc)
  | next h _ ih =>
    intro c hc
    obtain hc | hc := List.mem_append.mp hc
    · exact hgroup h c hc
    · obtain rfl | hc := List.mem_cons.mp hc
      · exact .inr rfl
      · exact ih c hc

/-! ## Splits -/

theorem splitColon?_eq_some_iff :
    splitColon? s = some (head, tail) ↔ s = head ++ ':' :: tail ∧ ':' ∉ head := by
  fun_induction splitColon? s generalizing head with
  | case1 => simp
  | case2 rest =>
    cases head with
    | nil => simp [eq_comm]
    | cons d head =>
      refine iff_of_false (by simp) ?_
      rintro ⟨hs, hmem⟩
      obtain ⟨rfl, -⟩ := List.cons.inj hs
      exact hmem List.mem_cons_self
  | case3 c rest hc ih =>
    have hc : c ≠ ':' := fun h => hc h
    cases head with
    | nil => simp [hc]
    | cons d head =>
      simp only [Option.map_eq_some_iff, Prod.exists, Prod.mk.injEq, List.cons.injEq,
        List.cons_append, List.mem_cons, not_or]
      constructor
      · rintro ⟨front, behind, hsplit, ⟨rfl, rfl⟩, rfl⟩
        obtain ⟨hrest, hfront⟩ := ih.mp hsplit
        exact ⟨⟨rfl, hrest⟩, hc.symm, hfront⟩
      · rintro ⟨⟨rfl, hrest⟩, -, hfront⟩
        exact ⟨head, tail, ih.mpr ⟨hrest, hfront⟩, ⟨rfl, rfl⟩, rfl⟩

theorem splitGap?_eq_some (h : splitGap? s = some (head, tail)) :
    s = head ++ ':' :: ':' :: tail := by
  fun_induction splitGap? s generalizing head with
  | case1 => cases h
  | case2 rest =>
    cases h
    rfl
  | case3 c rest _ ih =>
    obtain ⟨⟨front, behind⟩, hsplit, hpair⟩ := Option.map_eq_some_iff.mp h
    cases hpair
    rw [ih hsplit, List.cons_append]

theorem splitGap?_append (hhead : ':' ∉ s) (h : splitGap? t = some (head, tail)) :
    splitGap? (s ++ t) = some (s ++ head, tail) := by
  induction s with
  | nil => exact h
  | cons c s ih =>
    obtain ⟨hc, hs⟩ := not_or.mp (mt List.mem_cons.mpr hhead)
    rw [List.cons_append, splitGap?, ih hs]
    · rfl
    · exact fun _ h => absurd h.symm hc

theorem splitGap?_colon {c : Char} (hc : c ≠ ':') (h : splitGap? (c :: s) = some (head, tail)) :
    splitGap? (':' :: c :: s) = some (':' :: head, tail) := by
  rw [splitGap?, h]
  · rfl
  · exact fun _ _ h => hc (List.cons.inj h).1

theorem IsGroup.exists_cons (h : IsGroup s) : ∃ c rest, s = c :: rest ∧ c ≠ ':' := by
  obtain ⟨c, rest, rfl⟩ := List.exists_cons_of_ne_nil h.ne_nil
  exact ⟨c, rest, rfl, fun hc => h.colon (hc ▸ List.mem_cons_self)⟩

theorem Groups.exists_cons (h : Groups false (n + 1) s) : ∃ c rest, s = c :: rest ∧ c ≠ ':' := by
  cases h with
  | last h => exact h.exists_cons
  | address hquad => cases hquad
  | @next _ group rest h _ =>
    obtain ⟨c, group, rfl, hc⟩ := h.exists_cons
    exact ⟨c, group ++ ':' :: rest, rfl, hc⟩

/-- Groups end where the gap behind them begins. -/
theorem splitGap?_groups (h : Groups false m head) (tail : List Char) :
    splitGap? (head ++ ':' :: ':' :: tail) = some (head, tail) := by
  induction h with
  | nothing => rfl
  | last h =>
    have hsplit := splitGap?_append (t := ':' :: ':' :: tail) h.colon rfl
    rwa [List.append_nil] at hsplit
  | address hquad => cases hquad
  | next hgroup hrest ih =>
    obtain ⟨c, rest, rfl, hc⟩ := hrest.exists_cons
    rw [List.append_assoc]
    exact splitGap?_append hgroup.colon (splitGap?_colon hc ih)

/-! ## The forms of an address -/

theorem groups_zero_iff : Groups quad 0 s ↔ s = [] := by
  constructor
  · rintro ⟨⟩
    rfl
  · rintro rfl
    exact .nothing

theorem groups_one_iff : Groups quad 1 s ↔ IsGroup s := by
  constructor
  · rintro ⟨⟩
    assumption
  · exact .last

/-- Two groups or more begin with a group and a colon, or are an address. -/
theorem groups_iff : Groups quad (n + 2) s ↔
    (n = 0 ∧ quad = true ∧ IsIPv4Address s) ∨
      ∃ group rest, splitColon? s = some (group, rest) ∧ IsGroup group ∧
        Groups quad (n + 1) rest := by
  constructor
  · intro h
    cases h with
    | address hquad h => exact .inl ⟨rfl, hquad, h⟩
    | next hgroup hrest =>
      exact .inr ⟨_, _, splitColon?_eq_some_iff.mpr ⟨rfl, hgroup.colon⟩, hgroup, hrest⟩
  · rintro (⟨rfl, hquad, h⟩ | ⟨group, rest, hsplit, hgroup, hrest⟩)
    · exact .address hquad h
    · obtain ⟨rfl, -⟩ := splitColon?_eq_some_iff.mp hsplit
      exact .next hgroup hrest

theorem isGroupsUpTo_iff :
    isGroupsUpTo bound s = true ↔ ∃ m, 0 < m ∧ m ≤ bound ∧ Groups false m s := by
  induction bound generalizing s with
  | zero =>
    refine iff_of_false Bool.false_ne_true ?_
    rintro ⟨m, hpos, hle, -⟩
    omega
  | succ bound ih =>
    rw [isGroupsUpTo]
    cases hsplit : splitColon? s with
    | none =>
      rw [isGroup_iff]
      constructor
      · exact fun h => ⟨1, by omega, by omega, .last h⟩
      · rintro ⟨m, hpos, -, h⟩
        match m with
        | 1 => exact groups_one_iff.mp h
        | m + 2 =>
          obtain ⟨-, hquad, -⟩ | ⟨_, _, hsome, -⟩ := groups_iff.mp h
          · cases hquad
          · exact absurd (hsplit.symm.trans hsome) nofun
    | some parts =>
      obtain ⟨group, rest⟩ := parts
      rw [Bool.and_eq_true, isGroup_iff, ih]
      constructor
      · rintro ⟨hgroup, m, hpos, hle, hrest⟩
        obtain ⟨m, rfl⟩ := Nat.exists_eq_add_one.mpr hpos
        exact ⟨m + 2, by omega, by omega, groups_iff.mpr (.inr ⟨_, _, hsplit, hgroup, hrest⟩)⟩
      · rintro ⟨m, hpos, hle, h⟩
        match m with
        | 1 =>
          obtain ⟨rfl, -⟩ := splitColon?_eq_some_iff.mp hsplit
          exact absurd (List.mem_append_right _ List.mem_cons_self) (groups_one_iff.mp h).colon
        | m + 2 =>
          obtain ⟨-, hquad, -⟩ | ⟨_, _, hsome, hgroup, hrest⟩ := groups_iff.mp h
          · cases hquad
          · cases hsplit.symm.trans hsome
            exact ⟨hgroup, m + 1, by omega, by omega, hrest⟩

theorem accepts_lastTwo_iff : Ending.lastTwo.accepts s = true ↔ Groups true 2 s := by
  rw [groups_iff, Ending.accepts, Bool.or_eq_true, isIPv4_iff]
  refine or_congr (by simp) ?_
  simp only [Nat.zero_add, groups_one_iff]
  cases hsplit : splitColon? s with
  | none => exact iff_of_false Bool.false_ne_true nofun
  | some parts =>
    obtain ⟨group, rest⟩ := parts
    simp only [Bool.and_eq_true, isGroup_iff]
    constructor
    · exact fun h => ⟨group, rest, rfl, h⟩
    · rintro ⟨_, _, hparts, h⟩
      cases hparts
      exact h

namespace AddressForm

/-- The form with a gap in front of a number of groups. -/
def behindGap : Nat → AddressForm
  | 0 => ⟨some 7, 0, .nothing⟩
  | 1 => ⟨some 6, 0, .lastOne⟩
  | n + 2 => ⟨some (5 - n), n, .lastTwo⟩

/-- The forms follow one rule, from no group behind the gap to seven. -/
theorem addressForms_eq :
    addressForms = ⟨none, 6, .lastTwo⟩ :: (List.range 8).reverse.map behindGap := by
  rfl

theorem acceptsRest_succ {before : Option Nat} {ending : Ending} :
    acceptsRest ⟨before, n + 1, ending⟩ s = true ↔
      ∃ group rest, splitColon? s = some (group, rest) ∧ IsGroup group ∧
        acceptsRest ⟨before, n, ending⟩ rest = true := by
  simp only [acceptsRest, afterGroups?]
  cases hsplit : splitColon? s with
  | none => exact iff_of_false Bool.false_ne_true nofun
  | some parts =>
    obtain ⟨group, rest⟩ := parts
    rw [Option.bind_eq_bind, Option.bind_some]
    by_cases hgroup : isGroup group = true
    · simp only [if_pos hgroup]
      constructor
      · exact fun h => ⟨group, rest, rfl, isGroup_iff.mp hgroup, h⟩
      · rintro ⟨_, _, hparts, -, h⟩
        cases hparts
        exact h
    · simp only [if_neg hgroup]
      refine iff_of_false Bool.false_ne_true ?_
      rintro ⟨_, _, hparts, h, -⟩
      cases hparts
      exact hgroup (isGroup_iff.mpr h)

theorem acceptsRest_lastTwo_iff {before : Option Nat} :
    acceptsRest ⟨before, n, .lastTwo⟩ s = true ↔ Groups true (n + 2) s := by
  induction n generalizing s with
  | zero => exact accepts_lastTwo_iff
  | succ n ih =>
    rw [groups_iff, or_iff_right (fun h => Nat.succ_ne_zero n h.1), acceptsRest_succ]
    simp only [ih]

theorem acceptsRest_behindGap_iff :
    (behindGap n).acceptsRest s = true ↔ Groups true n s := by
  match n with
  | 0 => exact List.isEmpty_iff.trans groups_zero_iff.symm
  | 1 => exact isGroup_iff.trans groups_one_iff.symm
  | n + 2 => exact acceptsRest_lastTwo_iff

theorem before_behindGap (h : n < 8) : (behindGap n).before = some (7 - n) := by
  match n with
  | 0 | 1 => rfl
  | n + 2 => exact congrArg some (by omega)

theorem accepts_behindGap_iff (h : n < 8) :
    (behindGap n).accepts s = true ↔
      ∃ m head tail, m + n ≤ 7 ∧ Groups false m head ∧ Groups true n tail ∧
        s = head ++ ':' :: ':' :: tail := by
  simp only [accepts, before_behindGap h]
  constructor
  · intro haccepts
    cases hsplit : splitGap? s with
    | none =>
      rw [hsplit] at haccepts
      cases haccepts
    | some parts =>
      obtain ⟨head, tail⟩ := parts
      rw [hsplit] at haccepts
      simp only [Bool.and_eq_true, Bool.or_eq_true, List.isEmpty_iff, isGroupsUpTo_iff,
        acceptsRest_behindGap_iff] at haccepts
      obtain ⟨rfl | ⟨m, -, hle, hhead⟩, htail⟩ := haccepts
      · exact ⟨0, [], tail, by omega, .nothing, htail, splitGap?_eq_some hsplit⟩
      · exact ⟨m, head, tail, by omega, hhead, htail, splitGap?_eq_some hsplit⟩
  · rintro ⟨m, head, tail, hle, hhead, htail, rfl⟩
    rw [splitGap?_groups hhead]
    simp only [Bool.and_eq_true, Bool.or_eq_true, List.isEmpty_iff, isGroupsUpTo_iff,
      acceptsRest_behindGap_iff]
    refine ⟨?_, htail⟩
    obtain rfl | hpos := Nat.eq_zero_or_pos m
    · exact .inl (groups_zero_iff.mp hhead)
    · exact .inr ⟨m, hpos, by omega, hhead⟩

end AddressForm

theorem isIPv6_iff : isIPv6 s = true ↔ IsIPv6Address s := by
  rw [isIPv6, AddressForm.addressForms_eq, List.any_cons, Bool.or_eq_true, List.any_eq_true]
  simp only [List.mem_map, List.mem_reverse, List.mem_range]
  constructor
  · rintro (h | ⟨_, ⟨n, hn, rfl⟩, h⟩)
    · exact .whole (AddressForm.acceptsRest_lastTwo_iff.mp h)
    · obtain ⟨m, head, tail, hle, hhead, htail, rfl⟩ := (AddressForm.accepts_behindGap_iff hn).mp h
      exact .gap hle hhead htail
  · intro h
    cases h with
    | whole h => exact .inl (AddressForm.acceptsRest_lastTwo_iff.mpr h)
    | @gap m n head tail hle hhead htail =>
      have hn : n < 8 := by omega
      exact .inr ⟨_, ⟨n, hn, rfl⟩,
        (AddressForm.accepts_behindGap_iff hn).mpr ⟨m, head, tail, hle, hhead, htail, rfl⟩⟩

theorem isIPvFuture_iff : isIPvFuture s = true ↔ IsIPvFutureAddress s := by
  constructor
  · intro h
    unfold isIPvFuture at h
    split at h
    next rest =>
      simp only [Bool.and_eq_true, Bool.not_eq_true', List.isEmpty_eq_false_iff] at h
      obtain ⟨hversion, h⟩ := h
      split at h
      next address hrest =>
        simp only [Bool.and_eq_true, Bool.not_eq_true', List.isEmpty_eq_false_iff,
          List.all_eq_true] at h
        rw [← List.takeWhile_append_dropWhile (p := hexDigit) (l := rest), hrest]
        exact .mk hversion (List.all_eq_true.mp List.all_takeWhile) h.1 h.2
      next => cases h
    next => cases h
  · intro h
    cases h with
    | @mk version address hversion hhex haddress hchars =>
      have htake : (version ++ '.' :: address).takeWhile hexDigit = version := by
        rw [List.takeWhile_append_of_pos hhex, List.takeWhile_cons_of_neg (by decide),
          List.append_nil]
      have hdrop : (version ++ '.' :: address).dropWhile hexDigit = '.' :: address := by
        rw [List.dropWhile_append_of_pos hhex, List.dropWhile_cons_of_neg (by decide)]
      simp only [isIPvFuture, htake, hdrop, Bool.and_eq_true, Bool.not_eq_true',
        List.isEmpty_eq_false_iff, List.all_eq_true]
      exact ⟨hversion, haddress, hchars⟩

/-! ## In brackets -/

theorem IsIPv6Address.bracket (h : IsIPv6Address s) : ']' ∉ s := by
  have hgroups : ∀ {quad n s}, Groups quad n s → ']' ∉ s := fun h hmem =>
    absurd (h.chars ']' hmem) (by decide)
  cases h with
  | whole h => exact hgroups h
  | gap _ hhead htail => simp [hgroups hhead, hgroups htail]

theorem IsIPvFutureAddress.bracket (h : IsIPvFutureAddress s) : ']' ∉ s := by
  cases h with
  | @mk version address _ hhex _ hchars =>
    have hversion : ']' ∉ version := fun hmem => absurd (hhex ']' hmem) (by decide)
    have haddress : ']' ∉ address := fun hmem => absurd (hchars ']' hmem) (by decide)
    simp [hversion, haddress]

/-- A host that begins with a bracket is an address in brackets. -/
theorem length?_bracket (s : List Char) : length? ('[' :: s) = bracketedLength? ('[' :: s) := by
  have hipv4 : ipv4Length? ('[' :: s) = none := ipv4Length?_of_head (by rfl)
  have hdomain : domainLength? ('[' :: s) = none := by
    rw [domainLength?, if_neg (by decide)]
  rw [length?, hipv4, hdomain, Option.or_none, Option.or_none]

theorem bracketedLength?_eq_iff (s rest : List Char) :
    bracketedLength? ('[' :: (s ++ ']' :: rest)) = some (s.length + 2) ↔
      IsIPvFutureAddress s ∨ IsIPv6Address s := by
  rw [← isIPv6_iff, ← isIPvFuture_iff, or_comm, ← Bool.or_eq_true]
  by_cases hbracket : ']' ∈ s
  · -- The brackets close too early.
    refine iff_of_false (fun h => ?_) (fun h => ?_)
    · simp only [bracketedLength?] at h
      split at h
      · have hlength := Option.some.inj h
        rw [List.takeWhile_append] at hlength
        split at hlength
        next hall =>
          have hprefix := (List.takeWhile_prefix (l := s) (· != ']')).eq_of_length hall
          rw [← hprefix] at hbracket
          exact absurd (List.all_eq_true.mp List.all_takeWhile _ hbracket) (by decide)
        next hall => omega
      · cases h
    · rw [Bool.or_eq_true, isIPv6_iff, isIPvFuture_iff] at h
      exact h.elim (fun h => h.bracket hbracket) (fun h => h.bracket hbracket)
  · have hall : ∀ c ∈ s, (c != ']') = true := fun c hc => by
      rw [bne_iff_ne]
      rintro rfl
      exact hbracket hc
    have htake : (s ++ ']' :: rest).takeWhile (· != ']') = s := by
      rw [List.takeWhile_append_of_pos hall, List.takeWhile_cons_of_neg (by decide),
        List.append_nil]
    have hlt : s.length < (s ++ ']' :: rest).length := by
      rw [List.length_append, List.length_cons]
      omega
    simp only [bracketedLength?, htake, hlt, decide_true, Bool.true_and]
    cases isIPv6 s || isIPvFuture s <;> simp

/-- What stands in brackets is taken as a whole exactly if it is an IPv6 address or a later one,
by the pattern of brackets and among the hosts, whatever follows. -/
theorem bracketed_address_iff (s rest : List Char) :
    (bracketedLength? ('[' :: (s ++ ']' :: rest)) = some (s.length + 2) ↔
      IsIPvFutureAddress s ∨ IsIPv6Address s) ∧
    (length? ('[' :: (s ++ ']' :: rest)) = some (s.length + 2) ↔
      IsIPvFutureAddress s ∨ IsIPv6Address s) := by
  rw [length?_bracket]
  exact ⟨bracketedLength?_eq_iff s rest, bracketedLength?_eq_iff s rest⟩

end DhallSyntax.Host
