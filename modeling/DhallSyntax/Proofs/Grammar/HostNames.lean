import DhallSyntax.Proofs.Grammar.HostCut
import DhallSyntax.Proofs.Reading.Numbers

/-!
Hosts without brackets, told without the patterns that take them. Main statements:

* `mem_afterOctets`: the pattern of addresses finds every address at the beginning of a text and
  nothing else, and `head?_afterOctets`: it prefers to stop where no digit follows;
* `domainLength?_eq_length_iff`: the pattern of domain names takes domain names as a whole;
* `length?_eq_length_iff`: among the hosts, a domain name is taken as a whole exactly if it is an
  address or does not begin with one.
-/

namespace DhallSyntax.Host

open CharClass
open Numeral (digitsOf)

variable {s t r : List Char} {n : Nat}

/-! ## Octets -/

/-- The decimal notation of a number below 256. -/
def IsOctet (s : List Char) : Prop := ∃ n < 256, s = digitsOf n

/-- One to three digits, as they begin and as large as they may be. -/
def octetShape : List Char → Bool
  | [a] => digit a
  | [a, b] => '1' ≤ a && a ≤ '9' && digit b
  | [a, b, c] =>
    (a == '2' && b == '5' && '0' ≤ c && c ≤ '5') ||
      (a == '2' && '0' ≤ b && b ≤ '4' && digit c) || (a == '1' && digit b && digit c)
  | _ => false

theorem octetShape_digits (h : octetShape s = true) : ∀ c ∈ s, digit c = true := by
  match s with
  | [a] => exact List.forall_mem_singleton.mpr h
  | [a, b] =>
    simp only [octetShape, Bool.and_eq_true, decide_eq_true_eq, le_iff_toNat, digit_iff,
      Char.reduceToNat] at h
    simp only [List.forall_mem_cons, List.not_mem_nil, false_implies, implies_true, and_true,
      digit_iff]
    omega
  | [a, b, c] =>
    simp only [octetShape, Bool.or_eq_true, Bool.and_eq_true, beq_iff_eq, decide_eq_true_eq,
      le_iff_toNat, digit_iff, ← Char.toNat_inj, Char.reduceToNat] at h
    simp only [List.forall_mem_cons, List.not_mem_nil, false_implies, implies_true, and_true,
      digit_iff]
    omega
  | [] | _ :: _ :: _ :: _ :: _ => cases h

theorem exists_digitChar {c : Char} (h : digit c = true) : ∃ d < 10, c = Nat.digitChar d := by
  obtain ⟨hlt, he⟩ := Numeral.digitChar_sub ((digit_eq_isDigit c).symm.trans h)
  exact ⟨_, hlt, he.symm⟩

theorem isOctet_iff : IsOctet s ↔ octetShape s = true := by
  constructor
  · rintro ⟨n, hn, rfl⟩
    have hall : ∀ n < 256, octetShape (digitsOf n) = true := by decide +kernel
    exact hall n hn
  · intro h
    have hdigits : ∀ c ∈ s, ∃ d < 10, c = Nat.digitChar d :=
      fun c hc => exists_digitChar (octetShape_digits h c hc)
    match s with
    | [a] =>
      obtain ⟨d, hd, rfl⟩ := hdigits a (by simp)
      have hall : ∀ d < 10, [d.digitChar] = digitsOf d := by decide
      exact ⟨d, by omega, hall d hd⟩
    | [a, b] =>
      obtain ⟨d, hd, rfl⟩ := hdigits a (by simp)
      obtain ⟨e, he, rfl⟩ := hdigits b (by simp)
      have hall : ∀ d < 10, ∀ e < 10, octetShape [d.digitChar, e.digitChar] = true →
          [d.digitChar, e.digitChar] = digitsOf (10 * d + e) := by decide +kernel
      exact ⟨10 * d + e, by omega, hall d hd e he h⟩
    | [a, b, c] =>
      obtain ⟨d, hd, rfl⟩ := hdigits a (by simp)
      obtain ⟨e, he, rfl⟩ := hdigits b (by simp)
      obtain ⟨f, hf, rfl⟩ := hdigits c (by simp)
      have hall : ∀ d < 10, ∀ e < 10, ∀ f < 10,
          octetShape [d.digitChar, e.digitChar, f.digitChar] = true →
            100 * d + 10 * e + f < 256 ∧
              [d.digitChar, e.digitChar, f.digitChar] = digitsOf (100 * d + 10 * e + f) := by
        decide +kernel
      exact ⟨_, hall d hd e he f hf h⟩
    | [] | _ :: _ :: _ :: _ :: _ => cases h

/-- What precedes the text behind an octet is one. -/
theorem exists_octet (h : t ∈ afterOctet s) : ∃ octet, IsOctet octet ∧ s = octet ++ t := by
  simp only [isOctet_iff]
  match s with
  | a :: b :: c :: rest =>
    simp only [afterOctet, List.mem_append, List.mem_ite_nil_right, List.mem_singleton] at h
    obtain (⟨hc, rfl⟩ | ⟨hc, rfl⟩) | ⟨hc, rfl⟩ := h
    · exact ⟨[a, b, c], hc, rfl⟩
    · exact ⟨[a, b], hc, rfl⟩
    · exact ⟨[a], hc, rfl⟩
  | [a, b] =>
    simp only [afterOctet, List.mem_append, List.mem_ite_nil_right, List.mem_singleton] at h
    obtain ⟨hc, rfl⟩ | ⟨hc, rfl⟩ := h
    · exact ⟨[a, b], hc, rfl⟩
    · exact ⟨[a], hc, rfl⟩
  | [a] =>
    simp only [afterOctet, List.mem_ite_nil_right, List.mem_singleton] at h
    exact ⟨[a], h.1, by rw [h.2]; rfl⟩
  | [] => cases h

/-- Behind an octet anything may stand, digits too. -/
theorem mem_afterOctet_append {octet : List Char} (h : IsOctet octet) (t : List Char) :
    t ∈ afterOctet (octet ++ t) := by
  have hoctet := isOctet_iff.mp h
  have hmem := List.mem_singleton_self t
  match octet, t with
  | [a, b, c], _ =>
    simp only [List.cons_append, List.nil_append, afterOctet, List.mem_append,
      List.mem_ite_nil_right]
    exact .inl (.inl ⟨hoctet, hmem⟩)
  | [a, b], c :: _ =>
    simp only [List.cons_append, List.nil_append, afterOctet, List.mem_append,
      List.mem_ite_nil_right]
    exact .inl (.inr ⟨hoctet, hmem⟩)
  | [a], b :: c :: _ =>
    simp only [List.cons_append, List.nil_append, afterOctet, List.mem_append,
      List.mem_ite_nil_right]
    exact .inr ⟨hoctet, hmem⟩
  | [a, b], [] =>
    simp only [List.append_nil, afterOctet, List.mem_append, List.mem_ite_nil_right]
    exact .inl ⟨hoctet, hmem⟩
  | [a], [b] =>
    simp only [List.cons_append, List.nil_append, afterOctet, List.mem_append,
      List.mem_ite_nil_right]
    exact .inr ⟨hoctet, hmem⟩
  | [a], [] =>
    simp only [List.append_nil, afterOctet, List.mem_ite_nil_right]
    exact ⟨hoctet, hmem⟩
  | [], _ | _ :: _ :: _ :: _ :: _, _ => cases hoctet

theorem mem_afterOctet : t ∈ afterOctet s ↔ ∃ octet, IsOctet octet ∧ s = octet ++ t := by
  constructor
  · exact exists_octet
  · rintro ⟨octet, hoctet, rfl⟩
    exact mem_afterOctet_append hoctet t

/-- The longest octet is preferred. -/
theorem head?_afterOctet {octet : List Char} (h : IsOctet octet)
    (hr : r.head?.any digit = false) : (afterOctet (octet ++ r)).head? = some r := by
  obtain ⟨n, hn, rfl⟩ := h
  have hall : ∀ n < 256, (afterOctet (digitsOf n)).head? = some [] := by decide +kernel
  rw [afterOctet_append _ hr, List.head?_map, hall n hn]
  rfl

/-! ## Addresses -/

/-- A number of octets with a dot behind each, and one more octet. -/
inductive Octets : Nat → List Char → Prop where
  | last {octet : List Char} : IsOctet octet → Octets 0 octet
  | next {n : Nat} {octet octets : List Char} : IsOctet octet → Octets n octets →
      Octets (n + 1) (octet ++ '.' :: octets)

/-- Four octets, with dots between them. -/
abbrev IsIPv4Address : List Char → Prop := Octets 3

theorem mem_afterChar {c : Char} : t ∈ afterChar c s ↔ s = c :: t := by
  cases s with
  | nil => exact iff_of_false List.not_mem_nil (List.cons_ne_nil c t).symm
  | cons d s =>
    rw [afterChar, List.mem_ite_nil_right, List.mem_singleton, beq_iff_eq, List.cons.injEq]
    exact and_congr eq_comm eq_comm

theorem mem_afterOctets : t ∈ afterOctets n s ↔ ∃ octets, Octets n octets ∧ s = octets ++ t := by
  induction n generalizing s with
  | zero =>
    rw [afterOctets, mem_afterOctet]
    constructor
    · rintro ⟨octet, hoctet, rfl⟩
      exact ⟨octet, .last hoctet, rfl⟩
    · rintro ⟨_, ⟨hoctet⟩, rfl⟩
      exact ⟨_, hoctet, rfl⟩
  | succ n ih =>
    simp only [afterOctets, List.mem_flatMap, mem_afterOctet, mem_afterChar, ih]
    constructor
    · rintro ⟨_, ⟨octet, hoctet, rfl⟩, _, rfl, octets, hoctets, rfl⟩
      exact ⟨_, .next hoctet hoctets, (List.append_assoc octet ('.' :: octets) t).symm⟩
    · rintro ⟨_, ⟨_⟩, rfl⟩
      rename_i octet octets hoctet hoctets
      exact ⟨_, ⟨octet, hoctet, List.append_assoc ..⟩, _, rfl, octets, hoctets, rfl⟩

/-- Where no digit follows, the preferred reading ends. -/
theorem head?_afterOctets {octets : List Char} (h : Octets n octets)
    (hr : r.head?.any digit = false) : (afterOctets n (octets ++ r)).head? = some r := by
  induction h with
  | last hoctet => exact head?_afterOctet hoctet hr
  | @next n octet octets hoctet _ ih =>
    have hfirst := head?_afterOctet (r := '.' :: (octets ++ r)) hoctet rfl
    obtain ⟨others, hothers⟩ := List.head?_eq_some_iff.mp hfirst
    have hdot : afterChar '.' ('.' :: (octets ++ r)) = [octets ++ r] := rfl
    rw [List.append_assoc, List.cons_append, afterOctets, hothers, List.flatMap_cons, hdot,
      List.flatMap_singleton, List.head?_append, ih]
    rfl

theorem address_of_ipv4Length? (h : ipv4Length? s = some n) :
    n ≤ s.length ∧ IsIPv4Address (s.take n) := by
  obtain ⟨rest, hrest, rfl⟩ := Option.map_eq_some_iff.mp h
  obtain ⟨address, haddress, rfl⟩ := mem_afterOctets.mp (List.mem_of_head? hrest)
  refine ⟨Nat.sub_le _ _, ?_⟩
  rwa [List.length_append, Nat.add_sub_cancel_right, List.take_left]

theorem ipv4Length?_eq_none_iff :
    ipv4Length? s = none ↔ ∀ address, IsIPv4Address address → ¬ address <+: s := by
  rw [ipv4Length?, Option.map_eq_none_iff, List.head?_eq_none_iff, List.eq_nil_iff_forall_not_mem]
  simp only [afterIPv4, mem_afterOctets]
  constructor
  · rintro h address haddress ⟨rest, rfl⟩
    exact h rest ⟨address, haddress, rfl⟩
  · rintro h rest ⟨address, haddress, rfl⟩
    exact h address haddress (List.prefix_append _ _)

theorem ipv4Length?_eq_length_iff : ipv4Length? s = some s.length ↔ IsIPv4Address s := by
  constructor
  · intro h
    have haddress := (address_of_ipv4Length? h).2
    rwa [List.take_length] at haddress
  · intro h
    have hhead := head?_afterOctets (r := []) h rfl
    rw [List.append_nil] at hhead
    rw [ipv4Length?, afterIPv4, hhead]
    rfl

/-! ## Domain names -/

/-- Letters and digits, with hyphens between them. -/
structure IsDomainLabel (s : List Char) : Prop where
  first : s.head?.any alphanumeric = true
  last : s.getLast?.any alphanumeric = true
  chars : ∀ c ∈ s, alphanumeric c = true ∨ c = '-'

/-- What may follow the first label of a domain name: further labels, each with a dot in front, and
a dot at the very end. -/
inductive DomainTail : List Char → Prop where
  | nothing : DomainTail []
  | dot : DomainTail ['.']
  | next {label tail : List Char} : IsDomainLabel label → DomainTail tail →
      DomainTail ('.' :: (label ++ tail))

/-- Labels with dots between them, and perhaps a dot at the very end. -/
def IsDomainName (s : List Char) : Prop :=
  ∃ label tail, IsDomainLabel label ∧ DomainTail tail ∧ s = label ++ tail

theorem DomainTail.head (h : DomainTail t) : ∀ c ∈ t.head?, c = '.' := by
  cases h with
  | nothing => exact fun _ hc => nomatch hc
  | dot | next => exact fun _ hc => (Option.some.inj hc).symm

theorem labelLength_label (hyphens : Nat) (hlast : s.getLast?.any alphanumeric = true)
    (hchars : ∀ c ∈ s, alphanumeric c = true ∨ c = '-') (hr : ∀ c ∈ r.head?, c = '.') :
    labelLength hyphens (s ++ r) = hyphens + s.length := by
  induction s generalizing hyphens with
  | nil => cases hlast
  | cons c s ih =>
    obtain ⟨hc, hs⟩ := List.forall_mem_cons.mp hchars
    cases s with
    | nil =>
      have hstop : labelLength 0 r = 0 := by
        cases r with
        | nil => rfl
        | cons d r =>
          obtain rfl : d = '.' := hr d rfl
          rfl
      have hc : alphanumeric c = true := hlast
      rw [List.singleton_append, labelLength, if_pos hc, hstop]
      rfl
    | cons d s =>
      rw [List.getLast?_cons_cons] at hlast
      rw [List.cons_append, labelLength, ih 0 hlast hs, ih _ hlast hs, List.length_cons (a := c)]
      obtain hc | rfl := hc
      · rw [if_pos hc]
        omega
      · rw [if_neg (by decide), if_pos (by rfl)]
        omega

/-- What is taken as the rest of a label ends with a letter or a digit. -/
theorem take_labelLength {hyphens : Nat} (h : labelLength hyphens s ≠ 0) :
    (s.take (labelLength hyphens s - hyphens)).getLast?.any alphanumeric = true ∧
      ∀ c ∈ s.take (labelLength hyphens s - hyphens), alphanumeric c = true ∨ c = '-' := by
  induction s generalizing hyphens with
  | nil => exact absurd rfl h
  | cons c s ih =>
    -- What is taken behind a character that may stand in a label.
    have hcons : ∀ {taken : List Char}, alphanumeric c = true ∨ c = '-' →
        taken.getLast?.any alphanumeric = true ∧
          (∀ d ∈ taken, alphanumeric d = true ∨ d = '-') →
        (c :: taken).getLast?.any alphanumeric = true ∧
          ∀ d ∈ c :: taken, alphanumeric d = true ∨ d = '-' := by
      rintro taken hc ⟨hlast, hchars⟩
      refine ⟨?_, List.forall_mem_cons.mpr ⟨hc, hchars⟩⟩
      cases taken with
      | nil => cases hlast
      | cons d taken => rwa [List.getLast?_cons_cons]
    rw [labelLength] at h ⊢
    by_cases hc : alphanumeric c = true
    · rw [if_pos hc, show hyphens + 1 + labelLength 0 s - hyphens = labelLength 0 s + 1 by omega,
        List.take_succ_cons]
      by_cases hzero : labelLength 0 s = 0
      · rw [hzero, List.take_zero]
        exact ⟨hc, List.forall_mem_singleton.mpr (.inl hc)⟩
      · exact hcons (.inl hc) (ih hzero)
    · rw [if_neg hc] at h ⊢
      by_cases hhyphen : (c == '-') = true
      · rw [if_pos hhyphen] at h ⊢
        obtain hzero | hlt := labelLength_zero_or (hyphens + 1) s
        · exact absurd hzero h
        · rw [show labelLength (hyphens + 1) s - hyphens =
            labelLength (hyphens + 1) s - (hyphens + 1) + 1 by omega, List.take_succ_cons]
          exact hcons (.inr (beq_iff_eq.mp hhyphen)) (ih h)
      · rw [if_neg hhyphen] at h
        exact absurd rfl h

theorem domainLabel_take {c : Char} (hc : alphanumeric c = true) (s : List Char) :
    IsDomainLabel ((c :: s).take (labelLength 0 (c :: s))) := by
  have hlength : labelLength 0 (c :: s) = labelLength 0 s + 1 := by
    rw [labelLength, if_pos hc, Nat.zero_add, Nat.add_comm]
  have hne : labelLength 0 (c :: s) ≠ 0 := by omega
  obtain ⟨hlast, hchars⟩ := take_labelLength hne
  refine ⟨?_, hlast, hchars⟩
  rw [hlength, List.take_succ_cons]
  exact hc

theorem furtherLabelsLength_tail {bound : Nat} (h : DomainTail t) (hb : t.length ≤ bound) :
    furtherLabelsLength bound t = t.length := by
  induction h generalizing bound with
  | nothing => cases bound <;> rfl
  | dot =>
    cases bound with
    | zero => cases hb
    | succ bound => rfl
  | @next label tail hlabel htail ih =>
    obtain ⟨hfirst, hlast, hchars⟩ := hlabel
    obtain ⟨c, rest, rfl, hc⟩ := head?_of_any hfirst
    simp only [List.length_cons, List.length_append] at hb
    cases bound with
    | zero => cases hb
    | succ bound =>
      have hn := labelLength_label 0 hlast hchars htail.head
      rw [Nat.zero_add, List.cons_append] at hn
      simp only [List.cons_append, furtherLabelsLength, if_pos hc, hn]
      rw [← List.cons_append, List.drop_left, ih (by omega)]
      simp only [List.length_cons, List.length_append]
      omega

theorem domainTail_take (bound : Nat) (s : List Char) :
    DomainTail (s.take (furtherLabelsLength bound s)) := by
  induction bound generalizing s with
  | zero => exact .nothing
  | succ bound ih =>
    by_cases hdot : ∀ d ∈ s.head?, d ≠ '.'
    · rw [furtherLabelsLength_of_head hdot]
      exact .nothing
    · obtain ⟨rest, rfl⟩ : ∃ rest, s = '.' :: rest := by
        simpa [List.head?_eq_some_iff] using hdot
      cases rest with
      | nil => exact .dot
      | cons c rest =>
        simp only [furtherLabelsLength]
        by_cases hc : alphanumeric c = true
        · rw [if_pos hc, Nat.add_right_comm, List.take_succ_cons, List.take_add]
          exact .next (domainLabel_take hc rest) (ih _)
        · rw [if_neg hc]
          exact .dot

theorem domainLength?_eq_length_iff : domainLength? s = some s.length ↔ IsDomainName s := by
  constructor
  · intro h
    cases s with
    | nil => cases h
    | cons c rest =>
      rw [domainLength?] at h
      split at h
      · rename_i hc
        have htail := domainTail_take (c :: rest).length
          ((c :: rest).drop (labelLength 0 (c :: rest)))
        refine ⟨_, _, domainLabel_take hc rest, htail, ?_⟩
        rw [← List.take_add, Option.some.inj h, List.take_length]
      · cases h
  · rintro ⟨label, tail, ⟨hfirst, hlast, hchars⟩, htail, rfl⟩
    obtain ⟨c, rest, rfl, hc⟩ := head?_of_any hfirst
    have hn := labelLength_label 0 hlast hchars htail.head
    have hbound : tail.length ≤ (c :: rest ++ tail).length := by
      rw [List.length_append]
      omega
    have hfurther := furtherLabelsLength_tail htail hbound
    rw [Nat.zero_add, List.cons_append] at hn
    rw [List.cons_append] at hfurther
    simp only [List.cons_append, domainLength?, if_pos hc, hn]
    rw [← List.cons_append, List.drop_left, List.cons_append, hfurther]
    simp only [List.length_cons, List.length_append]
    congr 1
    omega

/-! ## Domain names among the hosts -/

theorem IsDomainName.head (h : IsDomainName s) : s.head?.any alphanumeric = true := by
  obtain ⟨label, tail, ⟨hfirst, -, -⟩, -, rfl⟩ := h
  obtain ⟨c, rest, rfl, hc⟩ := head?_of_any hfirst
  exact hc

/-- A domain name is taken as a whole exactly if it is an address or does not begin with one. -/
theorem length?_eq_length_iff (h : IsDomainName s) :
    length? s = some s.length ↔
      IsIPv4Address s ∨ ∀ address, IsIPv4Address address → ¬ address <+: s := by
  have hbracket : bracketedLength? s = none := by
    refine bracketedLength?_of_head fun c hc => ?_
    rintro rfl
    have hfirst := h.head
    rw [hc] at hfirst
    cases hfirst
  rw [length?, hbracket, Option.none_or, ← ipv4Length?_eq_none_iff]
  cases hlength : ipv4Length? s with
  | none =>
    rw [Option.none_or, domainLength?_eq_length_iff]
    exact iff_of_true h (.inr rfl)
  | some n =>
    rw [Option.some_or, ← ipv4Length?_eq_length_iff, hlength]
    exact (or_iff_left (Option.some_ne_none n)).symm

end DhallSyntax.Host
