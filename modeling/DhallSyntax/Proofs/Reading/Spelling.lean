import DhallSyntax.Proofs.Grammar.HostCut
import DhallSyntax.Proofs.Reading.Addresses
import DhallSyntax.Proofs.Reading.Yields

/-!
Addresses that are read stand in the source as they are spelled. Each part of a URL and each
component of a path has taken the characters it is made of and the marks around them, and no
others. Main statements:

* `exists_parts`: the path of a URL is read from its components, some of which stand in quotes;
* `spelled_of_read`: a URL is read from its spelling, and its parts are such that it can be written.
-/

namespace DhallSyntax

open Grammar CharClass
open Rendering (word)

variable {rules : RuleReader} {s t : List Char}

/-! ## Marks and runs -/

theorem expect_eq_value {literal : String} {a : Unit}
    (h : (expect literal).readBy rules s = .value a t) : s = literal.toList ++ t := by
  rw [readBy_expect] at h
  split at h
  · rename_i hp
    obtain ⟨u, rfl⟩ := List.isPrefixOf_iff_prefix.mp hp
    rw [List.drop_left] at h
    rw [(Reading.value.inj h).2]
  · cases h

theorem takeWhile1_eq_value {chars : CharClass} {expected : String} {run : List Char}
    (h : (takeWhile1 chars expected).readBy rules s = .value run t) :
    run ≠ [] ∧ (∀ c ∈ run, chars c = true) ∧ s = run ++ t := by
  obtain ⟨hne, hall⟩ := yields_takeWhile1 chars expected s run t h
  refine ⟨hne, hall, ?_⟩
  rw [readBy_takeWhile1] at h
  split at h
  · cases h
  · cases h
    exact List.takeWhile_append_dropWhile.symm

theorem takeLength_eq_value {length : List Char → Nat} (hle : length s ≤ s.length) {a : String}
    (h : (takeLength length).readBy rules s = .value a t) :
    s = a.toList ++ t ∧ length (a.toList ++ t) = a.toList.length := by
  simp only [takeLength, readBy_bind, readBy_look, readBy_advance, readBy_pure, Reading.bind_value]
    at h
  obtain ⟨rfl, rfl⟩ := Reading.value.inj h
  have hs : s.take (length s) ++ s.drop (s.take (length s)).length = s := by
    rw [List.length_take, Nat.min_eq_left hle, List.take_append_drop]
  rw [String.toList_ofList, hs]
  exact ⟨rfl, by rw [List.length_take, Nat.min_eq_left hle]⟩

/-- A part behind a mark has taken the mark, if it is there. -/
theorem marked_eq_value {mark : String} {length : List Char → Nat}
    (hle : ∀ s, length s ≤ s.length) {a : Option String}
    (h : (marked mark length).readBy rules s = .value a t) :
    s = (a.elim [] fun text => mark.toList ++ text.toList) ++ t ∧
      ∀ text, a = some text → length (text.toList ++ t) = text.toList.length := by
  obtain ⟨u, rfl, hmarked⟩ | ⟨-, hnone⟩ := readBy_accept_eq_value h
  · obtain ⟨text, v, htext, hvalue⟩ := Reading.bind_eq_value.mp hmarked
    obtain ⟨rfl, rfl⟩ := Reading.value.inj hvalue
    obtain ⟨rfl, hlength⟩ := takeLength_eq_value (hle u) htext
    refine ⟨(List.append_assoc ..).symm, ?_⟩
    rintro _ ⟨⟩
    exact hlength
  · obtain ⟨rfl, rfl⟩ := Reading.value.inj hnone
    exact ⟨rfl, fun _ he => by cases he⟩

theorem takeWhile_length {chars : CharClass} {w : List Char}
    (h : ((w ++ t).takeWhile chars).length = w.length) :
    (∀ c ∈ w, chars c = true) ∧ t.head?.any chars = false := by
  have hw : (w ++ t).takeWhile chars = w :=
    (List.prefix_of_prefix_length_le (List.takeWhile_prefix _) (List.prefix_append w t)
      (Nat.le_of_eq h)).eq_of_length h
  have hall : ∀ c ∈ w, chars c = true := fun c hc =>
    mem_takeWhile (s := w ++ t) (hw.symm ▸ hc)
  refine ⟨hall, ?_⟩
  rw [List.takeWhile_append_of_pos hall, List.append_right_eq_self] at hw
  cases t with
  | nil => rfl
  | cons c t =>
    cases hc : chars c with
    | false => exact hc
    | true =>
      rw [List.takeWhile_cons_of_pos hc] at hw
      cases hw

/-! ## Components -/

theorem exists_part_of_component {a : String}
    (h : pathComponent.readBy rules s = .value a t) :
    ∃ part : PathPart, part.Valid ∧ part.text = a ∧ a ≠ "" ∧ s = part.chars ++ t := by
  obtain ⟨_, u, hslash, hbehind⟩ := Reading.bind_eq_value.mp h
  obtain rfl := expect_eq_value hslash
  obtain ⟨v, rfl, hquoted⟩ | ⟨-, hplain⟩ := readBy_accept_eq_value hbehind
  · obtain ⟨run, w, hrun, hclosed⟩ := Reading.bind_eq_value.mp hquoted
    obtain ⟨_, x, hquote, hvalue⟩ := Reading.bind_eq_value.mp hclosed
    obtain ⟨rfl, rfl⟩ := Reading.value.inj hvalue
    obtain ⟨hne, hall, rfl⟩ := takeWhile1_eq_value hrun
    obtain rfl := expect_eq_value hquote
    have hempty : String.ofList run ≠ "" := mt String.ofList_eq_empty_iff.mp hne
    refine ⟨.quoted (String.ofList run), ⟨hempty, ?_⟩, rfl, hempty, ?_⟩
    · rwa [String.toList_ofList]
    · simp [PathPart.chars]
  · obtain ⟨run, w, hrun, hvalue⟩ := Reading.bind_eq_value.mp hplain
    obtain ⟨rfl, rfl⟩ := Reading.value.inj hvalue
    obtain ⟨hne, hall, rfl⟩ := takeWhile1_eq_value hrun
    have hempty : String.ofList run ≠ "" := mt String.ofList_eq_empty_iff.mp hne
    refine ⟨.plain (String.ofList run), ?_, rfl, hempty, ?_⟩
    · rwa [PathPart.Valid, String.toList_ofList]
    · simp [PathPart.chars]

/-- What a component is read from is read as one: a slash, and then a character of a path or a
quote. -/
theorem head_of_no_component (h : pathComponent.readBy rules ('/' :: t) = .mismatch) :
    t.head?.any path = false := by
  cases hpath : t.head?.any path with
  | false => rfl
  | true =>
    obtain ⟨c, u, rfl, hc⟩ := head?_of_any hpath
    have hslash : (expect "/").readBy rules ('/' :: c :: u) = .value () (c :: u) := rfl
    have hquote : "\"".toList.isPrefixOf (c :: u) = false :=
      isPrefixOf_of_head_ne (by rintro d ⟨⟩; exact (path_ne hc).2)
    simp only [Grammar.pathComponent, readBy_bind, hslash, Reading.bind_value, readBy_accept,
      hquote, Bool.false_eq_true, if_false, readBy_takeWhile1, List.takeWhile_cons_of_pos hc,
      List.isEmpty_cons, readBy_pure] at h
    cases h

theorem path_of_segmentChar {c : Char} (h : Host.segmentChar c = true) : path c = true := by
  simp only [Host.segmentChar, Host.userinfoChar, Host.unreserved, Host.subDelimiter, alphanumeric,
    Bool.or_eq_true, alpha_iff, digit_iff, beq_iff_eq, List.contains_iff_mem, ← Char.toNat_inj,
    Char.reduceToNat] at h
  rw [path_iff]
  simp [← Char.toNat_inj] at h ⊢
  omega

/-- A segment begins with a character that a component may begin with too. -/
theorem runLength_segment_of_head (h : t.head?.any path = false) :
    Host.runLength Host.segmentChar t = 0 := by
  cases t with
  | nil => rfl
  | cons c t =>
    have hc : path c = false := h
    have hpercent : c ≠ '%' := by
      rintro rfl
      cases hc
    have hsegment : Host.segmentChar c = false := by
      refine Bool.eq_false_iff.mpr fun hs => ?_
      rw [path_of_segmentChar hs] at hc
      cases hc
    rw [Host.runLength_cons hpercent, hsegment, if_neg Bool.false_ne_true]

/-- A component of the path of a URL, which may be empty. -/
theorem exists_part_of_segment {a : String} (h : urlComponent.readBy rules s = .value a t) :
    ∃ part : PathPart, part.Valid ∧ part.text = a ∧ s = part.chars ++ t := by
  simp only [urlComponent, readBy_bind, readBy_look, Reading.bind_value] at h
  split at h
  · rename_i hslash
    obtain h | ⟨hmiss, h⟩ := Reading.orElse_eq_value.mp h
    · obtain ⟨part, hvalid, htext, -, hs⟩ := exists_part_of_component h
      exact ⟨part, hvalid, htext, hs⟩
    · obtain ⟨u, rfl⟩ := List.head?_eq_some_iff.mp (beq_iff_eq.mp hslash)
      have hzero := runLength_segment_of_head (head_of_no_component hmiss)
      have hrun : (takeLength (Host.runLength Host.segmentChar)).readBy rules u = .value a t := h
      obtain ⟨rfl, hlength⟩ := takeLength_eq_value (Host.runLength_le _ u) hrun
      have hnil : a.toList = [] := List.eq_nil_of_length_eq_zero (hlength.symm.trans hzero)
      refine ⟨.plain a, ?_, rfl, rfl⟩
      rw [PathPart.Valid, hnil]
      exact List.forall_mem_nil _
  · cases h

/-- The path of a URL is read from its components. -/
theorem exists_parts {path : List String} (h : urlPath.readBy rules s = .value path t) :
    ∃ parts, PathPart.Spell parts path ∧ s = parts.flatMap PathPart.chars ++ t := by
  obtain ⟨reversed, u, hfold, hvalue⟩ := Reading.bind_eq_value.mp h
  obtain ⟨rfl, rfl⟩ := Reading.value.inj hvalue
  -- The components that are still to come, in front of what has been read.
  have hrounds : ∃ parts : List PathPart, (∀ part ∈ parts, part.Valid) ∧
      reversed = (parts.map PathPart.text).reverse ++ [] ∧
      s = parts.flatMap PathPart.chars ++ u := by
    refine Reading.iterateWithin_induction (P := fun done s => ∃ parts : List PathPart,
      (∀ part ∈ parts, part.Valid) ∧ reversed = (parts.map PathPart.text).reverse ++ done ∧
        s = parts.flatMap PathPart.chars ++ u) ?_ ?_ hfold
    · intro done s hlast
      have hlast : (foldStep urlComponent (fun values value => value :: values) done).readBy rules
          s = .value (.inr reversed) u := hlast
      obtain ⟨a, -, ⟨⟩⟩ | ⟨-, hdone, rfl⟩ := foldStep_eq_value hlast
      exact ⟨[], List.forall_mem_nil _, Sum.inr.inj hdone, rfl⟩
    · rintro done s done' s' hnext ⟨parts, hvalid, hreversed, rfl⟩
      have hnext : (foldStep urlComponent (fun values value => value :: values) done).readBy rules
          s = .value (.inl done') (parts.flatMap PathPart.chars ++ u) := hnext
      obtain ⟨a, hpart, hdone⟩ | ⟨-, ⟨⟩, -⟩ := foldStep_eq_value hnext
      obtain ⟨part, hpartValid, rfl, rfl⟩ := exists_part_of_segment hpart
      refine ⟨part :: parts, List.forall_mem_cons.mpr ⟨hpartValid, hvalid⟩, ?_, ?_⟩
      · rw [hreversed, Sum.inl.inj hdone, List.map_cons, List.reverse_cons, List.append_assoc,
          List.singleton_append]
      · rw [List.flatMap_cons, List.append_assoc]
  obtain ⟨parts, hvalid, hreversed, hs⟩ := hrounds
  refine ⟨parts, ⟨?_, hvalid⟩, hs⟩
  rw [hreversed, List.append_nil, List.reverse_reverse]

/-! ## URLs -/

theorem scheme_eq_value {a : Scheme} (h : scheme.readBy rules s = .value a t) :
    s = a.text.toList ++ t := by
  obtain ⟨u, rfl, hvalue⟩ | ⟨-, hplain⟩ := readBy_accept_eq_value h
  · obtain ⟨rfl, rfl⟩ := Reading.value.inj hvalue
    rfl
  · obtain ⟨_, u, hexpect, hvalue⟩ := Reading.bind_eq_value.mp hplain
    obtain ⟨rfl, rfl⟩ := Reading.value.inj hvalue
    exact expect_eq_value hexpect

theorem userinfo_eq_value {a : Option String} (h : userinfo.readBy rules s = .value a t) :
    s = (a.elim [] fun user => user.toList ++ ['@']) ++ t ∧
      ∀ user, a = some user →
        Host.runLength Host.userinfoChar user.toList = user.toList.length := by
  rw [userinfo, readBy_optional?] at h
  obtain hsome | ⟨-, hnone⟩ := Reading.orElse_eq_value.mp h
  · obtain ⟨user, u, hpart, hvalue⟩ := Reading.bind_eq_value.mp hsome
    obtain ⟨rfl, rfl⟩ := Reading.value.inj hvalue
    obtain ⟨text, v, htext, hat⟩ := Reading.bind_eq_value.mp hpart
    obtain ⟨rfl, hlength⟩ := takeLength_eq_value (Host.runLength_le _ s) htext
    obtain ⟨w, rfl, hend⟩ | ⟨-, hend⟩ := readBy_accept_eq_value hat
    · obtain ⟨rfl, rfl⟩ := Reading.value.inj hend
      refine ⟨(List.append_assoc ..).symm, ?_⟩
      rintro _ ⟨⟩
      exact (Host.runLength_split hlength).1
    · cases hend
  · obtain ⟨rfl, rfl⟩ := Reading.value.inj hnone
    exact ⟨rfl, fun _ he => by cases he⟩

theorem host_eq_value {a : String} (h : host.readBy rules s = .value a t) :
    s = a.toList ++ t ∧ Host.length? a.toList = some a.toList.length := by
  simp only [host, readBy_bind, readBy_look, Reading.bind_value] at h
  cases hlength : Host.length? s with
  | none =>
    rw [hlength] at h
    cases h
  | some n =>
    rw [hlength] at h
    obtain ⟨rfl, hn⟩ := takeLength_eq_value (Host.length?_le hlength) h
    exact ⟨rfl, Host.length?_cut (hn ▸ hlength) (Nat.le_refl _)⟩

/-- A URL is read from its spelling, and its parts are such that it can be written. -/
theorem spelled_of_read {u : Url String} (h : urlAddress.readBy rules s = .value u t) :
    ImportModel.readable.address u ∧
      ∃ parts, PathPart.Spell parts u.path ∧ s = u.spelled parts ++ t := by
  obtain ⟨scheme, s₁, hscheme, h₁⟩ := Reading.bind_eq_value.mp h
  obtain ⟨_, s₂, hmark, h₂⟩ := Reading.bind_eq_value.mp h₁
  obtain ⟨user, s₃, huser, h₃⟩ := Reading.bind_eq_value.mp h₂
  obtain ⟨host, s₄, hhost, h₄⟩ := Reading.bind_eq_value.mp h₃
  obtain ⟨port, s₅, hport, h₅⟩ := Reading.bind_eq_value.mp h₄
  obtain ⟨path, s₆, hpath, h₆⟩ := Reading.bind_eq_value.mp h₅
  obtain ⟨query, s₇, hquery, h₇⟩ := Reading.bind_eq_value.mp h₆
  obtain ⟨rfl, rfl⟩ := Reading.value.inj h₇
  obtain rfl := scheme_eq_value hscheme
  obtain rfl := expect_eq_value hmark
  obtain ⟨rfl, huserRun⟩ := userinfo_eq_value huser
  obtain ⟨rfl, hhostLength⟩ := host_eq_value hhost
  obtain ⟨rfl, hportRun⟩ := marked_eq_value (fun s => (List.takeWhile_prefix _).length_le) hport
  obtain ⟨parts, hparts, rfl⟩ := exists_parts hpath
  obtain ⟨rfl, hqueryRun⟩ := marked_eq_value (Host.runLength_le _) hquery
  refine ⟨⟨hhostLength, huserRun, ?_, hparts.quotedPathChar, ?_⟩, parts, hparts, ?_⟩
  · exact fun port hp => (takeWhile_length (hportRun port hp)).1
  · exact fun query hq => (Host.runLength_split (hqueryRun query hq)).1
  · rw [Url.spelled_append]
    rfl

end DhallSyntax
