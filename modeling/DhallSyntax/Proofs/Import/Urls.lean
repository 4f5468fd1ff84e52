import DhallSyntax.Proofs.Grammar.HostNames
import DhallSyntax.Proofs.Import.Whole
import DhallSyntax.Proofs.Reading.Progress
import DhallSyntax.Proofs.Reading.Spelling
import DhallSyntax.Proofs.Tree.Parsed

/-!
The URL that is reported of an import. It is put together from the parts that were read, each of
them without the marks around it. Main statements:

* `url_in_source_spelling`: the URL is what stands in the source, character for character, if no
  component of its path stands in quotes there;
* `parse_text`: the URL is a source of the same import without its headers, if each component of
  its path could stand there without quotes;
* `parse_domain_iff`: a domain name is the host of a URL exactly if it is an IPv4 address or does
  not begin with one.
-/

namespace DhallSyntax

open Grammar CharClass

variable {settings settings' : Settings}

/-! ## Components in quotes -/

namespace PathPart

def isQuoted : PathPart → Bool
  | plain _ => false
  | quoted _ => true

theorem eq_plain {part : PathPart} (h : part.isQuoted = false) : plain part.text = part := by
  cases part with
  | plain s => rfl
  | quoted s => cases h

/-- Quotes are all that components in quotes have more than others. -/
theorem length_flatMap_chars (parts : List PathPart) :
    (parts.flatMap chars).length =
      ((parts.map fun part => plain part.text).flatMap chars).length +
        2 * parts.countP isQuoted := by
  induction parts with
  | nil => rfl
  | cons part parts ih =>
    rw [List.flatMap_cons, List.length_append, ih, List.map_cons, List.flatMap_cons,
      List.length_append, List.countP_cons]
    cases part with
    | plain s =>
      simp only [text, isQuoted, Bool.false_eq_true, if_false]
      omega
    | quoted s =>
      simp only [text, isQuoted, chars, if_true, List.length_cons, List.length_append,
        List.length_nil]
      omega

end PathPart

/-! ## The text of a URL -/

namespace Url

theorem toList_join (path : List String) :
    (String.join (path.map ("/" ++ ·))).toList =
      (path.map PathPart.plain).flatMap PathPart.chars := by
  rw [String.toList_join, List.flatMap_map, List.flatMap_map]
  simp [PathPart.chars]

/-- The text of a URL is its spelling without quotes. -/
theorem toList_text (u : Url String) : u.text.toList = u.spelled (u.path.map .plain) := by
  have hpath := toList_join u.path
  cases huser : u.userinfo <;> cases hport : u.port <;> cases hquery : u.query <;>
    simp [text, authority, spelled, fromPort, fromPath, huser, hport, hquery, hpath,
      Rendering.word]

theorem length_spelled (u : Url String) (parts : List PathPart) :
    (u.spelled parts).length = (u.spelled []).length + (parts.flatMap PathPart.chars).length := by
  simp only [spelled, fromPort, fromPath, List.flatMap_nil, List.length_append, List.length_nil]
  omega

theorem length_spelled_text {u : Url String} {parts : List PathPart}
    (h : parts.map PathPart.text = u.path) :
    (u.spelled parts).length = u.text.toList.length + 2 * parts.countP PathPart.isQuoted := by
  rw [toList_text, length_spelled, length_spelled u (u.path.map .plain), ← h, List.map_map,
    PathPart.length_flatMap_chars, Nat.add_assoc]
  rfl

/-- A spelling that is no longer than the text has no quotes. -/
theorem not_quoted_of_length_le {u : Url String} {parts : List PathPart}
    (h : parts.map PathPart.text = u.path)
    (hle : (u.spelled parts).length ≤ u.text.toList.length) :
    ∀ part ∈ parts, part.isQuoted = false := by
  have hlength := length_spelled_text h
  have hcount : parts.countP PathPart.isQuoted = 0 := by omega
  intro part hpart
  exact Bool.eq_false_iff.mpr (List.countP_eq_zero.mp hcount part hpart)

theorem text_eq_spelled {u : Url String} {parts : List PathPart}
    (h : parts.map PathPart.text = u.path) (hplain : ∀ part ∈ parts, part.isQuoted = false) :
    u.text.toList = u.spelled parts := by
  have hmap : u.path.map PathPart.plain = parts := by
    rw [← h, List.map_map]
    exact (List.map_congr_left fun part hpart => (PathPart.eq_plain (hplain part hpart))).trans
      (List.map_id _)
  rw [toList_text, hmap]

/-- The text of a URL is a spelling of it exactly if that has no quotes. -/
theorem text_eq_spelled_iff {u : Url String} {parts : List PathPart}
    (h : parts.map PathPart.text = u.path) :
    u.text.toList = u.spelled parts ↔ ∀ part ∈ parts, part.isQuoted = false := by
  constructor
  · intro he
    exact not_quoted_of_length_le h (by rw [he])
  · exact text_eq_spelled h

theorem quote_mem_spelled (u : Url String) {parts : List PathPart} {part : PathPart}
    (hpart : part ∈ parts) (h : part.isQuoted = true) : '"' ∈ u.spelled parts := by
  have hchars : '"' ∈ part.chars := by
    cases part with
    | plain s => cases h
    | quoted s => exact .tail _ (.head _)
  have hmem : '"' ∈ parts.flatMap PathPart.chars := List.mem_flatMap.mpr ⟨part, hpart, hchars⟩
  simp only [spelled, fromPort, fromPath, List.mem_append]
  exact .inr (.inr (.inr (.inr (.inr (.inl hmem)))))

end Url

/-! ## URLs in a source -/

/-- What the rule for URLs has taken of a source from one offset to another: a URL, which ends at
`stop`, and perhaps a clause with headers behind it. -/
structure Url.Taken (source : List Char) (start stop finish : Nat) (u : Url String)
    (headers : Option (Import String)) (parts : List PathPart) : Prop where
  address : urlAddress.read (source.drop start) = .value u (source.drop stop)
  clause : (optional? usingClause).read (source.drop stop) = .value headers (source.drop finish)
  start_le : start ≤ stop
  stop_le : stop ≤ finish
  finish_le : finish ≤ source.length
  /-- Without headers nothing behind the URL is taken. -/
  alone : headers = none → finish = stop
  spell : PathPart.Spell parts u.path
  spelled : source.extract start stop = u.spelled parts

/-- A text that stands in the source from an offset on ends where the rest of the source begins. -/
theorem drop_eq_append {source text rest : List Char} {start : Nat} (hle : start ≤ source.length)
    (h : source.drop start = text ++ rest) :
    source.extract start (start + text.length) = text ∧
      rest = source.drop (start + text.length) ∧
      start + text.length + rest.length = source.length := by
  refine ⟨?_, ?_, ?_⟩
  · rw [List.extract_eq_take_drop, Nat.add_sub_cancel_left, h, List.take_left]
  · rw [← List.drop_drop, h, List.drop_left]
  · have hlength := congrArg List.length h
    rw [List.length_drop, List.length_append] at hlength
    omega

/-- Without a value the optional part has taken nothing. -/
theorem rest_of_absent {α : Type} {rules : RuleReader} {part : Grammar α} {s t : List Char}
    (h : (optional? part).readBy rules s = .value none t) : t = s := by
  obtain hsome | ⟨-, hnone⟩ := Reading.orElse_eq_value.mp h
  · obtain ⟨_, _, -, ⟨⟩⟩ := Reading.bind_eq_value.mp hsome
  · exact (Reading.value.inj hnone).2.symm

/-- The URL is kept as it stands in the source: wherever the rule for URLs succeeds, and whatever
has been parsed before, the text of the URL is the part of the source that the URL takes, exactly
if no component stands in quotes there. -/
theorem url_in_source_spelling {source : List Char} {s t : State} (hs : s.In source)
    {kind : ImportKind String} (h : (call .httpImport).start settings s = .value kind t) :
    ∃ u headers parts stop, kind = Url.sent u headers ∧
      u.Taken source s.cursor.offset stop t.cursor.offset headers parts ∧
      (u.text.toList = source.extract s.cursor.offset stop ↔
        ∀ part ∈ parts, part.isQuoted = false) := by
  obtain ⟨hread, ht⟩ := run_value hs h
  have hbody : httpImport.read s.cursor.rest = .value kind t.cursor.rest :=
    (Rule.read_eq .httpImport _).symm.trans hread
  obtain ⟨u, w, haddress, hbehind⟩ :=
    Reading.bind_eq_value.mp ((readBy_httpImport _).symm.trans hbody)
  obtain ⟨headers, v, hclause, hvalue⟩ := Reading.bind_eq_value.mp hbehind
  obtain ⟨rfl, rfl⟩ := Reading.value.inj hvalue
  obtain ⟨-, parts, hparts, hspelled⟩ := spelled_of_read haddress
  -- The URL ends where its spelling does.
  obtain ⟨hextract, hw, hlength⟩ := drop_eq_append hs.offset_le (hs.rest_eq.symm.trans hspelled)
  have hshorter := read_length_le hclause
  have hend := ht.offset_add
  have halone : headers = none →
      t.cursor.offset = s.cursor.offset + (u.spelled parts).length := by
    rintro rfl
    rw [rest_of_absent hclause] at hend
    omega
  refine ⟨u, headers, parts, s.cursor.offset + (u.spelled parts).length, rfl, ?_, ?_⟩
  · exact
      { address := by rwa [← hs.rest_eq, ← hw]
        clause := by rwa [← ht.rest_eq, ← hw]
        start_le := Nat.le_add_right _ _
        stop_le := by omega
        finish_le := ht.offset_le
        alone := halone
        spell := hparts
        spelled := hextract }
  · rw [hextract]
    exact Url.text_eq_spelled_iff hparts.texts

/-- What an outcome yields, and the offset of what it leaves. -/
def Outcome.yield? {α : Type} : Outcome α → Option (α × Nat)
  | value a s => some (a, s.cursor.offset)
  | mismatch _ | abort _ _ => none

/-- A URL in a list, with a percent escape before its host and in its path, with a port, a component
and a query that are empty, with a slash behind the path, and with headers. -/
theorem url_in_source_spelling_list :
    let source := "[ https://me%40x:@a.b.:/c//%2F/? using ./h ]".toList
    let s := (State.initial source).moveTo (.atOffset source 2)
    ∃ u headers t stop, s.In source ∧
      (call .httpImport).start .standard s = .value (.urlUsing u headers) t ∧
      t.cursor.offset = 42 ∧ u.userinfo = some "me%40x:" ∧ u.path = ["c", "", "%2F", ""] ∧
      u.text.toList = source.extract 2 stop := by
  intro source s
  let u : Url String :=
    ⟨.https, "a.b.", ["c", "", "%2F", ""], some "me%40x:", some "", some ""⟩
  let headers : Import String := .mk (.path .here ["h"]) none .code
  have hs : s.In source := ⟨(State.In.initial source).sound.moveTo rfl, by decide⟩
  have hends : ((call .httpImport).start .standard s).yield? =
      some (.urlUsing u headers, 42) := by decide +kernel
  cases h : (call .httpImport).start .standard s with
  | mismatch t => rw [h] at hends; cases hends
  | abort a t => rw [h] at hends; cases hends
  | value kind t =>
    rw [h] at hends
    obtain ⟨rfl, hoffset⟩ := Prod.mk.inj (Option.some.inj hends)
    obtain ⟨v, headers', parts, stop, hkind, htaken, hiff⟩ := url_in_source_spelling hs h
    obtain rfl : u = v := Url.sent_inj (show u.sent (some headers) = v.sent headers' from hkind)
    refine ⟨u, headers, t, stop, hs, rfl, hoffset, rfl, rfl, hiff.mpr fun part hpart => ?_⟩
    -- No component stands in quotes, for the source has none.
    refine Bool.eq_false_iff.mpr fun hquoted => ?_
    have hmem := u.quote_mem_spelled hpart hquoted
    rw [← htaken.spelled] at hmem
    have hsource : '"' ∈ source := List.mem_of_mem_drop (List.mem_of_mem_take hmem)
    exact absurd hsource (by decide)

/-! ## URLs as sources -/

/-- The components of the path can be written without quotes. -/
def Url.Plain (u : Url String) : Prop := ∀ component ∈ u.path, (PathPart.plain component).Valid

instance (u : Url String) : Decidable u.Plain :=
  List.decidableBAll (fun component => (PathPart.plain component).Valid) u.path

theorem Url.Plain.spell {u : Url String} (h : u.Plain) :
    PathPart.Spell (u.path.map .plain) u.path where
  texts := (List.map_map ..).trans (List.map_id _)
  valid := List.forall_mem_map.mpr h

theorem PathPart.Spell.plain {u : Url String} {parts : List PathPart}
    (h : PathPart.Spell parts u.path) (hplain : ∀ part ∈ parts, part.isQuoted = false) :
    u.Plain := by
  rw [Url.Plain, ← h.texts]
  refine List.forall_mem_map.mpr fun part hpart => ?_
  have hvalid := h.valid part hpart
  rw [← PathPart.eq_plain (hplain part hpart)] at hvalid ⊢
  exact hvalid

/-- A URL that can be written is parsed from its text if its components need no quotes. -/
theorem parse_text_of_plain (h : settings.Ample) {u : Url String}
    (hu : ImportModel.readable.address u) (hplain : u.Plain) :
    parse settings u.text = .ok (.embedded (.mk (.url u) none .code)) := by
  have hparse := parse_url h hu hplain.spell
  rwa [← Url.toList_text, String.ofList_toList] at hparse

/-- A URL whose text is one of the same import needs no quotes. -/
theorem plain_of_parse_text {u : Url String} {i : Import String}
    {headers : Option (Import String)} (h : parse settings u.text = .ok (.embedded i))
    (hi : i.kind = u.sent headers) : u.Plain := by
  have hhead : u.text.toList.head? = some 'h' := by
    have hspelled := spelled_head u (u.path.map .plain) []
    rwa [List.append_nil, ← Url.toList_text] at hspelled
  obtain ⟨t, hclause⟩ := importClause_of_parse hhead h
  obtain ⟨v, haddress⟩ := urlAddress_of_importClause hhead hi hclause
  obtain ⟨-, parts, hparts, hspelled⟩ := spelled_of_read haddress
  have hlength := congrArg List.length hspelled
  rw [List.length_append] at hlength
  exact hparts.plain (Url.not_quoted_of_length_le hparts.texts (by omega))

/-- The URL of a parsed import can be written. -/
theorem readable_of_parse {source : String} {i : Import String} {u : Url String}
    {headers : Option (Import String)} (h : parse settings source = .ok (.embedded i))
    (hi : i.kind = u.sent headers) : ImportModel.readable.address u := by
  have hkind : ImportKind.WellFormed .readable i.kind := by
    cases parse_wellFormed .readable h with
    | embedded hwell =>
      cases hwell with
      | mk hkind _ => exact hkind
  rw [hi] at hkind
  cases headers with
  | none =>
    cases hkind with
    | url haddress => exact haddress
  | some headers =>
    cases hkind with
    | urlUsing haddress => exact haddress

/-- The URL that is reported of an import identifies it, but for its headers, exactly if no
component of its path holds a character that only quotes let in. Such URLs differ if any of their
parts do. -/
theorem parse_text (h : settings'.Ample) {source : String} {i : Import String} {u : Url String}
    {headers : Option (Import String)} (hi : parse settings source = .ok (.embedded i))
    (hu : i.kind = u.sent headers) :
    (u.Plain → parse settings' u.text = .ok (.embedded (.mk (.url u) none .code))) ∧
      (¬ u.Plain → ∀ i', parse settings' u.text = .ok (.embedded i') → i'.kind ≠ .url u) ∧
      ∀ {settings₂ : Settings} {source₂ : String} {i₂ : Import String} {u₂ : Url String}
        {headers₂ : Option (Import String)}, parse settings₂ source₂ = .ok (.embedded i₂) →
        i₂.kind = u₂.sent headers₂ → u.Plain → u₂.Plain → u.text = u₂.text → u = u₂ := by
  have hback := parse_text_of_plain h (readable_of_parse hi hu)
  refine ⟨hback, fun hnot i' hi' hkind => ?_, ?_⟩
  · have hsent : i'.kind = u.sent none := hkind
    exact hnot (plain_of_parse_text hi' hsent)
  · intro settings₂ source₂ i₂ u₂ headers₂ hi₂ hu₂ hplain hplain₂ htext
    have hsame := (hback hplain).symm
    rw [htext, parse_text_of_plain h (readable_of_parse hi₂ hu₂) hplain₂] at hsame
    cases hsame
    rfl

/-- A URL with a port, a component and a query that are empty, with a component in quotes and with
headers; and one with a component that cannot stand without quotes. -/
theorem parse_text_quoted :
    (parse .standard "https://a.b:/\"c\"//d? using ./h" = .ok (.embedded (.mk
        (.urlUsing ⟨.https, "a.b", ["c", "", "d"], none, some "", some ""⟩
          (.mk (.path .here ["h"]) none .code)) none .code)) ∧
      parse .standard "https://a.b:/c//d?" = .ok (.embedded (.mk
        (.url ⟨.https, "a.b", ["c", "", "d"], none, some "", some ""⟩) none .code))) ∧
    parse .standard "https://a.b/\"c?d\"" = .ok (.embedded (.mk
        (.url ⟨.https, "a.b", ["c?d"], none, none, none⟩) none .code)) ∧
      ∀ i, parse .standard "https://a.b/c?d" = .ok (.embedded i) →
        i.kind ≠ .url ⟨.https, "a.b", ["c?d"], none, none, none⟩ := by
  have h : parse .standard "https://a.b:/\"c\"//d? using ./h" = .ok (.embedded (.mk
      (.urlUsing ⟨.https, "a.b", ["c", "", "d"], none, some "", some ""⟩
        (.mk (.path .here ["h"]) none .code)) none .code)) :=
    eq_ok_of_toOption (by decide +kernel)
  have hquoted : parse .standard "https://a.b/\"c?d\"" = .ok (.embedded (.mk
      (.url ⟨.https, "a.b", ["c?d"], none, none, none⟩) none .code)) :=
    eq_ok_of_toOption (by decide +kernel)
  refine ⟨⟨h, ?_⟩, hquoted, ?_⟩
  · exact (parse_text Settings.ample_standard h (rfl : _ = Url.sent _ (some _))).1 (by decide)
  · exact (parse_text Settings.ample_standard hquoted (rfl : _ = Url.sent _ none)).2.1 (by decide)

/-! ## Domain names as hosts -/

/-- The path of a URL with these components between slashes. A slash with nothing behind it has an
empty component. -/
def Url.slashed (components : List String) : List String :=
  if components = [] then [""] else components

theorem Url.flatMap_slashed (components : List String) :
    ((slashed components).map PathPart.plain).flatMap PathPart.chars =
      '/' :: ['/'].intercalate (components.map String.toList) := by
  cases components with
  | nil => rfl
  | cons component components =>
    rw [slashed, if_neg (List.cons_ne_nil _ _)]
    induction components generalizing component with
    | nil => simp [PathPart.chars]
    | cons next components ih =>
      rw [List.map_cons, List.flatMap_cons, ih]
      simp [PathPart.chars]

/-- A domain name is the host of a URL exactly if it is an IPv4 address or does not begin with one:
a name that begins with an address is cut off behind that. -/
theorem parse_domain_iff (h : settings.Ample) {domain : String}
    (hdomain : Host.IsDomainName domain.toList) {components : List String}
    (hcomponents : ∀ component ∈ components, (PathPart.plain component).Valid) :
    parse settings ("https://" ++ domain ++ "/" ++ "/".intercalate components) =
        .ok (.embedded (.mk
          (.url ⟨.https, domain, Url.slashed components, none, none, none⟩) none .code)) ↔
      Host.IsIPv4Address domain.toList ∨
        ∀ address, Host.IsIPv4Address address → ¬ address <+: domain.toList := by
  let u : Url String := ⟨.https, domain, Url.slashed components, none, none, none⟩
  have hplain : u.Plain := by
    intro component hcomponent
    by_cases hnil : components = []
    · rw [show u.path = [""] from if_pos hnil, List.mem_singleton] at hcomponent
      subst hcomponent
      exact List.forall_mem_nil _
    · rw [show u.path = components from if_neg hnil] at hcomponent
      exact hcomponents component hcomponent
  have htext : "https://" ++ domain ++ "/" ++ "/".intercalate components =
      String.ofList (u.spelled (u.path.map .plain)) := by
    have hpath := Url.flatMap_slashed components
    apply String.toList_inj.mp
    simp [u, Url.spelled, Url.fromPort, Url.fromPath, hpath, Rendering.word, Scheme.text]
  rw [htext, ← Host.length?_eq_length_iff hdomain]
  constructor
  · intro hparse
    exact (readable_of_parse hparse (rfl : _ = u.sent none)).1
  · intro hlength
    have habsent : ∀ {P : String → Prop} (part : String), none = some part → P part := by
      intro P part hpart
      cases hpart
    have hreadable : ImportModel.readable.address u :=
      ⟨hlength, habsent, habsent, hplain.spell.quotedPathChar, habsent⟩
    exact parse_url h hreadable hplain.spell

/-- An address whose last octet begins with another one, and a name that begins with an address. -/
theorem parse_domain_iff_numeric :
    parse .standard "https://1.2.3.45/a/b" = .ok (.embedded (.mk
        (.url ⟨.https, "1.2.3.45", ["a", "b"], none, none, none⟩) none .code)) ∧
      parse .standard "https://1.2.3.4.nip.io/a" ≠ .ok (.embedded (.mk
        (.url ⟨.https, "1.2.3.4.nip.io", ["a"], none, none, none⟩) none .code)) := by
  have hname : ∀ domain : String,
      Host.domainLength? domain.toList = some domain.toList.length →
        Host.IsDomainName domain.toList := fun _ => Host.domainLength?_eq_length_iff.mp
  constructor
  · have haddress : Host.IsIPv4Address "1.2.3.45".toList :=
      Host.ipv4Length?_eq_length_iff.mp (by decide)
    have hpath : ∀ component ∈ ["a", "b"], (PathPart.plain component).Valid := by decide
    exact (parse_domain_iff Settings.ample_standard (hname "1.2.3.45" (by decide)) hpath).mpr
      (.inl haddress)
  · intro hparse
    have hprefix : Host.IsIPv4Address "1.2.3.4".toList :=
      Host.ipv4Length?_eq_length_iff.mp (by decide)
    have hpath : ∀ component ∈ ["a"], (PathPart.plain component).Valid := by decide
    obtain haddress | hnone := (parse_domain_iff Settings.ample_standard
      (hname "1.2.3.4.nip.io" (by decide)) hpath).mp hparse
    · exact absurd (Host.ipv4Length?_eq_length_iff.mpr haddress) (by decide)
    · exact hnone _ hprefix (by decide)

end DhallSyntax
