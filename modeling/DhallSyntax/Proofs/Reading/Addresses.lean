import DhallSyntax.Proofs.Grammar.Host
import DhallSyntax.Proofs.Reading.Parts
import DhallSyntax.Proofs.Tree.Rendering

/-!
Written URLs are read back, from the scheme to the query. Each part ends where the next one begins
with a mark that the part cannot hold.
-/

namespace DhallSyntax

open Grammar CharClass
open Rendering (word)

variable {rules : RuleReader}

/-! ## What follows a part -/

/-- The text ends or goes on with one of some characters. -/
def HeadIn (allowed t : List Char) : Prop := ∀ c ∈ t.head?, c ∈ allowed

theorem HeadIn.any {allowed t : List Char} (h : HeadIn allowed t) {chars : CharClass}
    (hc : allowed.all (fun c => !chars c) = true) : t.head?.any chars = false := by
  cases t with
  | nil => rfl
  | cons c t => simpa using List.all_eq_true.mp hc c (h c rfl)

theorem HeadIn.ne {allowed t : List Char} (h : HeadIn allowed t) {d : Char} (hd : d ∉ allowed) :
    ∀ c ∈ t.head?, c ≠ d := by
  rintro c hc rfl
  exact hd (h c hc)

theorem HeadIn.mono {allowed allowed' t : List Char} (h : HeadIn allowed t)
    (hsub : allowed ⊆ allowed') : HeadIn allowed' t :=
  fun c hc => hsub (h c hc)

theorem isPrefixOf_of_head_ne {t literal : List Char} {d : Char} (h : ∀ c ∈ t.head?, c ≠ d) :
    (d :: literal).isPrefixOf t = false := by
  cases t with
  | nil => rfl
  | cons c t => rw [List.isPrefixOf, beq_false_of_ne (h c rfl).symm, Bool.false_and]

/-- A part behind a mark. -/
theorem readBy_marked_some {mark : String} {length : List Char → Nat} {text : String}
    {r : List Char} (h : length (text.toList ++ r) = text.toList.length) :
    (marked mark length).readBy rules (mark.toList ++ (text.toList ++ r)) =
      .value (some text) r := by
  have hmark : mark.toList.isPrefixOf (mark.toList ++ (text.toList ++ r)) = true :=
    List.isPrefixOf_iff_prefix.mpr (List.prefix_append _ _)
  simp only [marked, readBy_bind, readBy_accept, hmark, if_true, Reading.bind_value,
    List.drop_left, readBy_takeLength h, String.ofList_toList, readBy_pure]

theorem readBy_marked_none {mark : String} {length : List Char → Nat} {r : List Char}
    (h : mark.toList.isPrefixOf r = false) :
    (marked mark length).readBy rules r = .value none r := by
  simp only [marked, readBy_bind, readBy_accept, h, Bool.false_eq_true, if_false,
    Reading.bind_value, readBy_pure]

/-! ## Components of paths -/

theorem quotedPathChar_of_path {c : Char} (h : path c = true) : quotedPathChar c = true := by
  rw [path_iff] at h
  simp only [List.mem_cons, List.not_mem_nil, or_false, not_or] at h
  simp only [quotedPathChar, Bool.and_eq_true, printable_iff, bne_iff_ne, ne_eq,
    ← Char.toNat_inj, Char.reduceToNat]
  omega

/-- A component as it stands in a path: behind a slash, and perhaps in quotes. -/
inductive PathPart where
  | plain (text : String)
  | quoted (text : String)
deriving DecidableEq, Repr

namespace PathPart

/-- The component itself. -/
def text : PathPart → String
  | plain text => text
  | quoted text => text

def chars : PathPart → List Char
  | plain text => '/' :: text.toList
  | quoted text => '/' :: '"' :: (text.toList ++ ['"'])

/-- What may stand in a path. A component in quotes is not empty, and outside of URLs no other is
either. -/
def Valid : PathPart → Prop
  | plain text => ∀ c ∈ text.toList, path c = true
  | quoted text => text ≠ "" ∧ ∀ c ∈ text.toList, quotedPathChar c = true

instance : (part : PathPart) → Decidable part.Valid
  | plain text => List.decidableBAll (fun c => path c = true) text.toList
  | quoted text =>
    @instDecidableAnd _ _ _ (List.decidableBAll (fun c => quotedPathChar c = true) text.toList)

/-- Components as they stand in a path, one behind the other. -/
structure Spell (parts : List PathPart) (path : List String) : Prop where
  texts : parts.map text = path
  valid : ∀ part ∈ parts, part.Valid

/-- How a component of a tree is rendered. -/
def rendered (s : String) : PathPart :=
  if s.toList.isEmpty then plain s else quoted s

theorem chars_rendered (s : String) : (rendered s).chars = Rendering.component s := by
  unfold rendered Rendering.component
  split
  · rename_i hs
    rw [chars, List.isEmpty_iff.mp hs]
  · rfl

theorem text_rendered (s : String) : (rendered s).text = s := by
  unfold rendered
  split <;> rfl

theorem valid_rendered {s : String} (h : ∀ c ∈ s.toList, quotedPathChar c = true) :
    (rendered s).Valid := by
  unfold rendered
  split
  · rename_i hs
    intro c hc
    rw [List.isEmpty_iff.mp hs] at hc
    cases hc
  · rename_i hs
    exact ⟨fun he => hs (he ▸ rfl), h⟩

theorem spell_rendered {path : List String}
    (h : ∀ s ∈ path, ∀ c ∈ s.toList, quotedPathChar c = true) :
    Spell (path.map rendered) path where
  texts := by
    rw [List.map_map]
    exact (List.map_congr_left fun s _ => text_rendered s).trans (List.map_id _)
  valid := List.forall_mem_map.mpr fun s hs => valid_rendered (h s hs)

theorem flatMap_rendered (path : List String) :
    (path.map rendered).flatMap chars = path.flatMap Rendering.component := by
  rw [List.flatMap_map]
  exact congrArg (path.flatMap ·) (funext chars_rendered)

theorem head?_chars (part : PathPart) (t : List Char) : (part.chars ++ t).head? = some '/' := by
  cases part <;> rfl

/-- Behind a component the path is over or goes on with a slash. -/
theorem nil_or_head?_flatMap (parts : List PathPart) (t : List Char) :
    parts.flatMap chars ++ t = t ∨ (parts.flatMap chars ++ t).head? = some '/' := by
  cases parts with
  | nil => exact .inl rfl
  | cons part parts =>
    rw [List.flatMap_cons, List.append_assoc]
    exact .inr (part.head?_chars _)

theorem length_chars_pos (part : PathPart) : 0 < part.chars.length := by
  cases part <;> exact Nat.succ_pos _

theorem Spell.quotedPathChar {parts : List PathPart} {path : List String} (h : Spell parts path) :
    ∀ s ∈ path, ∀ c ∈ s.toList, quotedPathChar c = true := by
  rw [← h.texts]
  refine List.forall_mem_map.mpr fun part hpart => ?_
  have hvalid := h.valid part hpart
  cases part with
  | plain s => exact fun c hc => quotedPathChar_of_path (hvalid c hc)
  | quoted s => exact hvalid.2

end PathPart

theorem path_ne {c : Char} (h : path c = true) : c ≠ '/' ∧ c ≠ '"' := by
  simp only [path, Bool.and_eq_true, Bool.not_eq_true'] at h
  constructor
  · rintro rfl
    exact absurd h.2 (by decide)
  · rintro rfl
    exact absurd h.2 (by decide)

theorem readBy_pathComponent {part : PathPart} (h : part.Valid) (hne : part.text ≠ "")
    {r : List Char} (hr : r.head?.any path = false) :
    pathComponent.readBy rules (part.chars ++ r) = .value part.text r := by
  cases part with
  | plain s =>
    have hnil : s.toList ≠ [] := fun hs => hne (String.toList_eq_nil_iff.mp hs)
    obtain ⟨htake, hdrop⟩ := takeWhile_append_stop h hr
    have hslash : (expect "/").readBy rules ('/' :: (s.toList ++ r)) =
        .value () (s.toList ++ r) := rfl
    have hquote : "\"".toList.isPrefixOf (s.toList ++ r) = false := by
      obtain ⟨c, rest, hs⟩ := List.exists_cons_of_ne_nil hnil
      refine isPrefixOf_of_head_ne ?_
      rw [hs]
      rintro d ⟨⟩
      exact (path_ne (h c (hs ▸ List.mem_cons_self))).2
    simp only [PathPart.chars, PathPart.text, Grammar.pathComponent, List.cons_append, readBy_bind,
      hslash, Reading.bind_value, readBy_accept, hquote, Bool.false_eq_true, if_false,
      readBy_takeWhile1, htake, hdrop, List.isEmpty_iff, hnil, readBy_pure, String.ofList_toList]
  | quoted s =>
    have hshape : (PathPart.quoted s).chars ++ r = '/' :: '"' :: (s.toList ++ '"' :: r) := by
      simp [PathPart.chars]
    obtain ⟨htake, hdrop⟩ := takeWhile_append_stop (t := '"' :: r) h.2 rfl
    simp [hshape, PathPart.text, Grammar.pathComponent, readBy_expect, readBy_accept, htake, hdrop,
      h.1]

/-- A component of a URL, which may be empty. -/
abbrev urlComponent : Grammar String := do
  if ← look fun s => s.head? == some '/' then
    orElse pathComponent pathSegment
  else mismatch

theorem readBy_urlComponent {part : PathPart} (h : part.Valid) {r : List Char}
    (hr : HeadIn ['/', '?', ' '] r) :
    urlComponent.readBy rules (part.chars ++ r) = .value part.text r := by
  have hhead : ((part.chars ++ r).head? == some '/') = true := by
    rw [part.head?_chars]
    rfl
  have hstop : r.head?.any path = false := hr.any (by decide)
  simp only [urlComponent, readBy_bind, readBy_look, Reading.bind_value, hhead, if_true,
    readBy_orElse]
  by_cases hs : part.text = ""
  · obtain rfl : part = .plain "" := by
      cases part with
      | plain s => exact congrArg PathPart.plain hs
      | quoted s => exact absurd hs h.1
    have hcomponent : pathComponent.readBy rules ('/' :: r) = .mismatch := by
      obtain ⟨htake, -⟩ := takeWhile_append_stop (s := []) (List.forall_mem_nil _) hstop
      have hslash : (expect "/").readBy rules ('/' :: r) = .value () r := rfl
      have hquote : "\"".toList.isPrefixOf r = false :=
        isPrefixOf_of_head_ne (hr.ne (by decide))
      rw [List.nil_append] at htake
      simp only [Grammar.pathComponent, readBy_bind, hslash, Reading.bind_value, readBy_accept,
        hquote, Bool.false_eq_true, if_false, readBy_takeWhile1, htake, List.isEmpty_nil, if_true,
        Reading.bind_mismatch]
    have hsegment : pathSegment.readBy rules ('/' :: r) = .value "" r := by
      have hrun : Host.runLength Host.segmentChar ([] ++ r) = ([] : List Char).length :=
        Host.runLength_append rfl rfl fun c hc =>
          ⟨hr.ne (by decide) c hc, by
            have hany : r.head?.any Host.segmentChar = false := hr.any (by decide)
            rw [hc] at hany
            exact hany⟩
      have htake : (takeLength (Host.runLength Host.segmentChar)).readBy rules r =
          .value "" r := readBy_takeLength hrun
      simp only [pathSegment, readBy_bind, readBy_advance, Reading.bind_value,
        List.drop_succ_cons, List.drop_zero, htake]
    have hshape : (PathPart.plain "").chars ++ r = '/' :: r := rfl
    rw [hshape, hcomponent, Reading.orElse_mismatch, hsegment, PathPart.text]
  · rw [readBy_pathComponent h hs hstop, Reading.orElse_value]

/-- Components one after the other. -/
theorem folds_parts {component : Grammar String} {parts : List PathPart} {r : List Char}
    (h : ∀ part ∈ parts, ∀ t, t = r ∨ t.head? = some '/' →
      component.readBy rules (part.chars ++ t) = .value part.text t)
    (hr : component.readBy rules r = .mismatch) (done : List String) :
    Folds rules component (fun values value => value :: values) done
      (parts.flatMap PathPart.chars ++ r)
      (.value ((parts.map PathPart.text).reverse ++ done) r) := by
  induction parts generalizing done with
  | nil => exact .none _ _ hr
  | cons part parts ih =>
    obtain ⟨hpart, hrest⟩ := List.forall_mem_cons.mp h
    have hlater := ih hrest (part.text :: done)
    rw [List.flatMap_cons, List.append_assoc, List.map_cons, List.reverse_cons, List.append_assoc,
      List.singleton_append]
    refine .some (hpart _ (PathPart.nil_or_head?_flatMap parts r)) ?_ hlater
    have hpositive := part.length_chars_pos
    simp only [List.length_append]
    omega

theorem readBy_urlPath {parts : List PathPart} {path : List String} (h : PathPart.Spell parts path)
    {r : List Char} (hr : HeadIn ['?', ' '] r) :
    urlPath.readBy rules (parts.flatMap PathPart.chars ++ r) = .value path r := by
  have hstop : urlComponent.readBy rules r = .mismatch := by
    have hhead : (r.head? == some '/') = false := by
      cases r with
      | nil => rfl
      | cons c r =>
        refine beq_false_of_ne fun he => ?_
        exact hr.ne (by decide) c rfl (Option.some.inj he)
    simp only [urlComponent, readBy_bind, readBy_look, Reading.bind_value, hhead,
      Bool.false_eq_true, if_false, readBy_mismatch]
  have hread : ∀ part ∈ parts, ∀ t, t = r ∨ t.head? = some '/' →
      urlComponent.readBy rules (part.chars ++ t) = .value part.text t := fun part hpart t ht =>
    readBy_urlComponent (h.valid part hpart) (by
      obtain rfl | ht := ht
      · exact hr.mono (by decide)
      · intro c hc
        rw [ht] at hc
        cases hc
        decide)
  refine (readBy_many (folds_parts hread hstop [])).trans ?_
  rw [List.append_nil, List.reverse_reverse, h.texts]

/-! ## User information -/

/-- Whatever the run takes of a text without an at sign, none stands behind it. -/
theorem runLength_ne_at {chars : CharClass} {s r : List Char}
    (hs : ∀ c ∈ s, c ≠ '%' ∧ c ≠ '@') (hr : ∀ c ∈ r.head?, c ≠ '%' ∧ c ≠ '@' ∧ chars c = false) :
    ∀ c ∈ ((s ++ r).drop (Host.runLength chars (s ++ r))).head?, c ≠ '@' := by
  induction s with
  | nil =>
    cases r with
    | nil => exact fun c hc => nomatch hc
    | cons d r =>
      obtain ⟨hpercent, hat, hd⟩ := hr d rfl
      rw [List.nil_append, Host.runLength_cons hpercent, hd, if_neg Bool.false_ne_true]
      rintro c ⟨⟩
      exact hat
  | cons d s ih =>
    obtain ⟨⟨hpercent, hat⟩, hrest⟩ := List.forall_mem_cons.mp hs
    rw [List.cons_append, Host.runLength_cons hpercent]
    split
    · rw [List.drop_succ_cons]
      exact ih hrest
    · rintro c ⟨⟩
      exact hat

theorem readBy_userinfo_none {s : List Char}
    (h : ∀ c ∈ (s.drop (Host.runLength Host.userinfoChar s)).head?, c ≠ '@') :
    userinfo.readBy rules s = .value none s := by
  have hrest : s.drop (s.take (Host.runLength Host.userinfoChar s)).length =
      s.drop (Host.runLength Host.userinfoChar s) := by
    rw [List.length_take]
    by_cases hle : Host.runLength Host.userinfoChar s ≤ s.length
    · rw [Nat.min_eq_left hle]
    · rw [Nat.min_eq_right (by omega), List.drop_length, List.drop_of_length_le (by omega)]
  have hat : "@".toList.isPrefixOf
      (s.drop (s.take (Host.runLength Host.userinfoChar s)).length) = false := by
    rw [hrest]
    exact isPrefixOf_of_head_ne h
  simp only [userinfo, readBy_optional?, takeLength, readBy_bind, readBy_look, Reading.bind_value,
    readBy_advance, readBy_pure, readBy_accept, hat, Bool.false_eq_true, if_false,
    readBy_mismatch, Reading.bind_mismatch, Reading.orElse_mismatch]

theorem readBy_userinfo_some {user : String}
    (h : Host.runLength Host.userinfoChar user.toList = user.toList.length) (r : List Char) :
    userinfo.readBy rules (user.toList ++ '@' :: r) = .value (some user) r := by
  have hrun := Host.runLength_append (r := '@' :: r) rfl h
    (by rintro c ⟨⟩; exact ⟨by decide, rfl⟩)
  have hat : "@".toList.isPrefixOf ('@' :: r) = true := rfl
  simp only [userinfo, readBy_optional?, readBy_bind, readBy_takeLength hrun, Reading.bind_value,
    readBy_accept, hat, if_true, readBy_pure, String.ofList_toList, Reading.orElse_value]
  rfl

/-! ## Addresses -/

namespace Url

/-- The text from the path on, with given components. -/
def fromPath (u : Url String) (parts : List PathPart) (r : List Char) : List Char :=
  parts.flatMap PathPart.chars ++ ((u.query.elim [] fun query => '?' :: query.toList) ++ r)

/-- The text from the port on. -/
def fromPort (u : Url String) (parts : List PathPart) (r : List Char) : List Char :=
  (u.port.elim [] fun port => ':' :: port.toList) ++ u.fromPath parts r

/-- A URL as it is written with given components. -/
def spelled (u : Url String) (parts : List PathPart) : List Char :=
  u.scheme.text.toList ++ (word "://" ++ ((u.userinfo.elim [] fun user => user.toList ++ ['@']) ++
    (u.host.toList ++ u.fromPort parts [])))

theorem spelled_append (u : Url String) (parts : List PathPart) (r : List Char) :
    u.spelled parts ++ r = u.scheme.text.toList ++ (word "://" ++
      ((u.userinfo.elim [] fun user => user.toList ++ ['@']) ++
        (u.host.toList ++ u.fromPort parts r))) := by
  simp only [spelled, fromPort, fromPath, List.append_assoc, List.append_nil]

theorem spelled_rendered (u : Url String) :
    u.spelled (u.path.map .rendered) = Rendering.address u := by
  simp only [spelled, fromPort, fromPath, PathPart.flatMap_rendered, Rendering.address,
    Rendering.fromHost, List.append_assoc, List.append_nil]

end Url

/-- A URL without headers. -/
def urlAddress : Grammar (Url String) := do
  let scheme ← scheme
  expect "://"
  let userinfo ← userinfo
  let host ← host
  let port ← marked ":" fun s => (s.takeWhile digit).length
  let path ← urlPath
  let query ← marked "?" (Host.runLength Host.queryChar)
  return { scheme, host, path, userinfo, port, query }

/-- The import from a URL, with headers or without. -/
def Url.sent (u : Url String) : Option (Import String) → ImportKind String
  | some headers => .urlUsing u headers
  | none => .url u

/-- Behind a URL there may be headers. -/
theorem readBy_httpImport (s : List Char) :
    httpImport.readBy rules s = (urlAddress.readBy rules s).bind fun u t =>
      ((optional? usingClause).readBy rules t).bind fun headers t => .value (u.sent headers) t := by
  simp only [httpImport, urlAddress, readBy_bind, readBy_pure, Reading.bind_assoc,
    Reading.bind_value]
  iterate 7 refine congrArg _ (funext fun _ => funext fun _ => ?_)
  refine congrArg _ (funext fun headers => funext fun t => ?_)
  cases headers <;> rfl

section Parts

variable {u : Url String} (h : ImportModel.readable.address u) {parts : List PathPart}
  (hparts : PathPart.Spell parts u.path) {r : List Char} (hr : HeadIn [' '] r)
include h hr

theorem readBy_query :
    (marked "?" (Host.runLength Host.queryChar)).readBy rules
      ((u.query.elim [] fun query => '?' :: query.toList) ++ r) = .value u.query r := by
  obtain ⟨-, -, -, -, hquery⟩ := h
  cases hq : u.query with
  | none => exact readBy_marked_none (isPrefixOf_of_head_ne (hr.ne (by decide)))
  | some query =>
    have hlength : Host.runLength Host.queryChar (query.toList ++ r) = query.toList.length := by
      refine Host.runLength_append rfl (hquery query hq) fun c hc => ?_
      refine ⟨hr.ne (by decide) c hc, ?_⟩
      have hany : r.head?.any Host.queryChar = false := hr.any (by decide)
      rwa [hc] at hany
    exact readBy_marked_some hlength

omit h in
theorem headIn_query :
    HeadIn ['?', ' '] ((u.query.elim [] fun query => '?' :: query.toList) ++ r) := by
  cases u.query with
  | none => exact hr.mono (by decide)
  | some query => rintro c ⟨⟩; decide

omit h in
include hparts in
theorem readBy_path :
    urlPath.readBy rules (u.fromPath parts r) =
      .value u.path ((u.query.elim [] fun query => '?' :: query.toList) ++ r) :=
  readBy_urlPath hparts (headIn_query hr)

omit h in
theorem headIn_fromPath (parts : List PathPart) : HeadIn ['/', '?', ' '] (u.fromPath parts r) := by
  have hquery := headIn_query (u := u) hr
  rw [Url.fromPath]
  cases parts with
  | nil => exact hquery.mono (by decide)
  | cons part parts =>
    rw [List.flatMap_cons, List.append_assoc]
    intro c hc
    rw [part.head?_chars] at hc
    cases hc
    decide

theorem readBy_port :
    (marked ":" fun s => (s.takeWhile digit).length).readBy rules (u.fromPort parts r) =
      .value u.port (u.fromPath parts r) := by
  obtain ⟨-, -, hport, -⟩ := h
  have hpath := headIn_fromPath (u := u) hr parts
  rw [Url.fromPort]
  cases hp : u.port with
  | none => exact readBy_marked_none (isPrefixOf_of_head_ne (hpath.ne (by decide)))
  | some port =>
    have hlength : ((port.toList ++ u.fromPath parts r).takeWhile digit).length =
        port.toList.length := by
      rw [(takeWhile_append_stop (hport port hp) (hpath.any (by decide))).1]
    exact readBy_marked_some hlength

omit h in
theorem headIn_fromPort (parts : List PathPart) :
    HeadIn [':', '/', '?', ' '] (u.fromPort parts r) := by
  have hpath := headIn_fromPath (u := u) hr parts
  rw [Url.fromPort]
  cases u.port with
  | none => exact hpath.mono (by decide)
  | some port => rintro c ⟨⟩; decide

theorem readBy_host :
    Grammar.host.readBy rules (u.host.toList ++ u.fromPort parts r) =
      .value u.host (u.fromPort parts r) := by
  have hport := headIn_fromPort (u := u) hr parts
  have hlength := Host.length?_append h.1
    (hport.any (by decide : [':', '/', '?', ' '].all (fun c => !Host.hostChar c) = true))
  simp only [Grammar.host, readBy_bind, readBy_look, Reading.bind_value, hlength]
  exact (readBy_takeLength rfl).trans (by rw [String.ofList_toList])

/-- No host holds an at sign, and what follows a host has none before its path. -/
theorem readBy_userinfo :
    userinfo.readBy rules ((u.userinfo.elim [] fun user => user.toList ++ ['@']) ++
      (u.host.toList ++ u.fromPort parts r)) =
        .value u.userinfo (u.host.toList ++ u.fromPort parts r) := by
  obtain ⟨hhost, huser, hport, -⟩ := h
  cases hu : u.userinfo with
  | some user =>
    have hshape : user.toList ++ ['@'] ++ (u.host.toList ++ u.fromPort parts r) =
        user.toList ++ '@' :: (u.host.toList ++ u.fromPort parts r) := by simp
    simp only [Option.elim_some, hshape, readBy_userinfo_some (huser user hu)]
  | none =>
    rw [Option.elim_none, List.nil_append]
    refine readBy_userinfo_none ?_
    cases hb : Host.bracketedLength? u.host.toList with
    | some n =>
      obtain ⟨rest, hrest⟩ := List.head?_eq_some_iff.mp (Host.head?_of_bracketedLength? hb)
      rw [hrest]
      rintro c ⟨⟩
      decide
    | none =>
      have hchars := Host.hostChar_of_length? hb hhost
      have hpath := headIn_fromPath (u := u) hr parts
      have hnot : ∀ c ∈ u.host.toList ++ (u.port.elim [] fun port => ':' :: port.toList),
          c ≠ '%' ∧ c ≠ '@' := by
        intro c hc
        obtain hc | hc := List.mem_append.mp hc
        · refine ⟨?_, ?_⟩ <;> rintro rfl <;> cases hchars _ hc
        · cases hp : u.port with
          | none =>
            rw [hp] at hc
            cases hc
          | some port =>
            rw [hp, Option.elim_some, List.mem_cons] at hc
            obtain rfl | hc := hc
            · decide
            · refine ⟨?_, ?_⟩ <;> rintro rfl <;> cases hport port hp _ hc
      rw [Url.fromPort, ← List.append_assoc]
      refine runLength_ne_at hnot fun c hc => ⟨hpath.ne (by decide) c hc,
        hpath.ne (by decide) c hc, ?_⟩
      have hany : (u.fromPath parts r).head?.any Host.userinfoChar = false :=
        hpath.any (by decide)
      rwa [hc] at hany

include hparts in
/-- A written URL is read back. -/
theorem readBy_urlAddress :
    urlAddress.readBy rules (u.spelled parts ++ r) = .value u r := by
  have hscheme : ∀ t, scheme.readBy rules (u.scheme.text.toList ++ (word "://" ++ t)) =
      .value u.scheme (word "://" ++ t) := by
    intro t
    cases u.scheme <;> rfl
  have hmark : ∀ t, (expect "://").readBy rules (word "://" ++ t) = .value () t := fun t => rfl
  rw [Url.spelled_append]
  simp only [urlAddress, readBy_bind, hscheme, hmark, Reading.bind_value, readBy_userinfo h hr,
    readBy_host h hr, readBy_port h hr, readBy_path hparts hr, readBy_query h hr, readBy_pure]

end Parts

/-- A rendered URL is read back; then a clause may follow it. -/
theorem read_httpImport {u : Url String} (h : ImportModel.readable.address u) {r : List Char}
    (hr : HeadIn [' '] r) :
    Rule.httpImport.read (Rendering.address u ++ r) =
      ((optional? usingClause).read r).bind fun headers s => .value (u.sent headers) s := by
  have haddress : urlAddress.read (u.spelled (u.path.map .rendered) ++ r) = .value u r :=
    readBy_urlAddress h (PathPart.spell_rendered h.2.2.2.1) hr
  rw [Url.spelled_rendered] at haddress
  refine (Rule.read_eq .httpImport _).trans ((readBy_httpImport _).trans ?_)
  exact congrArg (Reading.bind · _) haddress

end DhallSyntax
