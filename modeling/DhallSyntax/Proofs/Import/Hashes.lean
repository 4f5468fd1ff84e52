import DhallSyntax.Proofs.Context.Halting
import DhallSyntax.Proofs.Import.Kinds
import DhallSyntax.Proofs.Lexical.Comments
import DhallSyntax.Proofs.Reading.Imports
import DhallSyntax.Proofs.Tree.ParsedParts

/-!
Integrity hashes behind imports. Main statement: `importHashed_integrity`, what stands behind
whitespace as a hash does is one, is reported, or is a variable with an annotation.
-/

namespace DhallSyntax

open CharClass Grammar Whitespace

variable {α : Type} {settings : Settings} {g : Grammar α} {a : α} {kind : ImportKind String}
  {levels : Nat} {s t w r text behind : List Char}

/-! ## Runs from the beginning of a source -/

/-- From the beginning of a source a part of a grammar takes a text in front of another one. -/
def Takes (settings : Settings) (g : Grammar α) (text behind : List Char) (a : α) : Prop :=
  (runFrom settings (text ++ behind) g).result = .ok a ∧
    (runFrom settings (text ++ behind) g).state.cursor = .atOffset (text ++ behind) text.length

theorem Takes.read (h : Takes settings g text behind a) :
    g.read (text ++ behind) = .value a behind := by
  obtain ⟨hresult, hplace⟩ := h
  unfold runFrom at hresult hplace
  cases hrun : g.start settings (.initial (text ++ behind)) with
  | value b u =>
    rw [hrun] at hresult hplace
    cases hresult
    have hread := (run_value (.initial (text ++ behind)) hrun).1
    have hrest : u.cursor.rest = behind := by
      rw [show u.cursor = _ from hplace]
      exact Cursor.rest_atOffset rfl
    rwa [hrest] at hread
  | mismatch u =>
    rw [hrun] at hresult
    cases hresult
  | abort b u =>
    rw [hrun] at hresult
    cases hresult

/-- With enough levels a steady way is taken. -/
theorem takes_of_steady (h : Steady .bare levels 0 (.term g) (text ++ behind) (some (a, behind)))
    (hn : levels ≤ settings.stack) : Takes settings g text behind a := by
  obtain ⟨u, hu, hin, hrest, -⟩ := h.run_ok (Seam.keeps_anything settings (text ++ behind))
    (.initial (text ++ behind)) rfl rfl trivial hn
  have hplace : u.cursor = .atOffset (text ++ behind) u.cursor.offset := hin.sound.place
  have hoffset := hin.offset_add
  rw [hrest, List.length_append, Nat.add_right_cancel_iff] at hoffset
  unfold Takes runFrom
  rw [Grammar.start, hu]
  exact ⟨rfl, hoffset ▸ hplace⟩

/-! ## Digits -/

/-- The value of a hexadecimal digit, with letters in either case. -/
def hexValue (c : Char) : Nat := "0123456789abcdef".toList.idxOf c.toLower

theorem positional_hexDigit {c : Char} (h : hexDigit c = true) :
    (Numeral.digitValue? c).getD 0 = hexValue c ∧ hexValue c < 16 := by
  have hall : ∀ n < 103, hexDigit (Char.ofNat n) = true →
      (Numeral.digitValue? (Char.ofNat n)).getD 0 = hexValue (Char.ofNat n) ∧
        hexValue (Char.ofNat n) < 16 := by decide
  have hlt := hexDigit_iff.mp h
  rw [← Char.ofNat_toNat c] at h ⊢
  exact hall c.toNat (by omega) h

/-- Pairs of digits are the two halves of a byte each. -/
theorem halves_bytesOf (h : ∀ c ∈ s, hexDigit c = true) (heven : s.length % 2 = 0) :
    s.map hexValue = (bytesOf s).flatMap fun b => [b.toNat / 16, b.toNat % 16] := by
  fun_induction bytesOf s with
  | case1 x y rest ih =>
    simp only [List.forall_mem_cons] at h
    obtain ⟨hx, hy, hrest⟩ := h
    obtain ⟨hxv, hxlt⟩ := positional_hexDigit hx
    obtain ⟨hyv, hylt⟩ := positional_hexDigit hy
    have hbyte : (UInt8.ofNat (Numeral.positional 16 [x, y])).toNat =
        16 * hexValue x + hexValue y := by
      simp only [Numeral.positional, List.foldl_cons, List.foldl_nil, hxv, hyv]
      rw [UInt8.toNat_ofNat']
      omega
    rw [List.map_cons, List.map_cons, List.flatMap_cons, hbyte,
      ih hrest (by simp only [List.length_cons] at heven; omega),
      show (16 * hexValue x + hexValue y) / 16 = hexValue x by omega,
      show (16 * hexValue x + hexValue y) % 16 = hexValue y by omega]
    rfl
  | case2 s hs =>
    cases s with
    | nil => rfl
    | cons x rest =>
      cases rest with
      | nil => cases heven
      | cons y rest => exact absurd rfl (hs x y rest)

/-- Digits spell bytes, two of them a byte. -/
def Spells (digits : List Char) (digest : Digest) : Prop :=
  digits.map hexValue = digest.flatMap fun b => [b.toNat / 16, b.toNat % 16]

/-- The digits of a hash spell one. -/
theorem spells_bytesOf (h : (r.takeWhile hexDigit).length = Defect.hashDigits) :
    Spells (r.takeWhile hexDigit) (bytesOf (r.takeWhile hexDigit)) := by
  refine halves_bytesOf (fun c hc => mem_takeWhile hc) ?_
  rw [h]
  rfl

/-! ## Behind the kind of an import -/

/-- What stands behind an import as a hash does, up to its digits. -/
abbrev hashMark : List Char := "sha256:".toList

/-- An import without a hash is the kind that it begins with. -/
theorem read_importType_of_hashed
    (h : Rule.importHashed.read s = .value (.mk kind none .code) t) :
    Rule.importType.read s = .value kind t := by
  rw [Rule.read_eq] at h
  obtain ⟨kind', u, hkind, h⟩ := Reading.bind_eq_value.mp h
  obtain ⟨hash, u', hhash, h⟩ := Reading.bind_eq_value.mp h
  cases h
  obtain hhash | ⟨-, hhash⟩ := Reading.orElse_eq_value.mp hhash
  · obtain ⟨_, _, -, hsome⟩ := Reading.bind_eq_value.mp hhash
    cases hsome
  · cases hhash
    exact hkind

section Behind

variable (hw : Blank w)

include hw

theorem readBy_whitespace_mark :
    whitespace.read (w ++ (hashMark ++ r)) = .value () (hashMark ++ r) :=
  (readBy_whitespace_blank hw _).trans (readBy_whitespace_tight rfl)

/-- No headers follow. -/
theorem steady_no_using :
    Steady .bare 0 0 (.term usingClause) (w ++ (hashMark ++ r)) none := by
  refine .bind (.plain (by simp [whitespace]) (readBy_whitespace_mark hw)) (.miss ?_)
  have hopens : Grammar.OpensWith "u".toList.contains 0 (keyword "using") :=
    Rule.opens_keyword "using" (by decide)
  exact hopens.steady rfl trivial 0

theorem steady_whitespace1 (hne : w ≠ []) :
    Steady .bare levels 0 (.term whitespace1) (w ++ (hashMark ++ r))
      (some ((), hashMark ++ r)) := by
  refine .plain (by simp [whitespace1, whitespace]) ?_
  simp only [Grammar.read, whitespace1, readBy_bind, readBy_look, starts_blank hw hne,
    Reading.bind_value, if_true]
  exact readBy_whitespace_mark hw

end Behind

/-- In front of whitespace and the mark of a hash an import comes from the same place, if a comment
behind it is no part of it. -/
theorem steady_kind {chunks : List (List Char)} (hchunks : ∀ chunk ∈ chunks, IsChunk chunk)
    (hne : chunks.flatten ≠ []) (hkind : kind.NoHeaders)
    (ht : Rule.importType.read t = .value kind [])
    (hdash : chunks.flatten.head? = some '-' →
      Rule.importType.read (t ++ chunks.flatten) = .value kind chunks.flatten) :
    Steady .bare 2 0 (.term (call .importType)) (t ++ (chunks.flatten ++ (hashMark ++ r)))
      (some (kind, chunks.flatten ++ (hashMark ++ r))) := by
  have husing := @steady_no_using _ r (blank_flatten hchunks)
  cases chunks with
  | nil => exact absurd rfl hne
  | cons chunk chunks =>
    rw [List.flatten_cons] at husing hdash ⊢
    have hedge : HeadIn edges (chunk ++ chunks.flatten ++ (hashMark ++ r)) →
        Steady .bare 2 0 (.term (call .importType))
          (t ++ (chunk ++ chunks.flatten ++ (hashMark ++ r)))
          (some (kind, chunk ++ chunks.flatten ++ (hashMark ++ r))) := by
      intro hv
      refine steady_importType_of_read (x := t) (y := []) (e := []) ?_ hv hkind ⟨?_, husing⟩
      · rwa [List.append_nil]
      · rintro c ⟨⟩
    cases List.forall_mem_cons.mp hchunks |>.1 with
    | space | tab | newline | carriage | block => exact hedge (by rintro c ⟨⟩; decide)
    | @line text htext =>
      -- The comment up to its line ending is in front of what changes.
      have hshape : ∀ s, ['-', '-'] ++ (text ++ ['\n']) ++ s = '-' :: '-' :: text ++ '\n' :: s := by
        simp
      have hread : Rule.importType.read (t ++ '-' :: '-' :: text ++ '\n' :: chunks.flatten) =
          .value kind ('-' :: '-' :: text ++ '\n' :: chunks.flatten) := by
        rw [List.append_assoc, ← hshape]
        exact hdash rfl
      rw [List.append_assoc _ chunks.flatten, hshape] at husing ⊢
      rw [← List.append_assoc t]
      refine steady_importType_of_read hread (by rintro c ⟨⟩; decide) hkind ⟨?_, husing⟩
      rintro c ⟨⟩
      exact ⟨by decide, by decide⟩

/-! ## What the mark of a hash stands in front of -/

section Marked

variable (hw : Blank w) (hne : w ≠ [])
  (hk : Steady .bare 2 0 (.term (call .importType)) s (some (kind, w ++ (hashMark ++ r))))

include hw hne hk

/-- Whitespace behind the mark makes it a variable and an annotation. -/
theorem steady_importHashed_variable (hr : starts r = true) :
    Steady .bare 3 0 (.term (call .importHashed)) s
      (some (.mk kind none .code, w ++ (hashMark ++ r))) := by
  have hhash : integrityHash.read (hashMark ++ r) = .mismatch := by
    have hvariable : (hashMark.isPrefixOf (hashMark ++ r) &&
        starts ((hashMark ++ r).drop 7)) = true := hr
    simp only [Grammar.read, integrityHash, readBy_bind, readBy_look, Reading.bind_value,
      hvariable, if_true, readBy_fail]
  have hsuffix : Steady .bare 2 0 (.term (optional? (do whitespace1; integrityHash)))
      (w ++ (hashMark ++ r)) (some (none, w ++ (hashMark ++ r))) :=
    .right (.miss (.bind (steady_whitespace1 hw hne) (.plain (by simp [integrityHash]) hhash)))
      (.plain (by simp) rfl)
  exact .call trivial (.bind hk (.bind hsuffix (.plain (by simp) rfl)))

/-- The right number of digits behind it is a hash. -/
theorem steady_importHashed_digest (hr : starts r = false)
    (hcount : (r.takeWhile hexDigit).length = Defect.hashDigits) :
    Steady .bare 3 0 (.term (call .importHashed)) s
      (some (.mk kind (some (bytesOf (r.takeWhile hexDigit))) .code, r.dropWhile hexDigit)) := by
  have hhash : integrityHash.read (hashMark ++ r) =
      .value (bytesOf (r.takeWhile hexDigit)) (r.dropWhile hexDigit) :=
    (readBy_integrityHash hr).trans (if_pos (beq_iff_eq.mpr hcount))
  have hsuffix : Steady .bare 2 0 (.term (optional? (do whitespace1; integrityHash)))
      (w ++ (hashMark ++ r))
      (some (some (bytesOf (r.takeWhile hexDigit)), r.dropWhile hexDigit)) :=
    .left (.bind (.bind (steady_whitespace1 hw hne) (.plain (by simp [integrityHash]) hhash))
      (.plain (by simp) rfl))
  exact .call trivial (.bind hk (.bind hsuffix (.plain (by simp) rfl)))

/-- Another number of digits is a fault, which is found behind them and shown at the mark. -/
theorem halts_importHashed (hr : starts r = false)
    (hcount : (r.takeWhile hexDigit).length ≠ Defect.hashDigits) :
    Halts .bare 3 0 (.term (call .importHashed)) s
      ⟨.defect (.hashLength (r.takeWhile hexDigit).length), (hashMark ++ r).length,
        [.importHashed]⟩ := by
  have hvariable : (hashMark.isPrefixOf (hashMark ++ r) &&
      starts ((hashMark ++ r).drop 7)) = false := Bool.and_eq_false_iff.mpr (.inr hr)
  have hleft : (r.dropWhile hexDigit).length + ((r.takeWhile hexDigit).length + 7) =
      (hashMark ++ r).length := by
    have hlength := congrArg List.length (List.takeWhile_append_dropWhile (p := hexDigit) (l := r))
    rw [List.length_append] at hlength
    rw [List.length_append, show hashMark.length = 7 from rfl]
    omega
  refine .call (.next hk (.first (.left (.first (.next (steady_whitespace1 hw hne) ?_)))))
  refine .next (.plain (by simp) (readBy_look ..)) ?_
  rw [hvariable]
  refine .next (u := r) (.plain (by simp [expect]) rfl) ?_
  refine .next (.plain (by simp [takeWhile]) (readBy_takeWhile ..)) ?_
  rw [if_neg (mt beq_iff_eq.mp hcount)]
  exact hleft ▸ .abort

end Marked

/-- Behind an import without headers and whitespace the mark of a hash is one of three things. In
front of whitespace it is left, and the import ends where it did. In front of as many hexadecimal
digits as a hash has, in either letter case, these are its bytes, and nothing behind them is taken.
In front of anything else the hash is reported at its mark. The characters of a line comment may be
those of a path, of an address or of a label: whitespace that begins with one has to stand behind
the import where nothing follows it, too. -/
theorem importHashed_integrity (hstack : 3 ≤ settings.stack) (hkind : kind.NoHeaders)
    (ht : Takes settings (call .importHashed) t [] (.mk kind none .code))
    {chunks : List (List Char)} (hchunks : ∀ chunk ∈ chunks, IsChunk chunk)
    (hne : chunks.flatten ≠ [])
    (hdash : chunks.flatten.head? = some '-' →
      Takes settings (call .importHashed) t chunks.flatten (.mk kind none .code))
    (r : List Char) :
    let front := t ++ chunks.flatten
    let digits := r.takeWhile hexDigit
    ((∃ mark ∈ Whitespace.marks, mark <+: r) →
      Takes settings (call .importHashed) t (chunks.flatten ++ (hashMark ++ r))
        (.mk kind none .code)) ∧
    ((¬ ∃ mark ∈ Whitespace.marks, mark <+: r) →
      (digits.length = 64 → ∃ digest : Digest, digest.length = 32 ∧ Spells digits digest ∧
        Takes settings (call .importHashed) (front ++ (hashMark ++ digits)) (r.dropWhile hexDigit)
          (.mk kind (some digest) .code)) ∧
      (digits.length ≠ 64 → ∃ e,
        (runFrom settings (front ++ (hashMark ++ r)) (call .importHashed)).result =
          .error (.source e) ∧
        e.kind = .integrity ∧ e.location = .of (front ++ (hashMark ++ r)) front.length)) := by
  intro front digits
  have hw : Blank chunks.flatten := blank_flatten hchunks
  have hread : Rule.importType.read t = .value kind [] := by
    refine read_importType_of_hashed ?_
    have := ht.read
    rwa [List.append_nil] at this
  have hk := steady_kind (r := r) hchunks hne hkind hread fun hd =>
    read_importType_of_hashed (hdash hd).read
  rw [← starts_iff]
  refine ⟨fun hr => takes_of_steady (steady_importHashed_variable hw hne hk hr) hstack,
    fun hr => ?_⟩
  have hr : starts r = false := Bool.eq_false_iff.mpr hr
  constructor
  · intro hcount
    refine ⟨bytesOf digits, ?_, spells_bytesOf hcount, ?_⟩
    · rw [length_bytesOf, hcount]
    · refine takes_of_steady ?_ hstack
      have hshape : front ++ (hashMark ++ digits) ++ r.dropWhile hexDigit =
          t ++ (chunks.flatten ++ (hashMark ++ r)) := by
        simp only [front, digits, List.append_assoc, List.takeWhile_append_dropWhile]
      rw [hshape]
      exact steady_importHashed_digest hw hne hk hr hcount
  · intro hcount
    have hshape : front ++ (hashMark ++ r) = t ++ (chunks.flatten ++ (hashMark ++ r)) :=
      List.append_assoc ..
    rw [hshape]
    have hfault := halts_importHashed hw hne hk hr hcount
    refine ⟨_, (runFrom_of_halts (Seam.keeps_anything settings _) trivial hfault hstack).1, rfl, ?_⟩
    have hplace : (t ++ (chunks.flatten ++ (hashMark ++ r))).length - (hashMark ++ r).length =
        front.length := by
      rw [← hshape, List.length_append, Nat.add_sub_cancel]
    exact congrArg (Location.of _) hplace

/-- Behind an environment variable and a comment stand an annotated variable, a hash with a letter
in upper case, and two digits that are no hash. -/
theorem importHashed_integrity_env :
    let front := "env:X--c\n".toList
    let digits := "E3b0c44298fc1c149afbf4c8996fb92427ae41e4649b934ca495991b7852b855".toList
    Takes .standard (call .importHashed) "env:X".toList "--c\nsha256: T".toList
      (.mk (.env "X") none .code) ∧
    (∃ digest : Digest, digest.length = 32 ∧ Spells digits digest ∧
      Takes .standard (call .importHashed) (front ++ (hashMark ++ digits)) [')']
        (.mk (.env "X") (some digest) .code)) ∧
    ∃ e, (runFrom .standard (front ++ (hashMark ++ ['e', '3'])) (call .importHashed)).result =
        .error (.source e) ∧
      e.kind = .integrity ∧ e.location = .of (front ++ (hashMark ++ ['e', '3'])) 9 := by
  intro front digits
  have hkind : (ImportKind.env "X").NoHeaders := fun _ _ h => nomatch h
  have hchunks : ∀ chunk ∈ [['-', '-', 'c', '\n']], IsChunk chunk :=
    List.forall_mem_singleton.mpr (@IsChunk.line ['c'] (by decide))
  have hname : Takes .standard (call .importHashed) "env:X".toList [] (.mk (.env "X") none .code) :=
    ⟨rfl, rfl⟩
  have hhashes := importHashed_integrity (by decide) hkind hname hchunks (by decide)
    fun _ => ⟨rfl, rfl⟩
  refine ⟨(hhashes " T".toList).1 (by decide), ?_, ?_⟩
  · exact ((hhashes (digits ++ [')'])).2 (by decide)).1 (by decide)
  · exact ((hhashes ['e', '3']).2 (by decide)).2 (by decide)

/-- Right behind `missing` a line comment is no whitespace: the label goes on with its dashes, and
no import is taken. -/
theorem no_import_of_dashes :
    let comment := ['-', '-', 'c', '\n']
    let digits := "e3b0c44298fc1c149afbf4c8996fb92427ae41e4649b934ca495991b7852b855".toList
    Takes .standard (call .importHashed) "missing".toList [] (.mk .missing none .code) ∧
    IsChunk comment ∧ (¬ ∃ mark ∈ Whitespace.marks, mark <+: digits) ∧
    (digits.takeWhile hexDigit).length = 64 ∧
    ¬ ∃ digest, Takes .standard (call .importHashed)
      ("missing".toList ++ comment ++ (hashMark ++ digits)) []
      (.mk .missing (some digest) .code) := by
  intro comment digits
  refine ⟨⟨rfl, rfl⟩, @IsChunk.line ['c'] (by decide), by decide, by decide, ?_⟩
  rintro ⟨digest, hresult, -⟩
  have hfails : (runFrom .standard ("missing".toList ++ comment ++ (hashMark ++ digits) ++ [])
      (call .importHashed)).result.toBool = false := by decide
  rw [hresult] at hfails
  cases hfails

end DhallSyntax
