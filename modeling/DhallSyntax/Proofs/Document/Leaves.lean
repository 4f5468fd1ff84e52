import DhallSyntax.Document.Reader
import DhallSyntax.Proofs.Number.Conversion
import DhallSyntax.Proofs.Number.Decimal
import DhallSyntax.Proofs.Outcome

/-!
The leaves of trees in documents. Names, digests and doubles are read back from their texts.
`Leaves.Faithful` says the same of the texts and the sound numbers of a tree, and `Leaves.Exact` of
all of them.
-/

namespace DhallSyntax

/-! ## Names -/

theorem Operator.ofName?_name (operator : Operator) :
    Operator.ofName? operator.name = some operator := by
  cases operator <;> rfl

theorem ImportMode.ofName?_name (mode : ImportMode) : ImportMode.ofName? mode.name = some mode := by
  cases mode <;> rfl

theorem Anchor.ofName?_name (anchor : Anchor) : Anchor.ofName? anchor.name = some anchor := by
  cases anchor <;> rfl

theorem Scheme.ofName?_name (scheme : Scheme) : Scheme.ofName? scheme.name = some scheme := by
  cases scheme <;> rfl

/-! ## Digests -/

theorem hexDigits_two : ∀ n < 256,
    (hexDigits 2 n).toList = [Nat.digitChar (n / 16), Nat.digitChar (n % 16)] := by
  decide +kernel

theorem hexChar : ∀ d < 16, isAsciiBlank (Nat.digitChar d) = false ∧
    (Nat.digitChar d).isAlphanum = true ∧ Numeral.digitValue? (Nat.digitChar d) = some d := by
  decide +kernel

theorem hashBytes?_byte (byte : UInt8) (rest : List Char) :
    Document.hashBytes? ((hexDigits 2 byte.toNat).toList ++ rest) =
      (Document.hashBytes? rest).map (byte :: ·) := by
  have hlt : byte.toNat < 256 := byte.toNat_lt
  have hhigh : byte.toNat / 16 < 16 := by omega
  have hlow : byte.toNat % 16 < 16 := by omega
  obtain ⟨hblank, hletter, hvalue⟩ := hexChar _ hhigh
  obtain ⟨-, hletter', hvalue'⟩ := hexChar _ hlow
  have hbyte : UInt8.ofNat (byte.toNat / 16 * 16 + byte.toNat % 16) = byte := by
    rw [Nat.div_add_mod' byte.toNat 16, UInt8.ofNat_toNat]
  rw [hexDigits_two _ hlt]
  simp [Document.hashBytes?, hblank, hletter, hletter', hvalue, hvalue', hhigh, hlow, hbyte]

/-- A digest is read back from its hexadecimal text. -/
theorem hashBytes?_digestText (digest : Digest) :
    Document.hashBytes? (digestText digest).toList = some digest := by
  induction digest with
  | nil => rfl
  | cons byte digest ih =>
    have htext : (digestText (byte :: digest)).toList =
        (hexDigits 2 byte.toNat).toList ++ (digestText digest).toList := by
      simp [digestText, String.join_cons]
    rw [htext, hashBytes?_byte, ih]
    rfl

/-! ## Texts and numbers -/

variable {α β : Type} {p q : Prop} {a : α} {b : β} {x : Except ReadError α}

/-- What is read back if a condition holds, and is refused for a number in it if not. -/
structure Restores (condition : Prop) (x : Except ReadError α) (a : α) : Prop where
  ok : condition → x = .ok a
  refused : ¬ condition → x = .error .badNumber

namespace Restores

theorem value (h : x = .ok a) : Restores True x a :=
  ⟨fun _ => h, fun hn => absurd trivial hn⟩

theorem congr (h : Restores p x a) (hpq : p ↔ q) : Restores q x a :=
  ⟨fun hq => h.ok (hpq.mpr hq), fun hq => h.refused (mt hpq.mp hq)⟩

theorem bind {f : α → Except ReadError β} (h : Restores p x a) (hf : Restores q (f a) b) :
    Restores (p ∧ q) (x >>= f) b := by
  by_cases hp : p
  · rw [h.ok hp, ok_bind]
    exact hf.congr (and_iff_right hp).symm
  · rw [h.refused hp]
    exact ⟨fun hpq => absurd hpq.1 hp, fun _ => rfl⟩

theorem map (h : Restores p x a) (f : α → β) : Restores p (f <$> x) (f a) :=
  ⟨fun hp => by rw [h.ok hp]; rfl, fun hp => by rw [h.refused hp]; rfl⟩

/-- The items of a list are read back one by one. -/
theorem mapM {read : β → Except ReadError α} {write : α → β} {r : α → Prop} {l : List α}
    (h : ∀ a ∈ l, Restores (r a) (read (write a)) a) :
    Restores (∀ a ∈ l, r a) ((l.map write).mapM read) l := by
  induction l with
  | nil => exact (value rfl).congr (by simp)
  | cons a l ih =>
    obtain ⟨ha, hl⟩ := List.forall_mem_cons.mp h
    rw [List.map_cons, List.mapM_cons]
    exact Restores.congr (ha.bind ((ih hl).bind (value rfl))) (by simp)

end Restores

variable {τ ν : Type}

/-- Texts are read back as they were written. Sound numbers are too, and all others are refused. -/
structure Leaves.Faithful (leaves : Leaves τ ν) (sound : ν → Prop) : Prop where
  readText_writeText : ∀ t, leaves.readText (leaves.writeText t) = .ok t
  restores_number : ∀ n,
    Restores (sound n) (leaves.readNumber (.text (leaves.writeNumber n))) n

theorem Leaves.Faithful.readTexts {leaves : Leaves τ ν} {sound : ν → Prop}
    (h : leaves.Faithful sound) (ts : List τ) :
    (ts.map leaves.writeText).mapM leaves.readText = .ok ts :=
  (Restores.mapM fun t _ => .value (h.readText_writeText t)).ok fun _ _ => trivial

/-- Texts and numbers are read back as they were written, and no text is null. -/
structure Leaves.Exact (leaves : Leaves τ ν) : Prop where
  readText_writeText : ∀ t, leaves.readText (leaves.writeText t) = .ok t
  readNumber_writeNumber : ∀ n, leaves.readNumber (.text (leaves.writeNumber n)) = .ok n
  writeText_ne_null : ∀ t, leaves.writeText t ≠ .null

theorem Leaves.Exact.faithful {leaves : Leaves τ ν} (h : leaves.Exact) :
    leaves.Faithful fun _ => True where
  readText_writeText := h.readText_writeText
  restores_number n := .value (h.readNumber_writeNumber n)

/-- The word for a truth value is no number. -/
theorem Numeral.readSigned?_wordFor (b : Bool) :
    readSigned? (Scalar.wordFor b).toList = none := by
  have hsign : splitSign (Scalar.wordFor b).toList = (false, (Scalar.wordFor b).toList) := by
    cases b <;> rfl
  have hne : (Scalar.wordFor b).toList ≠ [] := by cases b <;> decide
  have hlength : (Scalar.wordFor b).toList.length ≤ sliceLength := by cases b <;> decide
  have hread : readIn? 10 (Scalar.wordFor b).toList = none := by cases b <;> rfl
  rw [readSigned?, hsign]
  dsimp only
  rw [readSliced?_short hne hlength, hread, Option.map_none]

/-- Documents stand for themselves as texts. All numbers but truth values are read back. -/
theorem Leaves.loose_faithful : Leaves.loose.Faithful fun n => ∀ b, n ≠ .flag b where
  readText_writeText _ := rfl
  restores_number n := by
    cases n with
    | number k =>
      refine Restores.congr (.value ?_) (by simp)
      simp only [loose, LooseNumber.read, LooseNumber.text, Numeral.readSigned?_writeSliced]
    | flag b =>
      refine ⟨fun h => absurd rfl (h b), fun _ => ?_⟩
      simp only [loose, LooseNumber.read, LooseNumber.text, Numeral.readSigned?_wordFor]

theorem Leaves.strict_exact : Leaves.strict.Exact where
  readText_writeText _ := rfl
  readNumber_writeNumber n := by
    simp only [strict, LooseNumber.read, Numeral.readSigned?_writeSliced]
    rfl
  writeText_ne_null _ h := nomatch h

end DhallSyntax
