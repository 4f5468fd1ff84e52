import DhallSyntax.Proofs.Document.Leaves
import DhallSyntax.Proofs.Number.Slices

/-!
Naturals and integers of documents whose value is a text. Main statement: `literal_of_text`, exactly
which texts are taken, and for exactly which of them the number is the one that the text stands for.
-/

namespace DhallSyntax.LooseTree

open Document Numeral

/-- The nodes that are whole numbers, by their kinds. -/
inductive NumberKind : String → (LooseNumber → LooseTree) → Prop where
  | natural : NumberKind "NaturalLiteral" .natural
  | integer : NumberKind "IntegerLiteral" .integer

variable {d value : Document} {entries : List (Scalar × Document)} {kind : String}
  {make : LooseNumber → LooseTree}

/-- A node of one of these kinds is its value, read as a number. -/
theorem ofDocument_number (hmake : NumberKind kind make) (hd : d.fields = .ok entries)
    (hkind : lookup "kind" entries = some (.text kind))
    (hvalue : lookup "value" entries = some value) :
    LooseTree.ofDocument d = make <$> LooseNumber.read value := by
  have hrequired : required "value" entries = .ok value := by rw [required, hvalue]
  have hnode : ∀ read, Tree.readNode Leaves.loose read entries kind =
      (do return make (← LooseNumber.read (← required "value" entries))) := by
    intro read
    cases hmake <;> rfl
  have hopen : required "kind" entries = .ok (.text kind) := by rw [required, hkind]
  rw [LooseTree.ofDocument, Tree.ofDocument, Tree.depthLimit, Tree.readWithin, hd, ok_bind, hopen,
    ok_bind]
  refine (hnode _).trans ?_
  rw [hrequired]
  rfl

/-- A text is taken as the value of a natural or an integer if and only if every slice of it behind
the sign is a numeral; all other texts are refused as bad numbers. What is taken is the number that
the whole text stands for if and only if the text is legible. -/
theorem literal_of_text {text : String} (hmake : NumberKind kind make) (hd : d.fields = .ok entries)
    (hkind : lookup "kind" entries = some (.text kind))
    (hvalue : lookup "value" entries = some (.text text)) :
    (Sliced text.toList → ∃ n, LooseTree.ofDocument d = .ok (make (.number n)) ∧
      (Denotes text.toList n ↔ Legible text.toList)) ∧
    (¬ Sliced text.toList → LooseTree.ofDocument d = .error .badNumber) := by
  rw [ofDocument_number hmake hd hkind hvalue, LooseNumber.read]
  constructor
  · intro hsliced
    have hread := readSigned?_eq_some_iff.mpr ⟨hsliced, rfl⟩
    refine ⟨_, ?_, denotes_iff_legible hread⟩
    rw [hread]
    rfl
  · intro hsliced
    rw [readSigned?_eq_none hsliced]
    rfl

/-- A second sign is left to the first slice, so that the text is read although it is no numeral. -/
theorem literal_of_text_signs :
    let d : Document := .object [("kind", .text "NaturalLiteral"), ("value", .text "--5")]
    LooseTree.ofDocument d = .ok (.natural (.number 5)) ∧ ¬ Denotes ['-', '-', '5'] 5 := by
  intro d
  have htext : "--5".toList = ['-', '-', '5'] := rfl
  have hslices : slices ['-', '5'] = [['-', '5']] := slices_short (by decide) (by decide)
  have hsliced : Sliced "--5".toList := by
    rw [htext, Sliced, splitSign, hslices]
    exact List.forall_mem_singleton.mpr ⟨-5, read?_eq_some_iff.mp (by decide)⟩
  have hread : readSigned? ['-', '-', '5'] = some 5 := by
    refine readSigned?_eq_some_iff.mpr ⟨hsliced, ?_⟩
    rw [splitSign, hslices]
    rfl
  obtain ⟨n, hn, hlegible⟩ := (literal_of_text (d := d) .natural rfl rfl rfl).1 hsliced
  have hfive : n = 5 := by
    rw [ofDocument_number (d := d) .natural rfl rfl rfl, LooseNumber.read, htext, hread] at hn
    cases hn
    rfl
  subst hfive
  refine ⟨hn, fun hdenotes => ?_⟩
  obtain ⟨m, hm⟩ := (hlegible.mp hdenotes).numeral
  exact absurd (hm.around_minus (s := [])).2 (by decide)

end DhallSyntax.LooseTree
