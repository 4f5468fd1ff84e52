import DhallSyntax.Proofs.Document.Spread
import DhallSyntax.Proofs.Exchange

/-!
Which expressions have JSON and YAML texts. Naturals, integers, doubles and digests stand in a
document as texts and may have any number of digits; the index of a variable stands there as a
number, which is converted only if it is not too long. Main statement: `written_iff`.
-/

namespace DhallSyntax

/-- A number has more digits than are converted. -/
def Numeral.IsLong (n : Int) : Prop :=
  conversionLimit < (digitsOf n.natAbs).length

instance (n : Int) : Decidable (Numeral.IsLong n) := Nat.decLt _ _

namespace Expr

/-- A part of an expression is a variable with an index of too many digits. -/
def HasLongIndex (e : Expr) : Prop :=
  ∃ name index, Numeral.IsLong index ∧ Tree.PartOf (.variable name index) e

theorem hasLongInteger_iff (e : Expr) :
    (Tree.toDocument .strict e).hasLongInteger = true ↔ e.HasLongIndex := by
  induction hk : e.depth using Nat.strongRecOn generalizing e with
  | ind k ih =>
    subst hk
    rw [Document.spreads_hasLongInteger.toDocument_iff]
    constructor
    · rintro (⟨_, -, htext⟩ | ⟨index, hindex, hlong⟩ | ⟨s, hs, h⟩)
      · cases htext
      · cases e with
        | «variable» name i =>
          cases hindex
          exact ⟨name, index, of_decide_eq_true hlong, .whole⟩
        | _ => cases hindex
      · obtain ⟨name, index, hlong, hpart⟩ :=
          (ih s.depth (Tree.depth_lt_of_mem_children hs) s rfl).mp h
        exact ⟨name, index, hlong, .inside hs hpart⟩
    · rintro ⟨name, index, hlong, hpart⟩
      cases hpart with
      | whole => exact .inr (.inl ⟨index, rfl, decide_eq_true hlong⟩)
      | inside hs hpart =>
        exact .inr (.inr ⟨_, hs, (ih _ (Tree.depth_lt_of_mem_children hs) _ rfl).mpr
          ⟨name, index, hlong, hpart⟩⟩)

/-- An expression that is not too deep has a JSON text with any indentation, and a YAML text, unless
the index of a variable in it has too many digits. All other numbers in it may have any number of
digits. -/
theorem written_iff {e : Expr} (h : e.depth ≤ 200) :
    (¬ e.HasLongIndex → (∀ indent, ∃ t, e.toJson indent = .ok t) ∧ ∃ t, e.toYaml = .ok t) ∧
      (e.HasLongIndex →
        (∀ indent, e.toJson indent = .error .longInteger) ∧ e.toYaml = .error .longInteger) := by
  have hdepth : e.depth ≤ Tree.depthLimit := Nat.le_trans h (by decide)
  simp only [toJson, toYaml, exchangeDocument, toDocument?_eq hdepth, ← hasLongInteger_iff]
  cases (Tree.toDocument .strict e).hasLongInteger with
  | true => exact ⟨fun hno => absurd rfl hno, fun _ => ⟨fun _ => rfl, rfl⟩⟩
  | false => exact ⟨fun _ => ⟨fun _ => ⟨_, rfl⟩, _, rfl⟩, fun hlong => by cases hlong⟩

/-- Numbers of 4301 digits, one of them an index. -/
theorem written_iff_variable :
    (∃ t, Expr.toYaml (.app (.natural (.ofNat (Nat.pow 10 4300))) (.integer (.negSucc (Nat.pow 10 4300)))) = .ok t) ∧
      Expr.toJson (.variable "x" (.ofNat (Nat.pow 10 4300))) 2 = .error .longInteger := by
  have hindex : Expr.HasLongIndex (.variable "x" (.ofNat (Nat.pow 10 4300))) :=
    ⟨"x", .ofNat (Nat.pow 10 4300), by decide +kernel, .whole⟩
  have hnone : ¬ Expr.HasLongIndex (.app (.natural (.ofNat (Nat.pow 10 4300))) (.integer (.negSucc (Nat.pow 10 4300)))) := by
    rw [← hasLongInteger_iff]
    exact Bool.false_ne_true
  exact ⟨((written_iff (by decide)).1 hnone).2, ((written_iff (by decide)).2 hindex).1 2⟩

end Expr

end DhallSyntax
