import DhallSyntax.Proofs.Document.Shape
import DhallSyntax.Proofs.Json.RoundTrip

/-!
Expressions exchanged as documents and as JSON texts. Main statement: `read_written`, an
expression that is not too deep comes back whole from its document, and from every JSON text of it.
-/

namespace DhallSyntax

open Json (PlainWithin)

/-! ## Nesting -/

namespace Json.PlainWithin

theorem mono {m n : Nat} {d : Document} (h : PlainWithin m d) (hmn : m ≤ n) : PlainWithin n d := by
  induction h generalizing n with
  | scalar hs => exact .scalar hs
  | list _ ih =>
    obtain ⟨n, rfl⟩ := Nat.exists_eq_succ_of_ne_zero (Nat.ne_of_gt (Nat.zero_lt_of_lt hmn))
    exact .list fun item hi => ih item hi (Nat.le_of_succ_le_succ hmn)
  | object hkey hnodup _ ih =>
    obtain ⟨n, rfl⟩ := Nat.exists_eq_succ_of_ne_zero (Nat.ne_of_gt (Nat.zero_lt_of_lt hmn))
    exact .object hkey hnodup fun e he => ih e he (Nat.le_of_succ_le_succ hmn)

end Json.PlainWithin

namespace Document

/-- Documents of the shape of trees have texts in all formats. -/
theorem Shaped.plainWithin {n : Nat} {d : Document} (h : Shaped n d) : PlainWithin n d := by
  induction h with
  | scalar hs => exact .scalar (by cases hs <;> trivial)
  | list _ _ ih => exact .list ih
  | object _ hkeys hnodup _ ih => exact .object (fun e he => (hkeys e he).exists_text) hnodup ih

end Document

namespace Expr

open DhallSyntax.Tree (toDocument depthLimit readWithin_toDocument shaped_toDocument)

theorem toDocument?_eq {e : Expr} (h : e.depth ≤ depthLimit) :
    e.toDocument? = some (toDocument .strict e) := if_pos h

theorem ofDocument_toDocument {e : Expr} (h : e.depth ≤ depthLimit) :
    ofDocument (toDocument .strict e) = .ok e :=
  readWithin_toDocument Leaves.strict_exact h

/-- A text of an expression is that of its document, which has no long integer. -/
theorem eq_of_written {e : Expr} (h : e.depth ≤ depthLimit) {text : Document → String} {t : String}
    (ht : e.exchangeDocument.map text = .ok t) :
    (toDocument .strict e).hasLongInteger = false ∧ t = text (toDocument .strict e) := by
  rw [exchangeDocument, toDocument?_eq h] at ht
  dsimp only at ht
  split at ht
  · cases ht
  · rename_i hlong
    exact ⟨Bool.eq_false_iff.mpr hlong, (Except.ok.inj ht).symm⟩

/-- An expression that is not too deep is read back from its document, and from every JSON text
that it is written as. -/
theorem read_written {e : Expr} (h : e.depth ≤ 200) :
    (∃ d, e.toDocument? = some d ∧ Expr.ofDocument d = .ok e) ∧
      ∀ indent t, e.toJson indent = .ok t → Expr.read .json t = .ok e := by
  have hdepth : e.depth ≤ depthLimit := Nat.le_trans h (by decide)
  refine ⟨⟨toDocument .strict e, toDocument?_eq hdepth, ofDocument_toDocument hdepth⟩, ?_⟩
  intro indent t ht
  obtain ⟨hlong, rfl⟩ := eq_of_written hdepth ht
  have hplain : PlainWithin Json.depthLimit (toDocument .strict e) :=
    (shaped_toDocument h).plainWithin.mono (by decide)
  have hjson : Json.read Json.depthLimit (Json.indented indent (toDocument .strict e)) =
      .ok (toDocument .strict e) :=
    Json.read_render (Json.Layout.Readable.indented indent) hplain hlong 0
  rw [read, Format.read, hjson]
  exact congrArg (Except.mapError ExchangeError.tree) (ofDocument_toDocument hdepth)

/-- A negative zero between a line break and a quote, in an import with headers and a digest. -/
theorem read_written_headers :
    let host : Url String := ⟨.https, "x.org", ["", "p"], none, some "", some "q"⟩
    let type : Expr :=
      .embedded (.mk (.urlUsing host (.mk (.env "H") none .code)) (some [0, 255]) .rawText)
    let zero : Expr := .double (@Decimal.finite true 0 (-1) (by decide))
    let e : Expr := .annotated (.text [("\n", zero)] "\"") type
    e.depth ≤ 200 ∧ (∃ d, e.toDocument? = some d ∧ Expr.ofDocument d = .ok e) ∧
      ∃ t, e.toJson 0 = .ok t ∧ Expr.read .json t = .ok e := by
  intro host type zero e
  have h : e.depth ≤ 200 := by decide
  have hjson : e.toJson 0 = .ok (Json.indented 0 (toDocument .strict e)) := by rfl
  exact ⟨h, (read_written h).1, _, hjson, (read_written h).2 0 _ hjson⟩

end Expr

end DhallSyntax
