import DhallSyntax.Proofs.Reading.Collections
import DhallSyntax.Proofs.Reading.Imports
import DhallSyntax.Proofs.Reading.Parse

/-!
Every tree that obeys the data model can be written. The text of a tree is read back as that tree,
form by form (`writes_of_wellFormed`), so that parsing it yields the tree (`parse_rendered`).
-/

namespace DhallSyntax

open Rendering (chars)

theorem writes_of_wellFormed {e : Expr} (h : e.WellFormed .readable) : Writes (chars e) e := by
  induction h with
  | «variable» hname hindex => exact writes_variable hname hindex
  | builtin hname => exact writes_builtin hname
  | lambda hparam _ _ hdomain hbody => exact writes_lambda hparam hdomain hbody
  | pi hparam _ _ hdomain hbody => exact writes_pi hparam hdomain hbody
  | app _ _ hfunction hargument => exact writes_app hfunction hargument
  | letIn hne hnames _ _ _ hannotations hvalues hbody =>
    exact writes_letIn hne (fun b hb => ⟨hnames b hb, hannotations b hb, hvalues b hb⟩) hbody
  | conditional _ _ _ hcondition hyes hno => exact writes_conditional hcondition hyes hno
  | annotated _ _ hsubject htype => exact writes_annotated hsubject htype
  | operation _ _ hleft hright => exact writes_operation _ hleft hright
  | @merge handler union type _ _ _ hhandler hunion htype =>
    cases type with
    | none => exact writes_merge hhandler hunion
    | some type => exact writes_merge_annotated hhandler hunion (htype type rfl)
  | @toMap record type _ _ hrecord htype =>
    cases type with
    | none => exact writes_toMap hrecord
    | some type => exact writes_toMap_annotated hrecord (htype type rfl)
  | emptyList _ helement => exact writes_emptyList helement
  | list hne _ helements => exact writes_list hne helements
  | present _ hvalue => exact writes_present hvalue
  | recordType hne hlabels hpresent _ hvalues =>
    exact writes_recordType hne (fun f hf => ⟨hlabels f hf, hvalues f hf⟩) hpresent
  | record hlabels hpresent _ hvalues =>
    exact writes_record (fun f hf => ⟨hlabels f hf, hvalues f hf⟩) hpresent
  | union hlabels _ htypes => exact writes_union fun f hf => ⟨hlabels f hf, htypes f hf⟩
  | field _ hlabel hrecord => exact writes_field hrecord hlabel
  | projection _ hlabels hrecord => exact writes_projection hrecord hlabels
  | projectionByType _ _ hrecord hselector => exact writes_projectionByType hrecord hselector
  | text _ _ _ hvalues => exact writes_text hvalues
  | double hvalue => exact writes_double hvalue
  | natural hvalue => exact writes_natural hvalue
  | integer value => exact writes_integer value
  | embedded hvalue => exact writes_embedded hvalue

/-- What is written for a tree that obeys the data model parses to the tree, with either kind of
parser, as soon as the bound on nested expressions is large enough for it. -/
theorem parse_rendered {e : Expr} (h : e.WellFormed .readable) :
    ∃ n, ∀ stack ≥ n, ∃ m, ∀ m' ≥ m, ∀ memoize,
      parse ⟨some m', memoize, stack⟩ e.rendered = .ok e := by
  have hw := writes_of_wellFormed h
  have hread : Rule.expression.read (chars e) = .value e [] := by
    have hread := hw.read [] (.inl rfl)
    rwa [List.append_nil] at hread
  have htight : Whitespace.Tight (chars e) := by
    have htight := hw.tight []
    rwa [List.append_nil] at htight
  refine parse_of_read ?_
  have hexpression : (Grammar.call .expression).read (chars e) = .value e [] := hread
  have hend : Whitespace.Tight [] := rfl
  rw [Expr.rendered, String.toList_ofList]
  simp only [Grammar.completeExpression, Grammar.readBy_bind,
    Grammar.readBy_whitespace_tight htight, hexpression, Grammar.readBy_whitespace_tight hend,
    Reading.bind_value, Grammar.readBy_pure]

/-- A variable named like a keyword, and a path with a blank in it. -/
theorem parse_rendered_app :
    ∃ n, ∀ stack ≥ n, ∃ m, ∀ m' ≥ m, ∀ memoize,
      parse ⟨some m', memoize, stack⟩
        (Expr.rendered (.app (.variable "if" 2)
          (.embedded (.mk (.path .here ["a b"]) none .rawText)))) =
        .ok (.app (.variable "if" 2) (.embedded (.mk (.path .here ["a b"]) none .rawText))) :=
  parse_rendered (.app (.variable (by decide) (by decide))
    (.embedded (.mk (.path (by decide) (List.forall_mem_singleton.mpr
      ⟨by decide, List.all_eq_true.mp (by decide)⟩)) (fun _ h => nomatch h))))

example : Expr.rendered (.app (.variable "if" 2)
    (.embedded (.mk (.path .here ["a b"]) none .rawText))) =
      "( \x60if\x60 @ 2 ) ( ./\"a b\" as Text )" := by decide

end DhallSyntax
