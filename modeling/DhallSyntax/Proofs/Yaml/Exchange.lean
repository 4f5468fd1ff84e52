import DhallSyntax.Proofs.Exchange
import DhallSyntax.Proofs.Yaml.RoundTrip
import DhallSyntax.Proofs.Yaml.Trees

/-!
Expressions exchanged as YAML texts. Main statement: `read_toYaml`, the YAML text of an expression
that is not too deep is read as the expression with each text as it is read where it stands, and so
as the expression itself exactly if all of its texts are kept.
-/

namespace DhallSyntax

namespace Tree

/-- A tree as it is read from its YAML text. -/
def readBack (t : Expr) : Expr := t.mapTexts Yaml.textAt 0

/-- All texts of a tree come back from where they stand in its YAML text. -/
def IsKept (t : Expr) : Prop :=
  ∀ p ∈ t.leveledTexts 0, Yaml.Kept (Yaml.step * p.1) p.2.toList

theorem readBack_eq_self_iff {t : Expr} : t.readBack = t ↔ t.IsKept := by
  rw [readBack, mapTexts_eq_self_iff, IsKept]
  exact forall₂_congr fun _ _ => Yaml.readText_eq_iff

theorem depth_readBack (t : Expr) : t.readBack.depth = t.depth := depth_mapTexts _ _ t

/-- The document of a tree is read as that of the tree with each text as it is read. -/
theorem readAs_toDocument (t : Expr) :
    Yaml.readAs 0 (toDocument .strict t) = toDocument .strict t.readBack :=
  (toDocument_mapTexts 0 t).symm

end Tree

namespace Expr

open DhallSyntax.Tree (toDocument depthLimit shaped_toDocument exists_entries)

/-- The YAML text of an expression that is not too deep is always read as an expression. That is the
one that was written if all of its texts are kept, and never otherwise. -/
theorem read_toYaml {e : Expr} (h : e.depth ≤ 200) {t : String} (ht : e.toYaml = .ok t) :
    Expr.read .yaml t = .ok e.readBack ∧ (Expr.read .yaml t = .ok e ↔ e.IsKept) := by
  have hdepth : e.depth ≤ depthLimit := Nat.le_trans h (by decide)
  obtain ⟨hlong, rfl⟩ := eq_of_written hdepth ht
  have hyaml : Yaml.read (Yaml.render (toDocument .strict e)) =
      .ok (toDocument .strict e.readBack) := by
    have hshaped : Document.Shaped Yaml.Node.depthLimit (toDocument .strict e) :=
      (shaped_toDocument h).mono (by decide)
    rw [← Tree.readAs_toDocument]
    obtain ⟨entries, hentries⟩ := exists_entries e
    rw [hentries] at hshaped hlong ⊢
    exact Yaml.read_render hshaped hlong
  have hread : Expr.read .yaml (Yaml.render (toDocument .strict e)) = .ok e.readBack := by
    rw [read, Format.read, hyaml]
    exact congrArg (Except.mapError ExchangeError.tree)
      (ofDocument_toDocument (e.depth_readBack ▸ hdepth))
  refine ⟨hread, ?_⟩
  rw [hread, ← Tree.readBack_eq_self_iff]
  exact ⟨Except.ok.inj, congrArg _⟩

/-- A next line character between letters becomes a space; a control code in front of a space is
kept. -/
theorem read_toYaml_nextLine :
    let spoiled : Expr := .text [] "a\x85b"
    let kept : Expr := .text [] "a\x01 b"
    (∃ t, spoiled.toYaml = .ok t ∧ Expr.read .yaml t = .ok (.text [] "a b")) ∧
      ∃ t, kept.toYaml = .ok t ∧ Expr.read .yaml t = .ok kept := by
  intro spoiled kept
  have hspoiled : spoiled.toYaml = .ok (Yaml.render (toDocument .strict spoiled)) := by rfl
  have hkept : kept.toYaml = .ok (Yaml.render (toDocument .strict kept)) := by rfl
  refine ⟨⟨_, hspoiled, ?_⟩, _, hkept, ?_⟩
  · rw [(read_toYaml (by decide) hspoiled).1]
    have htext : Yaml.textAt 1 "a\x85b" = "a b" := by decide +kernel
    exact congrArg (fun s => Except.ok (Tree.text [] s)) htext
  · refine (read_toYaml (by decide) hkept).2.mpr fun p hp => ?_
    obtain rfl := List.mem_singleton.mp hp
    rw [Yaml.Kept, if_pos (by decide +kernel)]
    exact .inl (by decide)

end Expr

end DhallSyntax
