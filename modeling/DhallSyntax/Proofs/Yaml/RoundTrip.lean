import DhallSyntax.Proofs.Yaml.Nodes
import DhallSyntax.Proofs.Yaml.Visits
import DhallSyntax.Yaml.Reader

/-!
YAML texts read back. Main statements: `Holds.documentOf_eq`, a document that is held by a graph is
put together from what is shown of its collections; `read_render`, a rendered object is read as its
texts come back.
-/

namespace DhallSyntax.Yaml

open Document (Shaped IsFieldKey IsLeaf fieldNames)

variable {graph : Graph} {low index : Nat} {node : Node} {d : Document}

/-! ## Merging -/

/-- Without merge keys nothing is merged. -/
theorem Graph.merge_eq_self (h : ∀ pair ∈ graph.entriesOf node, graph.isMergeKey pair.1 = false)
    (fuel : Nat) : graph.merge fuel node = .ok graph := by
  have hposition : (graph.entriesOf node)[0 + ((graph.entriesOf node).drop 0).findIdx
      fun pair => graph.isMergeKey pair.1]? = none := by
    rw [List.drop_zero, Nat.zero_add, List.findIdx_eq_length.mpr h]
    exact List.getElem?_eq_none (Nat.le_refl _)
  have hrun : (mergeFrom fuel 0 [] node).run graph = .ok ((), graph) := by
    cases fuel with
    | zero => rfl
    | succ fuel =>
      delta mergeFrom
      simp only [StateT.run_bind, StateT.run_get, pure_bind]
      rw [hposition]
      rfl
  rw [merge, hrun]
  rfl

/-! ## Parts -/

/-- The part that a node of a document is. -/
def partFor : Node → Document → Part
  | .collection index, _ => .collection index
  | .scalar _ _, .scalar s => .scalar s
  | .scalar _ _, _ => .scalar .null

theorem Holds.part_eq (h : Holds graph low node d) : graph.part node = .ok (partFor node d) := by
  cases h with
  | scalar hs => simp [Graph.part, Graph.tagOf, hs, partFor, Except.map]
  | list _ hget _ => simp [Graph.part, Graph.tagOf, hget, partFor]
  | object _ _ hget _ => simp [Graph.part, Graph.tagOf, hget, partFor]

/-- What is shown of the collection of a list. -/
theorem Holds.shows_list {parts : List (Node × Document)}
    (hget : graph[index]? = some ⟨.collection .list, .items (parts.map Prod.fst)⟩)
    (hparts : ∀ p ∈ parts, Holds graph (index + 1) p.1 p.2) :
    graph.Shows index (.list (parts.map fun p => partFor p.1 p.2)) := by
  refine ⟨Graph.merge_eq_self (by simp [Graph.entriesOf, Graph.contentOf, hget]), ?_⟩
  have hmap : (parts.map Prod.fst).mapM graph.part = .ok (parts.map fun p => partFor p.1 p.2) := by
    rw [List.mapM_map]
    exact mapM_ok fun p hp => (hparts p hp).part_eq
  simp [Graph.shallow, Graph.tagOf, Graph.contentOf, hget, hmap]

/-- What is shown of the collection of an object. -/
theorem Holds.shows_object {parts : List (String × Node × Document)}
    (hget : graph[index]? = some ⟨.collection .mapping,
        .entries (parts.map fun p => (.scalar (.scalar .text) p.1, p.2.1))⟩)
    (hparts : ∀ p ∈ parts, Holds graph (index + 1) p.2.1 p.2.2) :
    graph.Shows index (.object (parts.map fun p => (.text p.1, partFor p.2.1 p.2.2))) := by
  refine ⟨Graph.merge_eq_self ?_, ?_⟩
  · intro pair hpair
    simp only [Graph.entriesOf, Graph.contentOf, hget, Option.elim_some] at hpair
    obtain ⟨p, -, rfl⟩ := List.mem_map.mp hpair
    rfl
  · have hmap : (parts.map fun p => ((.scalar (.scalar .text) p.1, p.2.1) : Node × Node)).mapM
        graph.entry = .ok (parts.map fun p => (.text p.1, partFor p.2.1 p.2.2)) := by
      rw [List.mapM_map]
      refine mapM_ok fun p hp => ?_
      have hpart := (hparts p hp).part_eq
      simp [Graph.entry, Graph.key, scalarValue, hpart]
    simp [Graph.shallow, Graph.tagOf, Graph.contentOf, hget, hmap]

/-- What is not a scalar is a collection of the graph. -/
theorem Holds.exists_index (h : Holds graph low node d) (hd : ∀ s, d ≠ .scalar s) :
    ∃ index, node = .collection index := by
  cases h with
  | scalar _ => exact absurd rfl (hd _)
  | list => exact ⟨_, rfl⟩
  | object => exact ⟨_, rfl⟩

/-! ## Documents of graphs -/

/-- The collections of documents. -/
def IsHeld (graph : Graph) (index : Nat) : Prop := ∃ low d, Holds graph low (.collection index) d

theorem mem_inner {c : Shallow Part} : index ∈ c.inner ↔ .collection index ∈ c.parts := by
  rw [Shallow.inner, List.mem_filterMap]
  constructor
  · rintro ⟨part, hpart, hindex⟩
    cases part with
    | scalar _ => cases hindex
    | collection i => exact Option.some_inj.mp hindex ▸ hpart
  · exact fun h => ⟨_, h, rfl⟩

theorem eq_collection_of_partFor (h : partFor node d = .collection index) :
    node = .collection index := by
  cases node with
  | collection i =>
    cases h
    rfl
  | scalar tag text => cases d <;> cases h

theorem isClosed_isHeld : graph.IsClosed (IsHeld graph) := by
  rintro index ⟨low, d, h⟩
  cases h with
  | list _ hget hparts =>
    obtain ⟨hsize, -⟩ := Array.getElem?_eq_some_iff.mp hget
    refine ⟨hsize, _, Holds.shows_list hget hparts, fun j hj => ?_⟩
    obtain ⟨p, hp, hpart⟩ := List.mem_map.mp (mem_inner.mp hj)
    exact ⟨_, p.2, eq_collection_of_partFor hpart ▸ hparts p hp⟩
  | object _ _ hget hparts =>
    obtain ⟨hsize, -⟩ := Array.getElem?_eq_some_iff.mp hget
    refine ⟨hsize, _, Holds.shows_object hget hparts, fun j hj => ?_⟩
    obtain ⟨e, he, hpart⟩ := List.mem_map.mp (mem_inner.mp hj)
    obtain ⟨p, hp, rfl⟩ := List.mem_map.mp he
    exact ⟨_, p.2.2, eq_collection_of_partFor hpart ▸ hparts p hp⟩

theorem enough_fuel {visited : Array (Option (Shallow Part))} {c : Shallow Part} {fuel : Nat}
    {around : List Nat} (hlow : low ≤ index) (hc : visited[index]? = some (some c))
    (haround : ∀ i ∈ around, i < low) (hfuel : visited.size ≤ fuel + low) :
    ∃ less, fuel = less + 1 ∧ around.contains index = false ∧
      (∀ i ∈ index :: around, i < index + 1) ∧ visited.size ≤ less + (index + 1) := by
  obtain ⟨hsize, -⟩ := Array.getElem?_eq_some_iff.mp hc
  refine ⟨fuel - 1, by omega, ?_, ?_, by omega⟩
  · simp only [List.contains_eq_mem, decide_eq_false_iff_not]
    exact fun hmem => absurd (haround index hmem) (by omega)
  · refine List.forall_mem_cons.mpr ⟨Nat.lt_succ_self _, fun i hi => ?_⟩
    have := haround i hi
    omega

theorem documentOf_succ {visited : Array (Option (Shallow Part))} {c : Shallow Part} {fuel : Nat}
    {around : List Nat} (hnew : around.contains index = false)
    (hc : visited[index]? = some (some c)) :
    documentOf visited (fuel + 1) around (.collection index) =
      let found := c.distinct.map (documentOf visited fuel (index :: around))
      if found.knots.isEmpty then ⟨found.document, []⟩
      else ⟨.knot index found.document, found.knots.filter (· != index)⟩ := by
  rw [documentOf, hnew, hc]
  rfl

theorem knots_eq_nil {c : Shallow Looped} (h : ∀ part ∈ c.parts, part.knots = []) :
    c.knots = [] := by
  rw [Shallow.knots, List.flatMap_eq_nil_iff.mpr h]
  rfl

/-- A list whose parts have no knots in them. -/
theorem documentOf_list {α : Type} {visited : Array (Option (Shallow Part))} {fuel : Nat}
    {around : List Nat} {parts : List α} {part : α → Part} {doc : α → Document}
    (hnew : around.contains index = false)
    (hc : visited[index]? = some (some (.list (parts.map part))))
    (h : ∀ p ∈ parts, documentOf visited fuel (index :: around) (part p) = ⟨doc p, []⟩) :
    documentOf visited (fuel + 1) around (.collection index) = ⟨.list (parts.map doc), []⟩ := by
  have hfound : (Shallow.list (parts.map part)).distinct.map
      (documentOf visited fuel (index :: around)) =
        .list (parts.map fun p => (⟨doc p, []⟩ : Looped)) := by
    simp only [Shallow.distinct, Shallow.map, List.map_map]
    exact congrArg _ (List.map_congr_left h)
  have hknots : (Shallow.list (parts.map fun p => (⟨doc p, []⟩ : Looped))).knots = [] :=
    knots_eq_nil (List.forall_mem_map.mpr fun _ _ => rfl)
  rw [documentOf_succ hnew hc, hfound]
  simp only [hknots, List.isEmpty_nil, ↓reduceIte, Shallow.document, List.map_map]
  rfl

theorem distinct_texts {α β : Type} {parts : List α} {key : α → String} {value : α → β}
    (hnodup : (parts.map key).Nodup) :
    Scalar.distinct (parts.map fun p => (.text (key p), value p)) =
      parts.map fun p => (.text (key p), value p) := by
  refine Json.scalar_distinct_eq_self ?_ ?_
  · rintro e he
    obtain ⟨p, -, rfl⟩ := List.mem_map.mp he
    exact ⟨key p, rfl⟩
  · rw [List.map_map]
    exact List.pairwise_map.mpr
      ((List.pairwise_map.mp hnodup).imp fun hne heq => hne (Scalar.text.inj heq))

/-- An object whose parts have no knots in them. -/
theorem documentOf_object {α : Type} {visited : Array (Option (Shallow Part))} {fuel : Nat}
    {around : List Nat} {parts : List α} {key : α → String} {part : α → Part} {doc : α → Document}
    (hnew : around.contains index = false) (hnodup : (parts.map key).Nodup)
    (hc : visited[index]? = some (some (.object (parts.map fun p => (.text (key p), part p)))))
    (h : ∀ p ∈ parts, documentOf visited fuel (index :: around) (part p) = ⟨doc p, []⟩) :
    documentOf visited (fuel + 1) around (.collection index) =
      ⟨.object (parts.map fun p => (.text (key p), doc p)), []⟩ := by
  have hfound : (Shallow.object (parts.map fun p => (.text (key p), part p))).distinct.map
      (documentOf visited fuel (index :: around)) =
        .object (parts.map fun p => (.text (key p), (⟨doc p, []⟩ : Looped))) := by
    rw [Shallow.distinct, distinct_texts hnodup, Shallow.map, List.map_map]
    exact congrArg _ (List.map_congr_left fun p hp => congrArg (Prod.mk _) (h p hp))
  have hknots : (Shallow.object
      (parts.map fun p => (.text (key p), (⟨doc p, []⟩ : Looped)))).knots = [] := by
    refine knots_eq_nil fun part hpart => ?_
    obtain ⟨e, he, rfl⟩ := List.mem_map.mp hpart
    obtain ⟨p, -, rfl⟩ := List.mem_map.mp he
    rfl
  rw [documentOf_succ hnew hc, hfound]
  simp only [hknots, List.isEmpty_nil, ↓reduceIte, Shallow.document, List.map_map]
  rfl

/-- A document is put together from what is shown of its collections. -/
theorem Holds.documentOf_eq {visited : Array (Option (Shallow Part))}
    (hvisited : ∀ i c, visited[i]? = some (some c) → graph.Shows i c ∧
      ∀ j ∈ c.inner, ∃ c', visited[j]? = some (some c'))
    (h : Holds graph low node d)
    (hnode : ∀ i, node = .collection i → ∃ c, visited[i]? = some (some c))
    {fuel : Nat} {around : List Nat} (haround : ∀ i ∈ around, i < low)
    (hfuel : visited.size ≤ fuel + low) :
    documentOf visited fuel around (partFor node d) = ⟨d, []⟩ := by
  induction h generalizing fuel around with
  | scalar hs => cases fuel <;> rfl
  | @list low index parts hlow hget hparts ih =>
    obtain ⟨c, hc⟩ := hnode index rfl
    obtain ⟨hshows, hinner⟩ := hvisited index c hc
    obtain rfl := Except.ok.inj (hshows.2.symm.trans (shows_list hget hparts).2)
    obtain ⟨fuel, rfl, hnew, hbehind, hmore⟩ := enough_fuel hlow hc haround hfuel
    refine documentOf_list hnew hc fun p hp =>
      ih p hp (fun i hi => hinner i (mem_inner.mpr ?_)) hbehind hmore
    exact List.mem_map.mpr ⟨p, hp, by rw [hi, partFor]⟩
  | @object low index parts hlow hnodup hget hparts ih =>
    obtain ⟨c, hc⟩ := hnode index rfl
    obtain ⟨hshows, hinner⟩ := hvisited index c hc
    obtain rfl := Except.ok.inj (hshows.2.symm.trans (shows_object hget hparts).2)
    obtain ⟨fuel, rfl, hnew, hbehind, hmore⟩ := enough_fuel hlow hc haround hfuel
    refine documentOf_object hnew hnodup hc fun p hp =>
      ih p hp (fun i hi => hinner i (mem_inner.mpr ?_)) hbehind hmore
    exact List.mem_map.mpr ⟨_, List.mem_map.mpr ⟨p, hp, rfl⟩, by rw [hi, partFor]⟩

/-- A rendered object is read as its texts come back. -/
theorem read_render {entries : List (Scalar × Document)}
    (h : Shaped Node.depthLimit (.object entries))
    (hlong : (Document.object entries).hasLongInteger = false) :
    Yaml.read (render (.object entries)) = .ok (readAs 0 (.object entries)) := by
  obtain ⟨node, graph, htokens, hholds⟩ := Node.ofTokens_entries h hlong 0
  have hpart := hholds.part_eq
  obtain ⟨root, rfl⟩ := hholds.exists_index fun s hs => by
    rw [readAs] at hs
    cases hs
  obtain ⟨visited, hvisit, hroot, hvisited⟩ := Graph.visitFrom_ok isClosed_isHeld ⟨0, _, hholds⟩
  have hdocument : documentOf visited visited.size [] (.collection root) =
      ⟨readAs 0 (.object entries), []⟩ :=
    hholds.documentOf_eq hvisited (fun i hi => by cases hi; exact hroot) (List.forall_mem_nil _)
      (Nat.le_refl _)
  rw [Yaml.read, ofText_render h, htokens]
  simp only [ok_bind, hpart, partFor, hvisit, hdocument]
  rfl

end DhallSyntax.Yaml
