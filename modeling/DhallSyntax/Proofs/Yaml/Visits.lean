import DhallSyntax.Proofs.Yaml.Places
import DhallSyntax.Yaml.Visit
import Mathlib.Data.List.Nodup

/-!
Visits of the collections of a YAML document. Main statement: `visitFrom_ok`, if no fault can be met
and nothing is to be merged, every collection that can be reached is visited, with its own parts.
-/

namespace DhallSyntax.Yaml.Graph

/-- A collection that is visited without a fault, with its parts. -/
def Shows (graph : Graph) (index : Nat) (c : Shallow Part) : Prop :=
  (∀ fuel, graph.merge fuel (.collection index) = .ok graph) ∧
    graph.shallow (.collection index) = .ok c

/-- Collections with all those inside of them, which are visited without a fault. -/
def IsClosed (graph : Graph) (reached : Nat → Prop) : Prop :=
  ∀ i, reached i → i < graph.size ∧ ∃ c, graph.Shows i c ∧ ∀ j ∈ c.inner, reached j

namespace Visit

/-- The collections still to be visited, in their order. -/
def queue (v : Visit) : List Nat := v.ahead ++ v.behind.reverse

variable {graph : Graph} {reached : Nat → Prop} {v : Visit} {i j : Nat} {c : Shallow Part}

def IsNoted (v : Visit) (index : Nat) : Prop := v.noted[index]? = some true

instance (v : Visit) (index : Nat) : Decidable (v.IsNoted index) :=
  inferInstanceAs (Decidable (_ = _))

def IsVisited (v : Visit) (index : Nat) : Prop := ∃ c, v.visited[index]? = some (some c)

/-- The collections that were noted are those that were visited and those still to be. -/
structure Ready (graph : Graph) (reached : Nat → Prop) (v : Visit) : Prop where
  graph_eq : v.graph = graph
  visited_size : v.visited.size = graph.size
  noted_size : v.noted.size = graph.size
  nodup : v.queue.Nodup
  ahead : ∀ i ∈ v.queue, reached i ∧ v.IsNoted i ∧ v.visited[i]? = some none
  noted : ∀ i, v.IsNoted i → i ∈ v.queue ∨ v.IsVisited i
  behind : ∀ i, v.IsVisited i → v.IsNoted i

/-- All that was visited is right, and what is inside of it was noted. -/
def Known (graph : Graph) (v : Visit) : Prop :=
  ∀ i c, v.visited[i]? = some (some c) → graph.Shows i c ∧ ∀ j ∈ c.inner, v.IsNoted j

theorem note_of_noted (h : v.IsNoted j) : v.note j = v := by
  have hget : v.noted.getD j true = true := by
    rw [Array.getD_eq_getD_getElem?, show v.noted[j]? = some true from h]
    rfl
  rw [note, if_pos hget]

theorem note_of_not (h : ¬ v.IsNoted j) (hsize : j < v.noted.size) : v.note j =
    { v with noted := v.noted.setIfInBounds j true, behind := j :: v.behind } := by
  have hget : ¬ v.noted.getD j true = true := by
    rw [Array.getD_eq_getD_getElem?]
    rw [IsNoted] at h
    rw [Array.getElem?_eq_getElem hsize] at h ⊢
    simpa using h
  rw [note, if_neg hget]

/-- What is noted once a collection is noted: this one, and the others as before. -/
theorem getElem?_noted {noted : Array Bool} (hsize : j < noted.size) (i : Nat) :
    (noted.setIfInBounds j true)[i]? = some true ↔ i = j ∨ noted[i]? = some true := by
  by_cases hij : i = j
  · subst hij
    rw [Array.getElem?_setIfInBounds_self, if_pos hsize]
    simp
  · rw [Array.getElem?_setIfInBounds_ne (Ne.symm hij)]
    simp [hij]

theorem Ready.unvisited_of_not (h : Ready graph reached v) (hnoted : ¬ v.IsNoted j)
    (hsize : j < graph.size) : v.visited[j]? = some none := by
  have hbound : j < v.visited.size := h.visited_size ▸ hsize
  have hget := Array.getElem?_eq_getElem hbound
  cases hc : v.visited[j] with
  | none => rw [hget, hc]
  | some c => exact absurd (h.behind j ⟨c, by rw [hget, hc]⟩) hnoted

/-- Noting a collection keeps all that was noted. -/
theorem Ready.note (h : Ready graph reached v) (hj : reached j) (hsize : j < graph.size) :
    Ready graph reached (v.note j) ∧ (v.note j).IsNoted j ∧ (v.note j).visited = v.visited ∧
      ∀ i, v.IsNoted i → (v.note j).IsNoted i := by
  by_cases hnoted : v.IsNoted j
  · rw [note_of_noted hnoted]
    exact ⟨h, hnoted, rfl, fun _ hi => hi⟩
  · have hsize' : j < v.noted.size := h.noted_size ▸ hsize
    rw [note_of_not hnoted hsize']
    have hset := (getElem?_noted hsize' j).mpr (.inl rfl)
    have hkeep (i : Nat) (hi : v.IsNoted i) := (getElem?_noted hsize' i).mpr (.inr hi)
    have hqueue : v.ahead ++ (j :: v.behind).reverse = v.queue ++ [j] := by
      rw [List.reverse_cons, queue, List.append_assoc]
    have hnew : j ∉ v.queue := fun hmem => hnoted (h.ahead j hmem).2.1
    refine ⟨⟨h.graph_eq, h.visited_size, by simpa using h.noted_size, ?_, ?_, ?_, ?_⟩, hset, rfl,
      hkeep⟩
    · rw [queue, hqueue]
      refine List.nodup_append.mpr ⟨h.nodup, List.nodup_singleton j, ?_⟩
      rintro i hi k hk rfl
      exact hnew (List.mem_singleton.mp hk ▸ hi)
    · intro i hi
      rw [queue, hqueue] at hi
      obtain hi | hi := List.mem_append.mp hi
      · obtain ⟨hreached, hnote, hvisit⟩ := h.ahead i hi
        exact ⟨hreached, hkeep i hnote, hvisit⟩
      · obtain rfl := List.mem_singleton.mp hi
        exact ⟨hj, hset, h.unvisited_of_not hnoted hsize⟩
    · intro i hi
      rw [queue, hqueue]
      obtain rfl | hi := (getElem?_noted hsize' i).mp hi
      · exact .inl (List.mem_append_right _ List.mem_cons_self)
      · exact (h.noted i hi).imp_left (List.mem_append_left _)
    · exact fun i hi => hkeep i (h.behind i hi)

theorem Ready.notes (h : Ready graph reached v) {js : List Nat}
    (hjs : ∀ j ∈ js, reached j ∧ j < graph.size) :
    Ready graph reached (js.foldl Visit.note v) ∧ (∀ j ∈ js, (js.foldl Visit.note v).IsNoted j) ∧
      (js.foldl Visit.note v).visited = v.visited ∧
      ∀ i, v.IsNoted i → (js.foldl Visit.note v).IsNoted i := by
  induction js generalizing v with
  | nil => exact ⟨h, nofun, rfl, fun _ hi => hi⟩
  | cons j js ih =>
    obtain ⟨hj, hjs⟩ := List.forall_mem_cons.mp hjs
    obtain ⟨hnote, hnoted, hvisited, hkeep⟩ := h.note hj.1 hj.2
    obtain ⟨hready, hall, hsame, hmore⟩ := ih hnote hjs
    exact ⟨hready, List.forall_mem_cons.mpr ⟨hmore j hnoted, hall⟩, hsame.trans hvisited,
      fun i hi => hmore i (hkeep i hi)⟩

/-- How many collections were not visited. -/
def unvisited (v : Visit) : Nat := v.visited.toList.countP Option.isNone

/-- The next collection is visited. -/
theorem Ready.pop {index : Nat} {ahead behind : List Nat} (h : Ready graph reached v)
    (hqueue : v.queue = index :: (ahead ++ behind.reverse)) (c : Shallow Part) :
    let next : Visit := ⟨graph, v.visited.setIfInBounds index (some c), v.noted, ahead, behind⟩
    Ready graph reached next ∧ next.visited[index]? = some (some c) ∧
      (∀ i, i ≠ index → next.visited[i]? = v.visited[i]?) ∧ next.unvisited + 1 = v.unvisited := by
  intro next
  obtain ⟨-, hnoted, hnone⟩ := h.ahead index (hqueue ▸ List.mem_cons_self)
  have hnodup := hqueue ▸ h.nodup
  obtain ⟨hbound, hget⟩ := Array.getElem?_eq_some_iff.mp hnone
  have hset : next.visited[index]? = some (some c) := by
    rw [Array.getElem?_setIfInBounds_self, if_pos hbound]
  have hother : ∀ i, i ≠ index → next.visited[i]? = v.visited[i]? := fun i hi =>
    Array.getElem?_setIfInBounds_ne (Ne.symm hi)
  refine ⟨⟨rfl, ?_, h.noted_size, (List.nodup_cons.mp hnodup).2, ?_, ?_, ?_⟩, hset, hother, ?_⟩
  · rw [Array.size_setIfInBounds, h.visited_size]
  · intro i hi
    obtain ⟨hreached, hnote, hvisit⟩ := h.ahead i (hqueue ▸ List.mem_cons_of_mem _ hi)
    have hne : i ≠ index := by
      rintro rfl
      exact (List.nodup_cons.mp hnodup).1 hi
    exact ⟨hreached, hnote, (hother i hne).trans hvisit⟩
  · intro i hi
    by_cases hne : i = index
    · exact .inr ⟨c, hne ▸ hset⟩
    · refine (h.noted i hi).imp (fun hmem => ?_) fun ⟨c', hc'⟩ => ⟨c', (hother i hne).trans hc'⟩
      rw [hqueue] at hmem
      exact (List.mem_cons.mp hmem).resolve_left hne
  · rintro i ⟨c', hc'⟩
    by_cases hne : i = index
    · exact hne ▸ hnoted
    · exact h.behind i ⟨c', (hother i hne).symm.trans hc'⟩
  · have hbound' : index < v.visited.toList.length := by simpa using hbound
    have hget' : v.visited.toList[index] = none := by simpa using hget
    have hpos : 0 < v.unvisited :=
      List.countP_pos_iff.mpr ⟨_, List.getElem_mem hbound', by simp [hget']⟩
    have hcount : next.unvisited = v.unvisited - 1 := by
      rw [unvisited, Array.toList_setIfInBounds, List.countP_set hbound']
      simp [hget', unvisited]
    omega

theorem Ready.done (h : Ready graph reached v) (hknown : Known graph v) (hqueue : v.queue = []) :
    (∀ i, v.IsNoted i → ∃ c, v.visited[i]? = some (some c)) ∧
      ∀ i c, v.visited[i]? = some (some c) → graph.Shows i c ∧
        ∀ j ∈ c.inner, ∃ c', v.visited[j]? = some (some c') := by
  have hvisited : ∀ i, v.IsNoted i → v.IsVisited i := fun i hi =>
    (h.noted i hi).resolve_left (by simp [hqueue])
  refine ⟨hvisited, fun i c hc => ?_⟩
  obtain ⟨hshown, hinner⟩ := hknown i c hc
  exact ⟨hshown, fun j hj => hvisited j (hinner j hj)⟩

/-- If all were visited, none is left. -/
theorem Ready.queue_eq_nil (h : Ready graph reached v) (hall : v.unvisited = 0) : v.queue = [] := by
  refine List.eq_nil_iff_forall_not_mem.mpr fun i hi => ?_
  obtain ⟨hbound, hget⟩ := Array.getElem?_eq_some_iff.mp (h.ahead i hi).2.2
  have hmem : none ∈ v.visited.toList := hget ▸ Array.getElem_mem_toList hbound
  exact absurd rfl (List.countP_eq_zero.mp hall _ hmem)

/-- What is visited next: the first list, or the second one turned around if nothing is left of the
first one. -/
theorem exists_front (v : Visit) : ∃ ahead behind,
    (if v.ahead.isEmpty then (v.behind.reverse, []) else (v.ahead, v.behind)) = (ahead, behind) ∧
      v.queue = ahead ++ behind.reverse ∧ (ahead = [] → behind = []) := by
  split
  · rename_i hempty
    exact ⟨_, _, rfl, by simp [queue, List.isEmpty_iff.mp hempty], fun _ => rfl⟩
  · rename_i hempty
    exact ⟨_, _, rfl, rfl, fun hnil => absurd (List.isEmpty_iff.mpr hnil) hempty⟩

/-- One more collection is visited, and what is inside of it is noted. -/
theorem Known.visited {more : Visit} {index : Nat} (h : Known graph v)
    (hshows : graph.Shows index c) (hget : more.visited[index]? = some (some c))
    (hother : ∀ i, i ≠ index → more.visited[i]? = v.visited[i]?)
    (hinner : ∀ j ∈ c.inner, more.IsNoted j) (hkeep : ∀ i, v.IsNoted i → more.IsNoted i) :
    Known graph more := by
  intro i d hd
  by_cases hne : i = index
  · subst hne
    obtain rfl : c = d := by simpa using hget.symm.trans hd
    exact ⟨hshows, hinner⟩
  · obtain ⟨hshown, hinside⟩ := h i d ((hother i hne).symm.trans hd)
    exact ⟨hshown, fun j hj => hkeep j (hinside j hj)⟩

/-- All collections that were noted are visited, with all that is inside of them. -/
theorem run_ready (hclosed : IsClosed graph reached) (merges : Nat) {fuel : Nat}
    (h : Ready graph reached v) (hknown : Known graph v) (hfuel : v.unvisited ≤ fuel) :
    ∃ visited, run merges fuel v = .ok visited ∧
      (∀ i, v.IsNoted i → ∃ c, visited[i]? = some (some c)) ∧
      ∀ i c, visited[i]? = some (some c) → graph.Shows i c ∧
        ∀ j ∈ c.inner, ∃ c', visited[j]? = some (some c') := by
  induction fuel generalizing v with
  | zero => exact ⟨v.visited, rfl, h.done hknown (h.queue_eq_nil (Nat.le_zero.mp hfuel))⟩
  | succ fuel ih =>
    rw [run]
    obtain ⟨ahead, behind, hfront, hahead, hempty⟩ := v.exists_front
    simp only [hfront]
    cases ahead with
    | nil =>
      refine ⟨v.visited, rfl, h.done hknown ?_⟩
      rw [hahead, hempty rfl]
      rfl
    | cons index ahead =>
      have hindex := (h.ahead index (by rw [hahead]; exact List.mem_cons_self)).1
      obtain ⟨-, c, hshows, hinner⟩ := hclosed index hindex
      obtain ⟨hnext, hget, hother, hcount⟩ := h.pop hahead c
      obtain ⟨hready, hall, hsame, hkeep⟩ := hnext.notes fun j hj =>
        ⟨hinner j hj, (hclosed j (hinner j hj)).1⟩
      have hknown' : Known graph
          (c.inner.foldl Visit.note
            ⟨graph, v.visited.setIfInBounds index (some c), v.noted, ahead, behind⟩) :=
        hknown.visited hshows (hsame ▸ hget) (hsame ▸ hother) hall hkeep
      have hcount' : (c.inner.foldl Visit.note
          ⟨graph, v.visited.setIfInBounds index (some c), v.noted, ahead, behind⟩).unvisited ≤
            fuel := by
        rw [unvisited, hsame]
        exact Nat.le_of_succ_le_succ (Nat.le_trans (Nat.le_of_eq hcount) hfuel)
      obtain ⟨visited, hrun, hnoted, hclosed⟩ := ih hready hknown' hcount'
      refine ⟨visited, ?_, fun i hi => hnoted i (hkeep i hi), hclosed⟩
      simp only [h.graph_eq, hshows.1, hshows.2, ok_bind, hrun]

end Visit

open Visit

/-- All collections that can be reached are visited, and shown as they are. -/
theorem visitFrom_ok {graph : Graph} {reached : Nat → Prop} {root : Nat}
    (hclosed : IsClosed graph reached) (hroot : reached root) :
    ∃ visited, graph.visitFrom (.collection root) = .ok visited ∧
      (∃ c, visited[root]? = some (some c)) ∧
      ∀ i c, visited[i]? = some (some c) → graph.Shows i c ∧
        ∀ j ∈ c.inner, ∃ c', visited[j]? = some (some c') := by
  let start : Visit := ⟨graph, .replicate graph.size none, .replicate graph.size false, [], []⟩
  have hunnoted : ∀ i, ¬ start.IsNoted i := by
    intro i hi
    obtain ⟨hbound, hget⟩ := Array.getElem?_eq_some_iff.mp hi
    simp [start] at hget
  have hnew : ∀ i, ¬ start.IsVisited i := by
    rintro i ⟨c, hc⟩
    obtain ⟨hbound, hget⟩ := Array.getElem?_eq_some_iff.mp hc
    simp [start] at hget
  have hstart : Ready graph reached start :=
    ⟨rfl, by simp [start], by simp [start], List.nodup_nil, nofun,
      fun i hi => absurd hi (hunnoted i), fun i hi => absurd hi (hnew i)⟩
  obtain ⟨hready, hnoted, hvisited, -⟩ := hstart.note hroot (hclosed root hroot).1
  have hknown : Known graph (start.note root) := fun i c hc =>
    absurd ⟨c, hvisited ▸ hc⟩ (hnew i)
  have hfuel : (start.note root).unvisited ≤ graph.size := by
    rw [unvisited, hvisited]
    refine Nat.le_trans List.countP_le_length ?_
    simp [start]
  obtain ⟨visited, hrun, hall, hshown⟩ := run_ready hclosed graph.mergeCount hready hknown hfuel
  exact ⟨visited, hrun, hall root hnoted, hshown⟩

end DhallSyntax.Yaml.Graph
