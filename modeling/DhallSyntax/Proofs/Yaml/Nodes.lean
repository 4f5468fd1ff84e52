import DhallSyntax.Proofs.Json.RoundTrip
import DhallSyntax.Proofs.Yaml.Layout
import DhallSyntax.Yaml.Visit

/-!
The nodes of rendered documents. Each document is built as one node, with its collections put last
into the graph. Main statements: `builds_of_shaped`, what the tokens of a document are built to is
the document as it is read; `ofTokens_entries`, so is a whole text.
-/

namespace DhallSyntax.Yaml

open Document (Shaped IsFieldKey IsLeaf fieldNames)

/-! ## What comes back -/

mutual

/-- A document as it is read, if its entries stand at an indentation. -/
def readAs (indent : Nat) : Document → Document
  | .scalar (.text s) => .scalar (.text (readText indent s))
  | .list items => .list (itemsReadAs indent items)
  | .object entries => .object (entriesReadAs indent entries)
  | d => d

def itemsReadAs (indent : Nat) : List Document → List Document
  | [] => []
  | item :: rest => readAs indent item :: itemsReadAs indent rest

def entriesReadAs (indent : Nat) : List (Scalar × Document) → List (Scalar × Document)
  | [] => []
  | (key, value) :: rest => (key, readAs (indent + step) value) :: entriesReadAs indent rest

end

theorem keys_entriesReadAs (indent : Nat) (entries : List (Scalar × Document)) :
    (entriesReadAs indent entries).map Prod.fst = entries.map Prod.fst := by
  induction entries with
  | nil => rfl
  | cons e entries ih => rw [entriesReadAs, List.map_cons, List.map_cons, ih]

/-! ## Documents in graphs -/

/-- A node is a document, of which the graph holds the collections from an index on. Those inside a
collection come behind it. -/
inductive Holds (graph : Graph) : (low : Nat) → Node → Document → Prop
  | scalar {low : Nat} {type : ScalarType} {text : String} {s : Scalar} :
      scalarValue type text = .ok s → Holds graph low (.scalar (.scalar type) text) (.scalar s)
  | list {low index : Nat} {parts : List (Node × Document)} : low ≤ index →
      graph[index]? = some ⟨.collection .list, .items (parts.map Prod.fst)⟩ →
      (∀ p ∈ parts, Holds graph (index + 1) p.1 p.2) →
      Holds graph low (.collection index) (.list (parts.map Prod.snd))
  | object {low index : Nat} {parts : List (String × Node × Document)} : low ≤ index →
      (parts.map Prod.fst).Nodup → graph[index]? = some ⟨.collection .mapping,
        .entries (parts.map fun p => (.scalar (.scalar .text) p.1, p.2.1))⟩ →
      (∀ p ∈ parts, Holds graph (index + 1) p.2.1 p.2.2) →
      Holds graph low (.collection index) (.object (parts.map fun p => (.text p.1, p.2.2)))

/-- A graph with more collections behind those that it had. -/
def Extends (graph more : Graph) : Prop :=
  graph.size ≤ more.size ∧ ∀ i < graph.size, more[i]? = graph[i]?

variable {graph more most : Graph} {low low' : Nat} {node : Node} {d : Document}

theorem Extends.refl (graph : Graph) : Extends graph graph := ⟨Nat.le_refl _, fun _ _ => rfl⟩

theorem Extends.trans (h : Extends graph more) (h' : Extends more most) : Extends graph most :=
  ⟨Nat.le_trans h.1 h'.1, fun i hi =>
    (h'.2 i (Nat.lt_of_lt_of_le hi h.1)).trans (h.2 i hi)⟩

theorem Extends.push (graph : Graph) (c : Collection) : Extends graph (graph.push c) := by
  refine ⟨by simp, fun i hi => ?_⟩
  rw [Array.getElem?_push_lt hi, Array.getElem?_eq_getElem hi]

theorem Extends.some (h : Extends graph more) {i : Nat} {c : Collection}
    (hc : graph[i]? = some c) : more[i]? = Option.some c := by
  obtain ⟨hi, -⟩ := Array.getElem?_eq_some_iff.mp hc
  rw [h.2 i hi, hc]

namespace Holds

theorem mono (h : Holds graph low node d) (hlow : low' ≤ low) : Holds graph low' node d := by
  cases h with
  | scalar hs => exact .scalar hs
  | list hindex hget hparts => exact .list (Nat.le_trans hlow hindex) hget hparts
  | object hindex hnodup hget hparts =>
    exact .object (Nat.le_trans hlow hindex) hnodup hget hparts

/-- The collections before those of a document do not matter. -/
theorem transfer (h : Holds graph low node d)
    (hsame : ∀ i c, low ≤ i → graph[i]? = some c → more[i]? = some c) : Holds more low node d := by
  induction h with
  | scalar hs => exact .scalar hs
  | list hindex hget _ ih =>
    exact .list hindex (hsame _ _ hindex hget) fun p hp =>
      ih p hp fun i c hi => hsame i c (Nat.le_trans hindex (Nat.le_of_succ_le hi))
  | object hindex hnodup hget _ ih =>
    exact .object hindex hnodup (hsame _ _ hindex hget) fun p hp =>
      ih p hp fun i c hi => hsame i c (Nat.le_trans hindex (Nat.le_of_succ_le hi))

theorem extend (h : Holds graph low node d) (hmore : Extends graph more) : Holds more low node d :=
  h.transfer fun _ _ _ hc => hmore.some hc

end Holds

/-! ## Steps of building -/

namespace Node

variable {handles : List (String × String)} {anchors : List (String × Node)} {rest : List Token}
  {depth indent m n : Nat} {place : Place}

theorem run_peek {t : Token} (ht : ∀ e, t ≠ .fault e) :
    peek.run ⟨t :: rest, handles, anchors, graph⟩ =
      .ok (t, ⟨t :: rest, handles, anchors, graph⟩) := by
  cases t with
  | fault e => exact absurd rfl (ht e)
  | _ => rfl

theorem run_accept (t : Token) (ht : ∀ e, t ≠ .fault e) :
    (accept t).run ⟨t :: rest, handles, anchors, graph⟩ =
      .ok (true, ⟨rest, handles, anchors, graph⟩) := by
  simp only [accept, StateT.run_bind, run_peek ht, ok_bind, ↓reduceIte]
  rfl

theorem run_accept_other {t t' : Token} (ht : ∀ e, t' ≠ .fault e) (h : t' ≠ t) :
    (accept t).run ⟨t' :: rest, handles, anchors, graph⟩ =
      .ok (false, ⟨t' :: rest, handles, anchors, graph⟩) := by
  simp only [accept, StateT.run_bind, run_peek ht, ok_bind, if_neg h]
  rfl

theorem run_within_scalar (isPlain : Bool) (text : String) :
    (within depth place).run ⟨.scalar isPlain text :: rest, handles, [], graph⟩ =
      .ok (.scalar (.scalar (if isPlain then .ofPlain text.toList else .text)) text,
        ⟨rest, handles, [], graph⟩) := by
  rw [within]
  rfl

/-- The rest of a collection whose token was taken. -/
def collected (depth : Nat) (opening : Token) (index : Nat) : Build Node := do
  fill (.collection index) (← collectionBehind (within depth) ⟨none, none⟩ opening)
  return .collection index

theorem run_within_dash :
    (within (depth + 1) .entry).run ⟨.item :: rest, handles, [], graph⟩ =
      (collected depth .item graph.size).run
        ⟨.item :: rest, handles, [], graph.push ⟨.unknown, .text⟩⟩ := by
  rw [within]
  rfl

theorem run_within_block (hplace : place ≠ .flow) (shape : Shape) :
    (within (depth + 1) place).run ⟨.blockStart shape :: rest, handles, [], graph⟩ =
      (collected depth (.blockStart shape) graph.size).run
        ⟨rest, handles, [], graph.push ⟨.unknown, .text⟩⟩ := by
  rw [within]
  cases place with
  | flow => exact absurd rfl hplace
  | _ => rfl

theorem run_within_flow (shape : Shape) :
    (within (depth + 1) place).run ⟨.flowStart shape :: rest, handles, [], graph⟩ =
      (collected depth (.flowStart shape) graph.size).run
        ⟨rest, handles, [], graph.push ⟨.unknown, .text⟩⟩ := by
  rw [within]
  rfl
/-! ## Nodes of documents -/

/-- The tokens of a node that may stand at a place. -/
def BeginsNode (place : Place) (tokens : List Token) : Prop :=
  ∃ t ts, tokens = t :: ts ∧ (∀ e, t ≠ .fault e) ∧ t ∉ [.key, .value, .blockEnd] ∧
    (place ≠ .entry → t ≠ .item)

/-- What may come behind the value of a key. -/
def EndsEntry (rest : List Token) : Prop :=
  ∃ t ts, rest = t :: ts ∧ (t = .key ∨ t = .blockEnd)

/-- Tokens are built to a document, whose collections are new. -/
def Builds (depth : Nat) (place : Place) (tokens : List Token) (d : Document) : Prop :=
  BeginsNode place tokens ∧ ∀ handles graph rest, (place = .entry → EndsEntry rest) →
    ∃ node more, (within depth place).run ⟨tokens ++ rest, handles, [], graph⟩ =
        .ok (node, ⟨rest, handles, [], more⟩) ∧
      Extends graph more ∧ Holds more graph.size node d

theorem run_optional {tokens : List Token} {ends : List Token} (h : BeginsNode place tokens)
    (hends : ∀ t ∈ ends, t ∈ [Token.key, .value, .blockEnd] ∨ place ≠ .entry ∧ t = .item)
    (node : Place → Build Node) (handles : List (String × String)) (graph : Graph)
    (rest : List Token) :
    (optional node place ends).run ⟨tokens ++ rest, handles, [], graph⟩ =
      (node place).run ⟨tokens ++ rest, handles, [], graph⟩ := by
  obtain ⟨t, ts, rfl, hfault, hmarks, hitem⟩ := h
  have hnone : t ∉ ends := by
    intro ht
    obtain h | ⟨hplace, rfl⟩ := hends t ht
    · exact hmarks h
    · exact hitem hplace rfl
  simp only [optional, List.cons_append, StateT.run_bind, run_peek hfault, ok_bind, if_neg hnone]

/-- The items of a list are built one after the other. -/
theorem run_dashedItems {items : List Document} {ends : List Token}
    (hends : ∀ t ∈ ends, t ∈ [Token.key, .value, .blockEnd])
    (hitems : ∀ d ∈ items, Builds depth .block (valueTokens indent d) (readAs indent d))
    (hrest : EndsEntry rest) {bound : List Token} (hbound : items.length < bound.length)
    (handles : List (String × String)) (graph : Graph) :
    ∃ (parts : List (Node × Document)) (more : Graph),
      (dashedItems (within depth) ends bound).run
          ⟨itemsTokens indent items ++ rest, handles, [], graph⟩ =
        .ok (parts.map Prod.fst, ⟨rest, handles, [], more⟩) ∧
      parts.map Prod.snd = itemsReadAs indent items ∧ Extends graph more ∧
      ∀ p ∈ parts, Holds more graph.size p.1 p.2 := by
  have hends' : ∀ t ∈ Token.item :: ends,
      t ∈ [Token.key, .value, .blockEnd] ∨ Place.block ≠ .entry ∧ t = .item := by
    intro t ht
    obtain rfl | ht := List.mem_cons.mp ht
    · exact .inr ⟨by decide, rfl⟩
    · exact .inl (hends t ht)
  induction items generalizing bound graph with
  | nil =>
    obtain ⟨t, ts, rfl, ht⟩ := hrest
    obtain ⟨b, bound, rfl⟩ := List.exists_cons_of_length_pos hbound
    refine ⟨[], graph, ?_, rfl, .refl graph, List.forall_mem_nil _⟩
    have hitem : (accept .item).run ⟨t :: ts, handles, [], graph⟩ =
        .ok (false, ⟨t :: ts, handles, [], graph⟩) :=
      run_accept_other (by obtain rfl | rfl := ht <;> simp) (by obtain rfl | rfl := ht <;> simp)
    simp only [dashedItems, itemsTokens, List.nil_append, StateT.run_bind, hitem, ok_bind]
    rfl
  | cons d items ih =>
    obtain ⟨b, bound, rfl⟩ := List.exists_cons_of_length_pos (Nat.zero_lt_of_lt hbound)
    obtain ⟨hbegins, hbuild⟩ := hitems d List.mem_cons_self
    obtain ⟨node, next, hnode, hnext, hholds⟩ :=
      hbuild handles graph (itemsTokens indent items ++ rest) (by simp)
    obtain ⟨parts, more, hparts, hdocs, hmore, hrests⟩ :=
      ih (fun e he => hitems e (List.mem_cons_of_mem _ he)) (Nat.lt_of_succ_lt_succ hbound) next
    refine ⟨(node, readAs indent d) :: parts, more, ?_, by rw [List.map_cons, hdocs, itemsReadAs],
      hnext.trans hmore, ?_⟩
    · have hfirst := run_optional hbegins hends' (within depth) handles graph
        (itemsTokens indent items ++ rest)
      simp only [dashedItems, itemsTokens, List.cons_append, List.append_assoc, StateT.run_bind,
        run_accept .item (by simp), ok_bind, hfirst, hnode, hparts, ↓reduceIte]
      rfl
    · exact List.forall_mem_cons.mpr
        ⟨hholds.extend hmore, fun p hp => (hrests p hp).mono hnext.1⟩

theorem run_key {key : String} (hkey : IsFieldKey (.text key)) (depth : Nat)
    (handles : List (String × String)) (graph : Graph) (rest : List Token) :
    (optional (within depth) .entry [.key, .value, .blockEnd]).run
        ⟨.scalar true (String.ofList (keyText (.text key))) :: rest, handles, [], graph⟩ =
      .ok (.scalar (.scalar .text) key, ⟨rest, handles, [], graph⟩) := by
  have htext : ∀ key ∈ fieldNames, ScalarType.ofPlain key.toList = .text := by decide +kernel
  have hword : String.ofList (keyText (.text key)) = key := String.ofList_toList
  have hnone : Token.scalar true key ∉ [Token.key, .value, .blockEnd] := by simp
  simp only [hword, optional, StateT.run_bind, run_peek (t := .scalar true key) (by simp), ok_bind,
    if_neg hnone, run_within_scalar, ↓reduceIte, htext key hkey]

theorem endsEntry_entriesTokens (indent : Nat) (entries : List (Scalar × Document))
    (rest : List Token) : EndsEntry (entriesTokens indent entries ++ .blockEnd :: rest) := by
  cases entries with
  | nil => exact ⟨_, _, rfl, .inr rfl⟩
  | cons e entries => exact ⟨_, _, rfl, .inl rfl⟩

/-- The entries of an object are built one after the other. -/
theorem run_blockEntries {entries : List (Scalar × Document)}
    (hkeys : ∀ e ∈ entries, IsFieldKey e.1)
    (hvalues : ∀ e ∈ entries,
      Builds depth .entry (valueTokens (indent + step) e.2) (readAs (indent + step) e.2))
    {bound : List Token} (hbound : entries.length < bound.length)
    (handles : List (String × String)) (graph : Graph) (rest : List Token) :
    ∃ (parts : List (String × Node × Document)) (more : Graph),
      (blockEntries (within depth) bound).run
          ⟨entriesTokens indent entries ++ .blockEnd :: rest, handles, [], graph⟩ =
        .ok (parts.map fun p => (.scalar (.scalar .text) p.1, p.2.1),
          ⟨.blockEnd :: rest, handles, [], more⟩) ∧
      (parts.map fun p => (.text p.1, p.2.2)) = entriesReadAs indent entries ∧
      Extends graph more ∧ ∀ p ∈ parts, Holds more graph.size p.2.1 p.2.2 := by
  induction entries generalizing bound graph with
  | nil =>
    obtain ⟨b, bound, rfl⟩ := List.exists_cons_of_length_pos hbound
    refine ⟨[], graph, ?_, rfl, .refl graph, List.forall_mem_nil _⟩
    have hkey : (accept .key).run ⟨.blockEnd :: rest, handles, [], graph⟩ = _ :=
      run_accept_other (by simp) (by simp)
    simp only [blockEntries, entriesTokens, List.nil_append, StateT.run_bind, hkey, ok_bind]
    rfl
  | cons e entries ih =>
    obtain ⟨b, bound, rfl⟩ := List.exists_cons_of_length_pos (Nat.zero_lt_of_lt hbound)
    obtain ⟨key, value⟩ := e
    obtain ⟨key, rfl⟩ : ∃ word, key = .text word :=
      (hkeys (key, value) List.mem_cons_self : IsFieldKey key).exists_text
    obtain ⟨hbegins, hbuild⟩ := hvalues _ List.mem_cons_self
    obtain ⟨node, next, hnode, hnext, hholds⟩ :=
      hbuild handles graph (entriesTokens indent entries ++ .blockEnd :: rest) fun _ =>
        endsEntry_entriesTokens indent entries rest
    obtain ⟨parts, more, hparts, hdocs, hmore, hrests⟩ :=
      ih (fun e he => hkeys e (List.mem_cons_of_mem _ he))
        (fun e he => hvalues e (List.mem_cons_of_mem _ he)) (Nat.lt_of_succ_lt_succ hbound) next
    refine ⟨(key, node, readAs (indent + step) value) :: parts, more, ?_,
      by rw [List.map_cons, hdocs, entriesReadAs], hnext.trans hmore, ?_⟩
    · have hkey := run_key (hkeys _ List.mem_cons_self) depth handles graph
        (.value :: (valueTokens (indent + step) value ++
          (entriesTokens indent entries ++ .blockEnd :: rest)))
      have hvalue := run_optional hbegins (fun t ht => .inl ht) (within depth) handles graph
        (entriesTokens indent entries ++ .blockEnd :: rest)
      simp only [blockEntries, entriesTokens, List.cons_append, List.append_assoc, StateT.run_bind,
        run_accept .key (by simp), ok_bind, hkey, valueOr, run_accept .value (by simp), hvalue,
        hnode, hparts, ↓reduceIte]
      rfl
    · exact List.forall_mem_cons.mpr
        ⟨hholds.extend hmore, fun p hp => (hrests p hp).mono hnext.1⟩

/-- The collection of a node takes its place in the graph, in front of those inside it. -/
theorem run_fill (c : Collection) (hmore : Extends (graph.push ⟨.unknown, .text⟩) more)
    (handles : List (String × String)) (rest : List Token) :
    ∃ filled, (fill (.collection graph.size) c).run ⟨rest, handles, [], more⟩ =
        .ok ((), ⟨rest, handles, [], filled⟩) ∧
      Extends graph filled ∧ filled[graph.size]? = some c ∧
      ∀ i c', graph.size + 1 ≤ i → more[i]? = some c' → filled[i]? = some c' := by
  have hsize : graph.size < more.size := by
    have := hmore.1
    rwa [Array.size_push] at this
  refine ⟨more.setIfInBounds graph.size c, rfl, ⟨by simpa using Nat.le_of_lt hsize, fun i hi => ?_⟩,
    ?_, fun i c' hi hc => ?_⟩
  · rw [Array.getElem?_setIfInBounds_ne (Nat.ne_of_gt hi)]
    exact ((Extends.push graph _).trans hmore).2 i hi
  · rw [Array.getElem?_setIfInBounds_self, if_pos hsize]
  · rw [Array.getElem?_setIfInBounds_ne (Nat.ne_of_lt hi), hc]

theorem builds_token {isPlain : Bool} {text : String} {s : Scalar}
    (h : scalarValue (if isPlain then .ofPlain text.toList else .text) text = .ok s)
    (depth : Nat) (place : Place) : Builds depth place [.scalar isPlain text] (.scalar s) :=
  ⟨⟨_, _, rfl, by simp, by simp, by simp⟩, fun _ graph _ _ =>
    ⟨_, graph, run_within_scalar isPlain text, .refl graph, .scalar h⟩⟩

theorem builds_scalar {s : Scalar} (hs : IsLeaf s)
    (hlong : (Document.scalar s).hasLongInteger = false) (depth indent : Nat) (place : Place) :
    Builds depth place (valueTokens indent (.scalar s)) (readAs indent (.scalar s)) := by
  cases hs with
  | null =>
    refine builds_token ?_ depth place
    simp only [↓reduceIte, ofPlain_null]
    rfl
  | @int n =>
    refine builds_token ?_ depth place
    simp only [↓reduceIte, ofPlain_write]
    refine scalarValue_write ?_
    simpa [Document.hasLongInteger] using hlong
  | @text t =>
    refine builds_token ?_ depth place
    have htype : (if styleOf t.toList == .plain then
        .ofPlain (readText indent t).toList else .text) = ScalarType.text := by
      split
      · rename_i hstyle
        have hstyle : styleOf t.toList = .plain := by simpa using hstyle
        rw [readText, String.toList_ofList, readBack_plain hstyle]
        exact (styleOf_plain hstyle).2
      · rfl
    rw [htype]
    rfl

theorem length_le_itemsTokens (items : List Document) :
    items.length ≤ (itemsTokens indent items).length := by
  induction items with
  | nil => exact Nat.le_refl _
  | cons d items ih =>
    simp only [itemsTokens, List.length_append, List.length_cons]
    omega

theorem length_le_entriesTokens (entries : List (Scalar × Document)) :
    entries.length ≤ (entriesTokens indent entries).length := by
  induction entries with
  | nil => exact Nat.le_refl _
  | cons e entries ih =>
    simp only [entriesTokens, List.length_append, List.length_cons]
    omega

/-- A collection whose content was built stands in front of what is inside it. -/
theorem run_collected {opening : Token} {before : List Token} {c : Collection}
    (hbehind : (collectionBehind (within depth) ⟨none, none⟩ opening).run
      ⟨before, handles, [], graph.push ⟨.unknown, .text⟩⟩ = .ok (c, ⟨rest, handles, [], more⟩))
    (hmore : Extends (graph.push ⟨.unknown, .text⟩) more)
    (hholds : ∀ filled : Graph, filled[graph.size]? = some c →
      (∀ i c', graph.size + 1 ≤ i → more[i]? = some c' → filled[i]? = some c') →
      Holds filled graph.size (.collection graph.size) d) :
    ∃ node filled, (collected depth opening graph.size).run
        ⟨before, handles, [], graph.push ⟨.unknown, .text⟩⟩ =
          .ok (node, ⟨rest, handles, [], filled⟩) ∧
      Extends graph filled ∧ Holds filled graph.size node d := by
  obtain ⟨filled, hfill, hextends, hget, hsame⟩ := run_fill c hmore handles rest
  refine ⟨.collection graph.size, filled, ?_, hextends, hholds filled hget hsame⟩
  simp only [collected, StateT.run_bind, hbehind, ok_bind, hfill]
  rfl

theorem builds_emptyList (depth indent : Nat) (place : Place) :
    Builds (depth + 1) place (valueTokens indent (.list [])) (readAs indent (.list [])) := by
  refine ⟨⟨_, _, rfl, by simp, by simp, by simp⟩, fun handles graph rest _ => ?_⟩
  have hbehind : (collectionBehind (within depth) ⟨none, none⟩ (.flowStart .list)).run
      ⟨.flowEnd .list :: rest, handles, [], graph.push ⟨.unknown, .text⟩⟩ =
        .ok (⟨.collection .list, .items []⟩,
          ⟨rest, handles, [], graph.push ⟨.unknown, .text⟩⟩) := by
    rfl
  have hrun := @run_within_flow graph handles (.flowEnd .list :: rest) depth place .list
  refine hrun ▸ run_collected hbehind (.refl _) fun filled hget _ => ?_
  exact @Holds.list _ _ _ [] (Nat.le_refl _) hget (List.forall_mem_nil _)

theorem builds_list {items : List Document} (hne : items ≠ [])
    (hitems : ∀ d ∈ items, Builds depth .block (valueTokens indent d) (readAs indent d)) :
    Builds (depth + 1) .entry (valueTokens indent (.list items)) (readAs indent (.list items)) := by
  have htokens : valueTokens indent (.list items) = itemsTokens indent items := by
    obtain ⟨d, items, rfl⟩ := List.exists_cons_of_ne_nil hne
    rfl
  obtain ⟨t, ht⟩ : ∃ ts, itemsTokens indent items = .item :: ts := by
    obtain ⟨d, items, rfl⟩ := List.exists_cons_of_ne_nil hne
    exact ⟨_, rfl⟩
  rw [htokens]
  refine ⟨⟨_, _, ht, by simp, by simp, fun h => absurd rfl h⟩, fun handles graph rest hrest => ?_⟩
  have hbound : items.length < (itemsTokens indent items ++ rest).length := by
    obtain ⟨t, ts, rfl, -⟩ := hrest rfl
    rw [List.length_append, List.length_cons]
    exact Nat.lt_of_le_of_lt (length_le_itemsTokens items)
      (Nat.lt_add_of_pos_right (Nat.succ_pos _))
  obtain ⟨parts, more, hparts, hdocs, hmore, hholds⟩ := run_dashedItems (fun t ht => ht) hitems
    (hrest rfl) hbound handles (graph.push ⟨.unknown, .text⟩)
  have hbehind : (collectionBehind (within depth) ⟨none, none⟩ .item).run
      ⟨itemsTokens indent items ++ rest, handles, [], graph.push ⟨.unknown, .text⟩⟩ =
        .ok (⟨.collection .list, .items (parts.map Prod.fst)⟩, ⟨rest, handles, [], more⟩) := by
    simp only [collectionBehind, StateT.run_bind, StateT.run_get, pure_bind, hparts, ok_bind]
    rfl
  have hrun := @run_within_dash graph handles (t ++ rest) depth
  rw [← List.cons_append, ← ht] at hrun
  refine hrun ▸ run_collected hbehind hmore fun filled hget hsame => ?_
  rw [readAs, ← hdocs]
  rw [Array.size_push] at hholds
  exact .list (Nat.le_refl _) hget fun p hp => (hholds p hp).transfer hsame

theorem builds_object {entries : List (Scalar × Document)} (hkeys : ∀ e ∈ entries, IsFieldKey e.1)
    (hnodup : (entries.map Prod.fst).Nodup)
    (hvalues : ∀ e ∈ entries,
      Builds depth .entry (valueTokens (indent + step) e.2) (readAs (indent + step) e.2))
    (hplace : place ≠ .flow) :
    Builds (depth + 1) place (valueTokens indent (.object entries))
      (readAs indent (.object entries)) := by
  refine ⟨⟨_, _, rfl, by simp, by simp, by simp⟩, fun handles graph rest _ => ?_⟩
  have htokens : valueTokens indent (.object entries) ++ rest =
      .blockStart .mapping :: (entriesTokens indent entries ++ .blockEnd :: rest) := by
    simp [valueTokens]
  have hbound : entries.length < (entriesTokens indent entries ++ .blockEnd :: rest).length := by
    rw [List.length_append, List.length_cons]
    exact Nat.lt_of_le_of_lt (length_le_entriesTokens entries)
      (Nat.lt_add_of_pos_right (Nat.succ_pos _))
  obtain ⟨parts, more, hparts, hdocs, hmore, hholds⟩ :=
    run_blockEntries hkeys hvalues hbound handles (graph.push ⟨.unknown, .text⟩) rest
  have hbehind : (collectionBehind (within depth) ⟨none, none⟩ (.blockStart .mapping)).run
      ⟨entriesTokens indent entries ++ .blockEnd :: rest, handles, [],
        graph.push ⟨.unknown, .text⟩⟩ =
          .ok (⟨.collection .mapping,
            .entries (parts.map fun p => (.scalar (.scalar .text) p.1, p.2.1))⟩,
              ⟨rest, handles, [], more⟩) := by
    simp only [collectionBehind, StateT.run_bind, StateT.run_get, pure_bind, hparts, ok_bind,
      run_accept .blockEnd (by simp)]
    rfl
  rw [htokens, run_within_block hplace]
  refine run_collected hbehind hmore fun filled hget hsame => ?_
  rw [readAs, ← hdocs]
  rw [Array.size_push] at hholds
  have hwords : parts.map (fun p => Scalar.text p.1) = entries.map Prod.fst := by
    rw [← keys_entriesReadAs indent entries, ← hdocs, List.map_map]
    rfl
  have hpairwise := List.pairwise_map.mp (hwords ▸ hnodup : (parts.map _).Nodup)
  have hdistinct : (parts.map Prod.fst).Nodup :=
    List.pairwise_map.mpr (hpairwise.imp fun hne heq => hne (congrArg Scalar.text heq))
  exact .object (Nat.le_refl _) hdistinct hget fun p hp => (hholds p hp).transfer hsame

/-- The tokens of a document are built to what it is read as. -/
theorem builds_of_shaped (h : Shaped n d) (hlong : d.hasLongInteger = false) (indent : Nat) :
    Builds n .entry (valueTokens indent d) (readAs indent d) ∧
      ((∀ parts, d ≠ .list parts) → Builds n .block (valueTokens indent d) (readAs indent d)) := by
  induction h generalizing indent with
  | scalar hs => exact ⟨builds_scalar hs hlong _ _ _, fun _ => builds_scalar hs hlong _ _ _⟩
  | @list n items _ hlists ih =>
    refine ⟨?_, fun h => absurd rfl (h _)⟩
    by_cases hne : items = []
    · subst hne
      exact builds_emptyList n indent .entry
    · exact builds_list hne fun d hd =>
        (ih d hd (Json.hasLongInteger_of_mem hlong hd) indent).2 (hlists d hd)
  | object hne hkeys hnodup hvalues ih =>
    have hbuilds := fun e he =>
      (ih e he (Json.hasLongInteger_of_mem_entries hlong he) (indent + step)).1
    exact ⟨builds_object hkeys hnodup hbuilds (by decide),
      fun _ => builds_object hkeys hnodup hbuilds (by decide)⟩

/-- The tokens of a whole text are built to the only document in it. -/
theorem ofTokens_entries {entries : List (Scalar × Document)} (h : Shaped n (.object entries))
    (hlong : (Document.object entries).hasLongInteger = false) (indent : Nat) :
    ∃ node graph, ofTokens n (.blockStart .mapping :: entriesTokens indent entries ++
        [.blockEnd, .textEnd]) = .ok (some node, graph) ∧
      Holds graph 0 node (readAs indent (.object entries)) := by
  obtain ⟨-, hbuild⟩ := (builds_of_shaped h hlong indent).2 (by simp)
  obtain ⟨node, graph, hnode, -, hholds⟩ := hbuild commonHandles #[] [.textEnd] (by simp)
  refine ⟨node, graph, ?_, hholds⟩
  have htokens : Token.blockStart .mapping :: entriesTokens indent entries ++
      [.blockEnd, .textEnd] = valueTokens indent (.object entries) ++ [.textEnd] := by
    simp [valueTokens]
  have hdocument : (document n).run
      ⟨valueTokens indent (.object entries) ++ [.textEnd], [], [], #[]⟩ =
      .ok (some node, ⟨[.textEnd], commonHandles, [], graph⟩) := by
    have hpeek : peek.run ⟨valueTokens indent (.object entries) ++ [.textEnd], [], [], #[]⟩ =
        .ok (.blockStart .mapping,
          ⟨valueTokens indent (.object entries) ++ [.textEnd], [], [], #[]⟩) :=
      rfl
    have hset : (modify fun s : Source => { s with handles := commonHandles } : Build Unit).run
        ⟨valueTokens indent (.object entries) ++ [.textEnd], [], [], #[]⟩ =
          .ok ((), ⟨valueTokens indent (.object entries) ++ [.textEnd], commonHandles, [], #[]⟩) :=
      rfl
    simp only [document, StateT.run_bind, hpeek, ok_bind, hset, StateT.run_map, hnode]
    rfl
  rw [htokens, ofTokens, hdocument]
  rfl

end Node

end DhallSyntax.Yaml
