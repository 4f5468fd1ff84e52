import DhallSyntax.Proofs.Tree.Parts

/-!
Trees with other texts. What stands for a text may depend on its level, which is the number of
objects around it in the document of the tree. Main statements: `depth_mapTexts`, a tree stays as
deep as it was; `mapTexts_eq_self_iff`, it stays the same if all of its texts do.
-/

namespace DhallSyntax

variable {τ ν : Type}

def Url.mapTexts (f : τ → τ) (u : Url τ) : Url τ :=
  { u with
    host := f u.host, path := u.path.map f, userinfo := u.userinfo.map f, port := u.port.map f,
    query := u.query.map f }

mutual

def Import.mapTexts (f : Nat → τ → τ) (level : Nat) : Import τ → Import τ
  | .mk kind hash mode => .mk (kind.mapTexts f (level + 1)) hash mode

def ImportKind.mapTexts (f : Nat → τ → τ) (level : Nat) : ImportKind τ → ImportKind τ
  | .missing => .missing
  | .path anchor components => .path anchor (components.map (f (level + 1)))
  | .url address => .url (address.mapTexts (f (level + 1)))
  | .urlUsing address headers =>
    .urlUsing (address.mapTexts (f (level + 1))) (headers.mapTexts f (level + 1))
  | .env name => .env (f (level + 1) name)

end

namespace Tree

mutual

/-- A tree with other texts. The level is that of the object of the root. -/
def mapTexts (f : Nat → τ → τ) (level : Nat) : Tree τ ν → Tree τ ν
  | .variable name index => .variable (f (level + 1) name) index
  | .builtin name => .builtin (f (level + 1) name)
  | .lambda param a b =>
    .lambda (f (level + 1) param) (mapTexts f (level + 1) a) (mapTexts f (level + 1) b)
  | .pi param a b =>
    .pi (f (level + 1) param) (mapTexts f (level + 1) a) (mapTexts f (level + 1) b)
  | .app a b => .app (mapTexts f (level + 1) a) (mapTexts f (level + 1) b)
  | .letIn bindings body =>
    .letIn (mapBindings f (level + 2) bindings) (mapTexts f (level + 1) body)
  | .conditional a b c =>
    .conditional (mapTexts f (level + 1) a) (mapTexts f (level + 1) b) (mapTexts f (level + 1) c)
  | .annotated a b => .annotated (mapTexts f (level + 1) a) (mapTexts f (level + 1) b)
  | .operation operator a b =>
    .operation operator (mapTexts f (level + 1) a) (mapTexts f (level + 1) b)
  | .merge a b type =>
    .merge (mapTexts f (level + 1) a) (mapTexts f (level + 1) b) (mapOption f (level + 1) type)
  | .toMap a type => .toMap (mapTexts f (level + 1) a) (mapOption f (level + 1) type)
  | .emptyList a => .emptyList (mapTexts f (level + 1) a)
  | .list elements => .list (mapTrees f (level + 1) elements)
  | .present a => .present (mapTexts f (level + 1) a)
  | .recordType entries => .recordType (mapEntries f (level + 2) entries)
  | .record entries => .record (mapEntries f (level + 2) entries)
  | .union entries => .union (mapEntries f (level + 2) entries)
  | .field a label => .field (mapTexts f (level + 1) a) (f (level + 1) label)
  | .projection a labels => .projection (mapTexts f (level + 1) a) (labels.map (f (level + 1)))
  | .projectionByType a b =>
    .projectionByType (mapTexts f (level + 1) a) (mapTexts f (level + 1) b)
  | .text chunks suffix => .text (mapChunks f (level + 2) chunks) (f (level + 1) suffix)
  | .double value => .double value
  | .natural value => .natural value
  | .integer value => .integer value
  | .embedded i => .embedded (i.mapTexts f level)

def mapOption (f : Nat → τ → τ) (level : Nat) : Option (Tree τ ν) → Option (Tree τ ν)
  | none => none
  | some t => some (mapTexts f level t)

def mapTrees (f : Nat → τ → τ) (level : Nat) : List (Tree τ ν) → List (Tree τ ν)
  | [] => []
  | t :: rest => mapTexts f level t :: mapTrees f level rest

def mapEntries (f : Nat → τ → τ) (level : Nat) :
    List (τ × Option (Tree τ ν)) → List (τ × Option (Tree τ ν))
  | [] => []
  | (label, value) :: rest => (f level label, mapOption f level value) :: mapEntries f level rest

def mapChunks (f : Nat → τ → τ) (level : Nat) : List (τ × Tree τ ν) → List (τ × Tree τ ν)
  | [] => []
  | (part, t) :: rest => (f level part, mapTexts f level t) :: mapChunks f level rest

def mapBindings (f : Nat → τ → τ) (level : Nat) :
    List (Binding τ (Tree τ ν)) → List (Binding τ (Tree τ ν))
  | [] => []
  | ⟨name, type, value⟩ :: rest =>
    ⟨f level name, mapOption f level type, mapTexts f level value⟩ :: mapBindings f level rest

end

end Tree

/-! ## Depths -/

mutual

theorem Import.depth_mapTexts (f : Nat → τ → τ) (level : Nat) :
    (i : Import τ) → (i.mapTexts f level).depth = i.depth
  | .mk kind hash mode => by
    rw [Import.mapTexts, Import.depth, Import.depth, Import.kindDepth_mapTexts f (level + 1) kind]

theorem Import.kindDepth_mapTexts (f : Nat → τ → τ) (level : Nat) :
    (kind : ImportKind τ) → Import.kindDepth (kind.mapTexts f level) = Import.kindDepth kind
  | .missing | .path _ _ | .url _ | .env _ => by simp [ImportKind.mapTexts, Import.kindDepth]
  | .urlUsing _ headers => by
    simp [ImportKind.mapTexts, Import.kindDepth, Import.depth_mapTexts f (level + 1) headers]

end

namespace Tree

mutual

theorem depth_mapTexts (f : Nat → τ → τ) (level : Nat) :
    (t : Tree τ ν) → (t.mapTexts f level).depth = t.depth
  | .variable .. | .builtin .. | .double .. | .natural .. | .integer .. => by
    simp [mapTexts, depth]
  | .lambda _ a b | .pi _ a b | .app a b | .annotated a b | .operation _ a b
  | .projectionByType a b => by
    simp [mapTexts, depth, depth_mapTexts f (level + 1) a, depth_mapTexts f (level + 1) b]
  | .letIn bindings body => by
    simp [mapTexts, depth, bindingsDepth_mapBindings f (level + 2) bindings,
      depth_mapTexts f (level + 1) body]
  | .conditional a b c => by
    simp [mapTexts, depth, depth_mapTexts f (level + 1) a, depth_mapTexts f (level + 1) b,
      depth_mapTexts f (level + 1) c]
  | .merge a b type => by
    simp [mapTexts, depth, depth_mapTexts f (level + 1) a, depth_mapTexts f (level + 1) b,
      optionDepth_mapOption f (level + 1) type]
  | .toMap a type => by
    simp [mapTexts, depth, depth_mapTexts f (level + 1) a, optionDepth_mapOption f (level + 1) type]
  | .emptyList a | .present a | .field a _ | .projection a _ => by
    simp [mapTexts, depth, depth_mapTexts f (level + 1) a]
  | .list elements => by simp [mapTexts, depth, listDepth_mapTrees f (level + 1) elements]
  | .recordType entries | .record entries | .union entries => by
    simp [mapTexts, depth, entriesDepth_mapEntries f (level + 2) entries]
  | .text chunks _ => by simp [mapTexts, depth, chunksDepth_mapChunks f (level + 2) chunks]
  | .embedded i => by simp [mapTexts, depth, i.depth_mapTexts f level]

theorem optionDepth_mapOption (f : Nat → τ → τ) (level : Nat) :
    (t : Option (Tree τ ν)) → optionDepth (mapOption f level t) = optionDepth t
  | none => by simp [mapOption]
  | some t => by simp [mapOption, optionDepth, depth_mapTexts f level t]

theorem listDepth_mapTrees (f : Nat → τ → τ) (level : Nat) :
    (ts : List (Tree τ ν)) → listDepth (mapTrees f level ts) = listDepth ts
  | [] => by simp [mapTrees]
  | t :: rest => by
    simp [mapTrees, listDepth, depth_mapTexts f level t, listDepth_mapTrees f level rest]

theorem entriesDepth_mapEntries (f : Nat → τ → τ) (level : Nat) :
    (entries : List (τ × Option (Tree τ ν))) →
      entriesDepth (mapEntries f level entries) = entriesDepth entries
  | [] => by simp [mapEntries]
  | (_, value) :: rest => by
    simp [mapEntries, entriesDepth, optionDepth_mapOption f level value,
      entriesDepth_mapEntries f level rest]

theorem chunksDepth_mapChunks (f : Nat → τ → τ) (level : Nat) :
    (chunks : List (τ × Tree τ ν)) → chunksDepth (mapChunks f level chunks) = chunksDepth chunks
  | [] => by simp [mapChunks]
  | (_, t) :: rest => by
    simp [mapChunks, chunksDepth, depth_mapTexts f level t, chunksDepth_mapChunks f level rest]

theorem bindingsDepth_mapBindings (f : Nat → τ → τ) (level : Nat) :
    (bindings : List (Binding τ (Tree τ ν))) →
      bindingsDepth (mapBindings f level bindings) = bindingsDepth bindings
  | [] => by simp [mapBindings]
  | ⟨_, type, value⟩ :: rest => by
    simp [mapBindings, bindingsDepth, optionDepth_mapOption f level type,
      depth_mapTexts f level value, bindingsDepth_mapBindings f level rest]

end

end Tree

/-! ## Levels -/

mutual

/-- The texts of an import with their levels. -/
def Import.leveledTexts (level : Nat) : Import τ → List (Nat × τ)
  | .mk kind _ _ => kind.leveledTexts (level + 1)

def ImportKind.leveledTexts (level : Nat) : ImportKind τ → List (Nat × τ)
  | .missing => []
  | .path _ components => components.map (level + 1, ·)
  | .url address => address.texts.map (level + 1, ·)
  | .urlUsing address headers =>
    address.texts.map (level + 1, ·) ++ headers.leveledTexts (level + 1)
  | .env name => [(level + 1, name)]

end

namespace Tree

mutual

/-- The texts of a tree with their levels. -/
def leveledTexts (level : Nat) : Tree τ ν → List (Nat × τ)
  | .variable name _ | .builtin name => [(level + 1, name)]
  | .lambda param a b | .pi param a b =>
    (level + 1, param) :: (leveledTexts (level + 1) a ++ leveledTexts (level + 1) b)
  | .app a b | .annotated a b | .operation _ a b | .projectionByType a b =>
    leveledTexts (level + 1) a ++ leveledTexts (level + 1) b
  | .letIn bindings body => bindingsTexts (level + 2) bindings ++ leveledTexts (level + 1) body
  | .conditional a b c =>
    leveledTexts (level + 1) a ++ (leveledTexts (level + 1) b ++ leveledTexts (level + 1) c)
  | .merge a b type =>
    leveledTexts (level + 1) a ++ (leveledTexts (level + 1) b ++ optionTexts (level + 1) type)
  | .toMap a type => leveledTexts (level + 1) a ++ optionTexts (level + 1) type
  | .emptyList a | .present a => leveledTexts (level + 1) a
  | .list elements => listTexts (level + 1) elements
  | .recordType entries | .record entries | .union entries => entriesTexts (level + 2) entries
  | .field a label => leveledTexts (level + 1) a ++ [(level + 1, label)]
  | .projection a labels => leveledTexts (level + 1) a ++ labels.map (level + 1, ·)
  | .text chunks suffix => chunksTexts (level + 2) chunks ++ [(level + 1, suffix)]
  | .double _ | .natural _ | .integer _ => []
  | .embedded i => i.leveledTexts level

def optionTexts (level : Nat) : Option (Tree τ ν) → List (Nat × τ)
  | none => []
  | some t => leveledTexts level t

def listTexts (level : Nat) : List (Tree τ ν) → List (Nat × τ)
  | [] => []
  | t :: rest => leveledTexts level t ++ listTexts level rest

def entriesTexts (level : Nat) : List (τ × Option (Tree τ ν)) → List (Nat × τ)
  | [] => []
  | (label, value) :: rest =>
    (level, label) :: (optionTexts level value ++ entriesTexts level rest)

def chunksTexts (level : Nat) : List (τ × Tree τ ν) → List (Nat × τ)
  | [] => []
  | (part, t) :: rest => (level, part) :: (leveledTexts level t ++ chunksTexts level rest)

def bindingsTexts (level : Nat) : List (Binding τ (Tree τ ν)) → List (Nat × τ)
  | [] => []
  | ⟨name, type, value⟩ :: rest =>
    (level, name) ::
      (optionTexts level type ++ (leveledTexts level value ++ bindingsTexts level rest))

end

end Tree

/-! ## Texts that stay -/

theorem map_eq_self_iff {f : τ → τ} {ts : List τ} : ts.map f = ts ↔ ∀ t ∈ ts, f t = t := by
  rw [← List.map_inj_left, List.map_id']

theorem Url.mapTexts_eq_self_iff {f : τ → τ} {u : Url τ} :
    u.mapTexts f = u ↔ ∀ t ∈ u.texts, f t = t := by
  obtain ⟨scheme, host, path, userinfo, port, query⟩ := u
  have hoption : ∀ o : Option τ, o.map f = o ↔ ∀ t ∈ o.toList, f t = t := by
    rintro (_ | t) <;> simp
  simp only [mapTexts, texts, mk.injEq, hoption, map_eq_self_iff, List.forall_mem_append,
    List.forall_mem_cons, true_and]
  exact ⟨fun ⟨hhost, hpath, huser, hport, hquery⟩ => ⟨huser, hhost, hport, hpath, hquery⟩,
    fun ⟨huser, hhost, hport, hpath, hquery⟩ => ⟨hhost, hpath, huser, hport, hquery⟩⟩

mutual

theorem Import.mapTexts_eq_self_iff (f : Nat → τ → τ) (level : Nat) : (i : Import τ) →
    (i.mapTexts f level = i ↔ ∀ p ∈ i.leveledTexts level, f p.1 p.2 = p.2)
  | .mk kind hash mode => by
    simp [Import.mapTexts, Import.leveledTexts, ImportKind.mapTexts_eq_self_iff f (level + 1) kind]

theorem ImportKind.mapTexts_eq_self_iff (f : Nat → τ → τ) (level : Nat) : (kind : ImportKind τ) →
    (kind.mapTexts f level = kind ↔ ∀ p ∈ kind.leveledTexts level, f p.1 p.2 = p.2)
  | .missing | .env _ => by simp [ImportKind.mapTexts, ImportKind.leveledTexts]
  | .path _ components => by
    simp [ImportKind.mapTexts, ImportKind.leveledTexts, map_eq_self_iff]
  | .url address => by
    simp [ImportKind.mapTexts, ImportKind.leveledTexts, Url.mapTexts_eq_self_iff]
  | .urlUsing address headers => by
    simp [ImportKind.mapTexts, ImportKind.leveledTexts, Url.mapTexts_eq_self_iff,
      Import.mapTexts_eq_self_iff f (level + 1) headers, or_imp, forall_and]

end

namespace Tree

mutual

theorem mapTexts_eq_self_iff (f : Nat → τ → τ) (level : Nat) : (t : Tree τ ν) →
    (t.mapTexts f level = t ↔ ∀ p ∈ t.leveledTexts level, f p.1 p.2 = p.2)
  | .variable .. | .builtin .. | .double .. | .natural .. | .integer .. => by
    simp [mapTexts, leveledTexts]
  | .lambda _ a b | .pi _ a b | .app a b | .annotated a b | .operation _ a b
  | .projectionByType a b => by
    simp [mapTexts, leveledTexts, mapTexts_eq_self_iff f (level + 1) a,
      mapTexts_eq_self_iff f (level + 1) b, or_imp, forall_and]
  | .letIn bindings body => by
    simp [mapTexts, leveledTexts, mapBindings_eq_self_iff f (level + 2) bindings,
      mapTexts_eq_self_iff f (level + 1) body, or_imp, forall_and]
  | .conditional a b c => by
    simp [mapTexts, leveledTexts, mapTexts_eq_self_iff f (level + 1) a,
      mapTexts_eq_self_iff f (level + 1) b, mapTexts_eq_self_iff f (level + 1) c,
      or_imp, forall_and]
  | .merge a b type => by
    simp [mapTexts, leveledTexts, mapTexts_eq_self_iff f (level + 1) a,
      mapTexts_eq_self_iff f (level + 1) b, mapOption_eq_self_iff f (level + 1) type,
      or_imp, forall_and]
  | .toMap a type => by
    simp [mapTexts, leveledTexts, mapTexts_eq_self_iff f (level + 1) a,
      mapOption_eq_self_iff f (level + 1) type, or_imp, forall_and]
  | .emptyList a | .present a | .field a _ | .projection a _ => by
    simp [mapTexts, leveledTexts, mapTexts_eq_self_iff f (level + 1) a, map_eq_self_iff,
      or_imp, forall_and]
  | .list elements => by simp [mapTexts, leveledTexts, mapTrees_eq_self_iff f (level + 1) elements]
  | .recordType entries | .record entries | .union entries => by
    simp [mapTexts, leveledTexts, mapEntries_eq_self_iff f (level + 2) entries]
  | .text chunks _ => by
    simp [mapTexts, leveledTexts, mapChunks_eq_self_iff f (level + 2) chunks,
      or_imp, forall_and]
  | .embedded i => by simp [mapTexts, leveledTexts, i.mapTexts_eq_self_iff f level]

theorem mapOption_eq_self_iff (f : Nat → τ → τ) (level : Nat) : (t : Option (Tree τ ν)) →
    (mapOption f level t = t ↔ ∀ p ∈ optionTexts level t, f p.1 p.2 = p.2)
  | none => by simp [mapOption, optionTexts]
  | some t => by simp [mapOption, optionTexts, mapTexts_eq_self_iff f level t]

theorem mapTrees_eq_self_iff (f : Nat → τ → τ) (level : Nat) : (ts : List (Tree τ ν)) →
    (mapTrees f level ts = ts ↔ ∀ p ∈ listTexts level ts, f p.1 p.2 = p.2)
  | [] => by simp [mapTrees, listTexts]
  | t :: rest => by
    simp [mapTrees, listTexts, mapTexts_eq_self_iff f level t, mapTrees_eq_self_iff f level rest,
      or_imp, forall_and]

theorem mapEntries_eq_self_iff (f : Nat → τ → τ) (level : Nat) :
    (entries : List (τ × Option (Tree τ ν))) →
      (mapEntries f level entries = entries ↔ ∀ p ∈ entriesTexts level entries, f p.1 p.2 = p.2)
  | [] => by simp [mapEntries, entriesTexts]
  | (_, value) :: rest => by
    simp [mapEntries, entriesTexts, mapOption_eq_self_iff f level value,
      mapEntries_eq_self_iff f level rest, or_imp, forall_and, and_assoc]

theorem mapChunks_eq_self_iff (f : Nat → τ → τ) (level : Nat) : (chunks : List (τ × Tree τ ν)) →
    (mapChunks f level chunks = chunks ↔ ∀ p ∈ chunksTexts level chunks, f p.1 p.2 = p.2)
  | [] => by simp [mapChunks, chunksTexts]
  | (_, t) :: rest => by
    simp [mapChunks, chunksTexts, mapTexts_eq_self_iff f level t,
      mapChunks_eq_self_iff f level rest, or_imp, forall_and, and_assoc]

theorem mapBindings_eq_self_iff (f : Nat → τ → τ) (level : Nat) :
    (bindings : List (Binding τ (Tree τ ν))) →
      (mapBindings f level bindings = bindings ↔
        ∀ p ∈ bindingsTexts level bindings, f p.1 p.2 = p.2)
  | [] => by simp [mapBindings, bindingsTexts]
  | ⟨_, type, value⟩ :: rest => by
    simp [mapBindings, bindingsTexts, mapOption_eq_self_iff f level type,
      mapTexts_eq_self_iff f level value, mapBindings_eq_self_iff f level rest,
      or_imp, forall_and, and_assoc]

end

end Tree

end DhallSyntax
