import Lineage.Markup.Relations

/-!
# The parent graph

Edges from an entity to its direct parents, gathered from markup and from composition calls. An
edge never leads from an entity to itself, and both its ends are nonempty.

## Main definitions

- `Graph` with `Graph.parentsOf` and `Graph.add`
- `Graph.ofSources` gathers the edges that the sources declare
-/

namespace Lineage

/-- An entity may have these parents: there are some, and each is the end of an edge. -/
def MayHaveParents (child : String) (parents : NameSet) : Prop :=
  child ≠ "" ∧ "" ∉ parents ∧ child ∉ parents ∧ parents ≠ ∅

/-- The direct parents of every entity that has some. -/
structure Graph where
  parents : NameMap NameSet
  proper : ∀ e ∈ parents.entries, MayHaveParents e.1 e.2
  deriving DecidableEq, Repr

namespace Graph

/-- The graph without edges. -/
def empty : Graph := ⟨∅, fun _ h => nomatch h⟩

instance : EmptyCollection Graph := ⟨empty⟩
instance : Inhabited Graph := ⟨empty⟩

/-- The direct parents of an entity. -/
def parentsOf (g : Graph) (name : String) : NameSet := (g.parents.get? name).getD ∅

/-- The entity has parents, or it has none at all. -/
theorem mayHaveParents_or_eq_empty (g : Graph) (name : String) :
    MayHaveParents name (g.parentsOf name) ∨ g.parentsOf name = ∅ := by
  unfold parentsOf
  cases h : g.parents.get? name with
  | none => exact .inr rfl
  | some found => exact .inl (g.proper _ (NameMap.mem_entries_of_get? h))

theorem mayHaveParents_insert {g : Graph} {child parent : String} (hchild : child ≠ "")
    (hparent : parent ≠ "") (hne : child ≠ parent) :
    MayHaveParents child ((g.parentsOf child).insert parent) := by
  have hold : "" ∉ g.parentsOf child ∧ child ∉ g.parentsOf child := by
    rcases g.mayHaveParents_or_eq_empty child with h | h
    · exact ⟨h.2.1, h.2.2.1⟩
    · rw [h]; exact ⟨nofun, nofun⟩
  refine ⟨hchild, ?_, ?_, ?_⟩
  · simp [NameSet.mem_insert, hparent.symm, hold.1]
  · simp [NameSet.mem_insert, hne, hold.2]
  · intro h
    have hmem : parent ∈ (g.parentsOf child).insert parent := by simp
    rw [h] at hmem
    exact nomatch hmem

/-- Adds an edge to the trimmed parent, if that is an edge and not there yet. -/
def add? (g : Graph) (child parent : String) : Option Graph :=
  let parent := trimmed parent
  if h : child = "" ∨ parent = "" ∨ child = parent ∨ parent ∈ g.parentsOf child then none
  else
    some
      { parents := g.parents.insert child ((g.parentsOf child).insert parent)
        proper := fun _ he =>
          match NameMap.eq_or_mem_of_mem_insert he with
          | .inl heq => heq ▸ mayHaveParents_insert (fun hc => h (.inl hc)) (fun hp => h (.inr (.inl hp)))
              fun hcp => h (.inr (.inr (.inl hcp)))
          | .inr hmem => g.proper _ hmem }

/-- The graph with an edge added, or unchanged where there is none to add. -/
def add (g : Graph) (child parent : String) : Graph := (g.add? child parent).getD g

/-- Adds edges one by one. -/
def addAll (g : Graph) (edges : List (String × String)) : Graph :=
  edges.foldl (fun g e => g.add e.1 e.2) g

/-- The edges that the sources declare: an entity has the bundles it uses and the names it
    inherits as parents, a frame also the frame parent, and a bundle the names it composes. -/
def declaredEdges (r : Relations) (composed : NameMap NameSet) (frameParent : String) :
    List (String × String) :=
  r.bundleOwner.entries.map (fun (bundle, name) => (name, bundle))
    ++ r.inheritance.entries.flatMap (fun (name, raw) => (parentList raw).map (name, ·))
    ++ r.frames.toList.map (·, frameParent)
    ++ composed.entries.flatMap (fun (bundle, parents) => parents.toList.map (bundle, ·))

/-- The graph of all declared edges. -/
def ofSources (r : Relations) (composed : NameMap NameSet) (frameParent : String) : Graph :=
  addAll ∅ (declaredEdges r composed frameParent)

/-- The number of entities with a parent. -/
def size (g : Graph) : Nat := g.parents.size

/-- The number of edges. -/
def edgeCount (g : Graph) : Nat := (g.parents.values.flatMap NameSet.toList).length

end Graph

end Lineage
