import Lineage.Hierarchy.Graph
import Lineage.Proofs.Data.Names
import Mathlib.Data.List.Perm.Subperm
import Mathlib.Logic.Relation

/-!
# Reachability in the parent graph

The ancestors of an entity are what can be reached from it over parent edges. This module says what
that is, without any search: reachability, the cycles, and the bound on a trail of entities that
all have parents.

## Main definitions

- `Graph.Reaches`: over one or more parent edges
- `Graph.OnCycle`, `Graph.ReachesCycle`

## Main statements

- `Graph.Reaches.mem_of_closed`: what is closed under parents cannot be left
- `Graph.length_le_size`: a trail of different entities with parents is short
-/

namespace Lineage

namespace Graph

variable {g : Graph} {x y z : String}

/-! ## Edges -/

/-- The second entity is a direct parent of the first. -/
def IsParent (g : Graph) (child parent : String) : Prop := parent ∈ g.parentsOf child

instance (g : Graph) (child parent : String) : Decidable (g.IsParent child parent) :=
  inferInstanceAs (Decidable (_ ∈ _))

theorem mem_parentsOf : y ∈ (g.parentsOf x).toList ↔ g.IsParent x y := Iff.rfl

/-- No entity is its own parent. -/
theorem IsParent.ne (h : g.IsParent x y) : y ≠ x := by
  rintro rfl
  -- an entity is never among the parents that it may have
  rcases g.mayHaveParents_or_eq_empty y with hparents | hempty
  · exact hparents.2.2.1 h
  · rw [IsParent, hempty] at h
    exact NameSet.notMem_empty y h

theorem IsParent.mem_keys (h : g.IsParent x y) : x ∈ g.parents.keys := by
  rw [NameMap.mem_keys_iff]
  cases hfound : g.parents.get? x with
  | some found => exact ⟨found, rfl⟩
  | none =>
    rw [IsParent, parentsOf, hfound] at h
    exact absurd h (NameSet.notMem_empty y)

/-! ## Reachability -/

/-- The second entity is reachable from the first over one or more parent edges. -/
def Reaches (g : Graph) : String → String → Prop := Relation.TransGen g.IsParent

/-- An entity that is reachable from itself. -/
def OnCycle (g : Graph) (x : String) : Prop := g.Reaches x x

/-- A cycle is reachable from the entity, or the entity lies on one. -/
def ReachesCycle (g : Graph) (x : String) : Prop := ∃ c, g.Reaches x c ∧ g.OnCycle c

theorem IsParent.reaches (h : g.IsParent x y) : g.Reaches x y := Relation.TransGen.single h

theorem Reaches.trans (h : g.Reaches x y) (h' : g.Reaches y z) : g.Reaches x z :=
  Relation.TransGen.trans h h'

theorem IsParent.reaches_trans (h : g.IsParent x y) (h' : g.Reaches y z) : g.Reaches x z :=
  h.reaches.trans h'

/-- What a parent is or leads to is reachable. -/
theorem reaches_of_exists_parent (h : ∃ p ∈ (g.parentsOf x).toList, y = p ∨ g.Reaches p y) :
    g.Reaches x y := by
  obtain ⟨p, hp, rfl | hreach⟩ := h
  · exact IsParent.reaches hp
  · exact IsParent.reaches_trans hp hreach

/-- An entity on a cycle reaches one: its own. -/
theorem OnCycle.reachesCycle (h : g.OnCycle x) : g.ReachesCycle x := ⟨x, h, h⟩

/-- No edge leads out of a list that is closed under parents. -/
theorem Reaches.mem_of_closed {names : List String}
    (hfirst : ∀ q ∈ (g.parentsOf x).toList, q ∈ names)
    (hclosed : ∀ e ∈ names, ∀ q ∈ (g.parentsOf e).toList, q ∈ names) (h : g.Reaches x y) :
    y ∈ names := by
  induction h with
  | single hstep => exact hfirst _ hstep
  | tail _ hstep ih => exact hclosed _ ih _ hstep

/-- Where all of a trail leads to an entity, with that entity it leads to its parents. -/
theorem reaches_of_trail {trail : List String} (h : ∀ e ∈ trail, g.Reaches e x) :
    ∀ e ∈ x :: trail, ∀ q ∈ (g.parentsOf x).toList, g.Reaches e q := by
  intro e he q hq
  rcases List.mem_cons.mp he with rfl | he
  · exact IsParent.reaches hq
  · exact (h e he).trans (IsParent.reaches hq)

/-! ## Trails -/

/-- A trail without repetitions is no longer than the number of entities with parents, if every
    entity on it has some. -/
theorem length_le_size {trail : List String} (hnodup : trail.Nodup)
    (hkeys : ∀ e ∈ trail, e ∈ g.parents.keys) : trail.length ≤ g.size := by
  rw [size, NameMap.size_eq_length_keys]
  exact (List.subperm_of_subset hnodup hkeys).length_le

end Graph

end Lineage
