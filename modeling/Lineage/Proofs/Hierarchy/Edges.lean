import Lineage.Proofs.Hierarchy.Reachability
import Lineage.Proofs.Text.Characters
import Mathlib.Data.Set.Card

/-!
# The edges of a graph

A graph is determined by its edges. The graph that the sources declare, with edges added to it
afterwards, has exactly the edges that some source gives or that were added, less those that have an
empty end or lead from an entity to itself. So the order in which edges are added does not matter.

## Main definitions

- `Graph.IsEdge`: what may be an edge
- `Graph.Declared`: what a source gives as a parent

## Main statements

- `Graph.isParent_addAll_iff`: edges added one by one
- `Graph.exists_declaredEdges_iff`: the edges that the sources give
- `Graph.ext`: a graph is determined by its edges
- `Graph.encard_edges`, `Graph.encard_entities`: what the two sizes of a graph count
- `Graph.edges_exact`: all of it together
-/

namespace Lineage

namespace Graph

variable {g g' : Graph} {child parent raw n p : String}

/-! ## Adding edges -/

/-- An edge has two nonempty ends that differ. -/
def IsEdge (child parent : String) : Prop := child ≠ "" ∧ parent ≠ "" ∧ parent ≠ child

/-- There is nothing to add where the ends are those of no edge, or the edge is there already. -/
theorem add?_eq_none_iff :
    g.add? child raw = none ↔ ¬ IsEdge child (trimmed raw) ∨ g.IsParent child (trimmed raw) := by
  simp only [add?, IsEdge, IsParent, dite_eq_left_iff, reduceCtorEq, imp_false, not_not]
  constructor
  · rintro (h | h | h | h)
    · exact .inl fun hedge => hedge.1 h
    · exact .inl fun hedge => hedge.2.1 h
    · exact .inl fun hedge => hedge.2.2 h.symm
    · exact .inr h
  · rintro (h | h)
    · by_contra hnot
      simp only [not_or] at hnot
      exact h ⟨hnot.1, hnot.2.1, fun heq => hnot.2.2.1 heq.symm⟩
    · exact .inr (.inr (.inr h))

theorem isParent_of_add? (h : g.add? child raw = some g') :
    g'.IsParent n p ↔ g.IsParent n p ∨ n = child ∧ p = trimmed raw := by
  obtain ⟨_, hadded⟩ := Option.dite_none_left_eq_some.mp h
  obtain rfl := Option.some.inj hadded
  simp only [IsParent, parentsOf, NameMap.get?_insert]
  by_cases hn : n = child
  · subst hn
    simp [or_comm]
  · simp [hn]

/-- An edge is added to those that are there. -/
theorem isParent_add_iff :
    (g.add child raw).IsParent n p ↔
      g.IsParent n p ∨ IsEdge n p ∧ n = child ∧ p = trimmed raw := by
  rw [add]
  cases h : g.add? child raw with
  | none =>
    rw [add?_eq_none_iff] at h
    refine ⟨.inl, ?_⟩
    rintro (hold | ⟨hedge, rfl, rfl⟩)
    · exact hold
    · exact h.resolve_left fun hnot => hnot hedge
  | some added =>
    have hedge : IsEdge child (trimmed raw) := by
      by_contra hnot
      rw [add?_eq_none_iff.mpr (.inl hnot)] at h
      cases h
    refine (isParent_of_add? h).trans (or_congr_right ⟨?_, And.right⟩)
    rintro ⟨rfl, rfl⟩
    exact ⟨hedge, rfl, rfl⟩

/-- Edges are added one by one, and none gets lost. -/
theorem isParent_addAll_iff {edges : List (String × String)} :
    (g.addAll edges).IsParent n p ↔
      g.IsParent n p ∨ IsEdge n p ∧ ∃ raw, (n, raw) ∈ edges ∧ p = trimmed raw := by
  induction edges generalizing g with
  | nil => simp [addAll]
  | cons edge rest ih =>
    obtain ⟨child, first⟩ := edge
    have hstep : g.addAll ((child, first) :: rest) = (g.add child first).addAll rest := rfl
    rw [hstep, ih, isParent_add_iff, or_assoc, ← and_or_left]
    refine or_congr_right (and_congr_right fun _ => ?_)
    constructor
    · rintro (⟨rfl, rfl⟩ | ⟨raw, hraw, rfl⟩)
      · exact ⟨first, List.mem_cons_self .., rfl⟩
      · exact ⟨raw, List.mem_cons_of_mem _ hraw, rfl⟩
    · rintro ⟨raw, hraw, rfl⟩
      rcases List.mem_cons.mp hraw with heq | hraw
      · cases heq
        exact .inl ⟨rfl, rfl⟩
      · exact .inr ⟨raw, hraw, rfl⟩

/-! ## Graphs with the same edges -/

theorem get?_parents (g : Graph) (n : String) :
    g.parents.get? n = if g.parentsOf n = ∅ then none else some (g.parentsOf n) := by
  cases h : g.parents.get? n with
  | none => simp [parentsOf, h]
  | some found =>
    have hne : found ≠ ∅ := (g.proper _ (NameMap.mem_entries_of_get? h)).2.2.2
    simp [parentsOf, h, hne]

/-- A graph is determined by its edges. -/
theorem ext (h : ∀ n p, g.IsParent n p ↔ g'.IsParent n p) : g = g' := by
  have hparents : ∀ n, g.parentsOf n = g'.parentsOf n := fun n => NameSet.ext (h n)
  have hmaps : g.parents = g'.parents := by
    apply NameMap.ext
    intro n
    rw [get?_parents, get?_parents, hparents]
  cases g
  cases g'
  cases hmaps
  rfl

/-- The order in which edges are added does not matter. -/
theorem addAll_perm {edges edges' : List (String × String)} (h : edges.Perm edges') :
    g.addAll edges = g.addAll edges' := by
  apply ext
  intro n p
  simp only [isParent_addAll_iff, h.mem_iff]

/-! ## Sizes -/

/-- The edges of a graph, entity by entity. -/
def edgeList (g : Graph) : List (String × String) :=
  g.parents.entries.flatMap fun e => e.2.toList.map (e.1, ·)

theorem mem_edgeList {e : String × String} : e ∈ g.edgeList ↔ g.IsParent e.1 e.2 := by
  obtain ⟨n, p⟩ := e
  rw [edgeList, List.mem_flatMap, IsParent, parentsOf]
  constructor
  · rintro ⟨⟨child, parents⟩, hentry, hedge⟩
    obtain ⟨parent, hparent, heq⟩ := List.mem_map.mp hedge
    cases heq
    rw [NameMap.mem_entries_iff.mp hentry]
    exact hparent
  · cases h : g.parents.get? n with
    | none => exact fun hp => absurd hp (NameSet.notMem_empty p)
    | some parents =>
      exact fun hp => ⟨(n, parents), NameMap.mem_entries_iff.mpr h, List.mem_map_of_mem hp⟩

theorem nodup_edgeList (g : Graph) : g.edgeList.Nodup := by
  refine List.nodup_flatMap.mpr ⟨fun e _ => ?_, ?_⟩
  · exact e.2.nodup_toList.map fun _ _ h => (Prod.mk.inj h).2
  · -- edges of different entries have different entities
    refine (List.pairwise_map.mp g.parents.nodup_keys).imp fun {e e'} hne edge hedge hedge' => ?_
    obtain ⟨_, _, rfl⟩ := List.mem_map.mp hedge
    obtain ⟨_, _, heq⟩ := List.mem_map.mp hedge'
    exact hne (Prod.mk.inj heq).1.symm

/-- The number of edges. -/
theorem encard_edges (g : Graph) :
    {e : String × String | g.IsParent e.1 e.2}.encard = g.edgeCount := by
  have hset : {e : String × String | g.IsParent e.1 e.2} = (g.edgeList.toFinset : Set _) := by
    ext e
    simp [mem_edgeList]
  have hlength : g.edgeList.length = g.edgeCount := by
    simp [edgeList, edgeCount, NameMap.values, List.length_flatMap, Function.comp_def]
  rw [hset, Set.encard_coe_eq_coe_finsetCard, List.toFinset_card_of_nodup g.nodup_edgeList, hlength]

/-- The number of entities that have a parent. -/
theorem encard_entities (g : Graph) : {n | g.parentsOf n ≠ ∅}.encard = g.size := by
  have hset : {n | g.parentsOf n ≠ ∅} = (g.parents.keys.toFinset : Set String) := by
    ext n
    simp [NameMap.mem_keys_iff, get?_parents]
  rw [hset, Set.encard_coe_eq_coe_finsetCard,
    List.toFinset_card_of_nodup g.parents.nodup_keys, ← NameMap.size_eq_length_keys, size]

/-- An edge is added if and only if there are more edges afterwards. -/
theorem isSome_add?_iff :
    (g.add? child raw).isSome ↔ g.edgeCount < (g.add child raw).edgeCount := by
  cases h : g.add? child raw with
  | none => simp [add, h]
  | some added =>
    have hnew : ¬ g.IsParent child (trimmed raw) := by
      intro hold
      rw [add?_eq_none_iff.mpr (.inr hold)] at h
      cases h
    have hedges : {e : String × String | added.IsParent e.1 e.2}
        = insert (child, trimmed raw) {e | g.IsParent e.1 e.2} := by
      ext e
      simp [isParent_of_add? h, Prod.ext_iff, or_comm]
    have hnot : (child, trimmed raw) ∉ {e : String × String | g.IsParent e.1 e.2} := hnew
    have hcount : (added.edgeCount : ℕ∞) = g.edgeCount + 1 := by
      rw [← encard_edges, hedges, Set.encard_insert_of_notMem hnot, encard_edges]
    have hsucc : added.edgeCount = g.edgeCount + 1 := by exact_mod_cast hcount
    simp [add, h, hsucc]

/-! ## The sources -/

/-- What a source gives as a parent of an entity. -/
inductive Declared (r : Relations) (composed : NameMap NameSet) (frameParent : String) :
    String → String → Prop where
  /-- A bundle that the entity uses. -/
  | bundle {bundle name : String} (owner : r.bundleOwner.get? bundle = some name) :
      Declared r composed frameParent name (trimmed bundle)
  /-- A name that the entity inherits. -/
  | inherited {name parent : String} (inherits : parent ∈ r.inheritsOf name) :
      Declared r composed frameParent name parent
  /-- The frame parent, if the entity is a frame. -/
  | frame {name : String} (frame : r.isFrame name) :
      Declared r composed frameParent name (trimmed frameParent)
  /-- A name that the entity composes as a bundle. -/
  | composed {bundle raw : String} {parents : NameSet}
      (composes : composed.get? bundle = some parents) (mem : raw ∈ parents) :
      Declared r composed frameParent bundle (trimmed raw)

variable {r : Relations} {composed : NameMap NameSet} {frameParent : String}

/-- Inherited names are trimmed when they are read, so trimming them again does nothing. -/
theorem trimmed_of_mem_inheritsOf (h : p ∈ r.inheritsOf n) : trimmed p = p := by
  rw [Relations.inheritsOf] at h
  cases hraw : r.inheritance.get? n with
  | none =>
    rw [hraw] at h
    cases h
  | some list =>
    rw [hraw] at h
    exact trimmed_of_mem_parentList h

/-- The edges that are gathered lead to what the sources give. -/
theorem exists_declaredEdges_iff :
    (∃ raw, (n, raw) ∈ declaredEdges r composed frameParent ∧ p = trimmed raw) ↔
      Declared r composed frameParent n p := by
  constructor
  · rintro ⟨raw, hraw, rfl⟩
    simp only [declaredEdges, List.mem_append, List.mem_map, List.mem_flatMap, Prod.mk.injEq,
      Prod.exists] at hraw
    rcases hraw with ((⟨bundle, name, hentry, rfl, rfl⟩ | ⟨name, list, hentry, parent, hparent, rfl,
      rfl⟩) | ⟨name, hname, rfl, rfl⟩) | ⟨bundle, parents, hentry, parent, hparent, rfl, rfl⟩
    · exact .bundle (NameMap.mem_entries_iff.mp hentry)
    · have hinherits : parent ∈ r.inheritsOf name := by
        rw [Relations.inheritsOf, NameMap.mem_entries_iff.mp hentry]
        exact hparent
      rw [trimmed_of_mem_inheritsOf hinherits]
      exact .inherited hinherits
    · exact .frame (decide_eq_true hname)
    · exact .composed (NameMap.mem_entries_iff.mp hentry) hparent
  · intro h
    simp only [declaredEdges, List.mem_append, List.mem_map, List.mem_flatMap, Prod.mk.injEq,
      Prod.exists]
    cases h with
    | @bundle bundle name owner =>
      exact ⟨bundle, .inl (.inl (.inl ⟨bundle, n, NameMap.mem_entries_iff.mpr owner, rfl, rfl⟩)),
        rfl⟩
    | inherited inherits =>
      refine ⟨p, .inl (.inl (.inr ?_)), (trimmed_of_mem_inheritsOf inherits).symm⟩
      rw [Relations.inheritsOf] at inherits
      cases hlist : r.inheritance.get? n with
      | none =>
        rw [hlist] at inherits
        cases inherits
      | some list =>
        rw [hlist] at inherits
        exact ⟨n, list, NameMap.mem_entries_iff.mpr hlist, p, inherits, rfl, rfl⟩
    | frame frame =>
      exact ⟨frameParent, .inl (.inr ⟨n, of_decide_eq_true frame, rfl, rfl⟩), rfl⟩
    | @composed bundle raw parents composes mem =>
      exact ⟨raw, .inr ⟨n, parents, NameMap.mem_entries_iff.mpr composes, raw, mem, rfl, rfl⟩, rfl⟩

/-- The graph of the sources with edges added to it has the edges that the sources give and those
    that were added, as far as they are edges. Parents are listed in ascending order, and only for
    entities that have some. The two sizes count the edges and the entities with parents, an edge is
    added exactly where the number of edges grows, and adding the same edges in another order gives
    the same graph. -/
theorem edges_exact (r : Relations) (composed : NameMap NameSet) (frameParent : String)
    (edges : List (String × String)) :
    let g := (ofSources r composed frameParent).addAll edges
    (∀ n p, p ∈ g.parentsOf n ↔ (n ≠ "" ∧ p ≠ "" ∧ p ≠ n) ∧
      (Declared r composed frameParent n p ∨ ∃ raw, (n, raw) ∈ edges ∧ p = trimmed raw)) ∧
    (∀ n, (g.parentsOf n).toList.Pairwise (· < ·)) ∧
    (∀ n parents, g.parents.get? n = some parents → parents ≠ ∅) ∧
    {e : String × String | e.2 ∈ g.parentsOf e.1}.encard = g.edgeCount ∧
    {n | g.parentsOf n ≠ ∅}.encard = g.size ∧
    (∀ child raw, (g.add? child raw).isSome ↔ g.edgeCount < (g.add child raw).edgeCount) ∧
    ∀ edges', edges'.Perm edges → (ofSources r composed frameParent).addAll edges' = g := by
  intro g
  refine ⟨fun n p => ?_, fun n => (g.parentsOf n).ascending, fun n parents hfound => ?_,
    g.encard_edges, g.encard_entities, fun child raw => isSome_add?_iff,
    fun edges' hperm => addAll_perm hperm⟩
  · have hnone : ¬ (∅ : Graph).IsParent n p := NameSet.notMem_empty p
    have hsources : (ofSources r composed frameParent).IsParent n p ↔
        IsEdge n p ∧ Declared r composed frameParent n p := by
      rw [ofSources, isParent_addAll_iff, exists_declaredEdges_iff]
      exact or_iff_right hnone
    show g.IsParent n p ↔ _
    rw [isParent_addAll_iff, hsources, ← and_or_left]
    rfl
  · exact (g.proper _ (NameMap.mem_entries_of_get? hfound)).2.2.2

/-! ## Example -/

/-- A frame that uses a bundle and inherits itself beside another name. -/
def panel : Relations :=
  ⟨.ofList [(" Mixin", "Panel")], .ofList [("Panel", "Base, Panel")], .ofList ["Panel"]⟩

/-- The same bundle once more, composed. -/
def panelComposed : NameMap NameSet := .ofList [("Panel", .ofList ["Mixin ", " "])]

/-- Two edges are added in two orders; one of them is blank. -/
theorem edges_exact_panel :
    [("Panel", "Shown"), ("Panel", " ")].Perm [("Panel", " "), ("Panel", "Shown")] ∧
      (ofSources panel panelComposed "Frame").addAll [("Panel", "Shown"), ("Panel", " ")]
        = (ofSources panel panelComposed "Frame").addAll [("Panel", " "), ("Panel", "Shown")] ∧
      (((ofSources panel panelComposed "Frame").addAll [("Panel", "Shown"), ("Panel", " ")]).parentsOf
        "Panel").toList = ["Base", "Frame", "Mixin", "Shown"] := by
  have hperm : [("Panel", "Shown"), ("Panel", " ")].Perm [("Panel", " "), ("Panel", "Shown")] := by
    decide
  obtain ⟨-, -, -, -, -, -, horder⟩ :=
    edges_exact panel panelComposed "Frame" [("Panel", " "), ("Panel", "Shown")]
  exact ⟨hperm, horder _ hperm, by decide +kernel⟩

end Graph

end Lineage
