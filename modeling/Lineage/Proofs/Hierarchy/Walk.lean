import Lineage.Hierarchy.Ancestors
import Lineage.Proofs.Hierarchy.Reachability

/-!
# Walks

The search for ancestors runs on a bound for the length of its trail. Here it is a relation without
a bound: one rule for each thing that can happen to a parent. The bound that a query uses is large
enough for the rules to reach the end, and any larger one gives the same.

A walk also has the list of the entities that it enters, so that statements can speak of how often
an entity is expanded.

## Main definitions

- `Session.Walk`: what becomes of the parents of the innermost entity of a trail
- `Session.expanded`: the entities that the search enters, in order

## Main statements

- `Session.runs_of_size_lt`: the search follows the rules to their end
- `Session.walk_eq_of_size_lt`: larger bounds change nothing
-/

namespace Lineage

namespace Session

variable {g : Graph} {s s' : Session} {trail above : List String} {x e parent : String}
  {found : NameSet} {fuel : Nat}

/-! ## What a session remembers -/

/-- The session remembers the ancestors of the entity. -/
def Knows (s : Session) (e : String) : Prop := ∃ list, s.known.get? e = some list

theorem not_knows_iff : ¬ s.Knows e ↔ s.known.get? e = none := by
  rw [Knows, ← Option.ne_none_iff_exists', not_not]

/-- The session that also remembers what was found for an entity, less the entity itself. -/
def remember (s : Session) (x : String) (found : NameSet) : Session :=
  { s with known := s.known.insert x (found.erase x) }

theorem get?_remember :
    (s.remember x found).known.get? e = if e = x then some (found.erase x) else s.known.get? e :=
  NameMap.get?_insert

/-- A list that is remembered now is the new one, or was remembered before. -/
theorem eq_or_get?_of_get?_remember {list : NameSet}
    (hlist : (s.remember x found).known.get? e = some list) :
    e = x ∧ list = found.erase x ∨ s.known.get? e = some list := by
  rw [get?_remember] at hlist
  split at hlist
  · rename_i heq
    exact .inl ⟨heq, (Option.some.inj hlist).symm⟩
  · exact .inr hlist

theorem knows_remember : (s.remember x found).Knows e ↔ e = x ∨ s.Knows e := by
  simp only [Knows, get?_remember]
  by_cases heq : e = x <;> simp [heq]

/-! ## Rules -/

/-- From a set that was found so far and a session, a walk over some parents of the innermost entity
    of a trail enters a list of entities, and ends with a set and a session. -/
inductive Walk (g : Graph) : List String → List String → NameSet → Session →
    List String → NameSet → Session → Prop where
  /-- No parent is left. -/
  | done (trail : List String) (found : NameSet) (s : Session) :
      Walk g trail [] found s [] found s
  /-- A parent that is remembered contributes itself and its list. -/
  | known {trail : List String} {parent : String} {rest : List String} {found list found' : NameSet}
      {s s' : Session} {entered : List String} (hknown : s.known.get? parent = some list)
      (tail : Walk g trail rest ((found.insert parent).union list) s entered found' s') :
      Walk g trail (parent :: rest) found s entered found' s'
  /-- A parent on the trail closes a cycle and contributes itself. -/
  | closing {trail : List String} {parent : String} {rest : List String} {found found' : NameSet}
      {s s' : Session} {entered : List String} (hnew : s.known.get? parent = none)
      (hon : parent ∈ trail)
      (tail : Walk g trail rest (found.insert parent)
        (s.noteCycle parent (cycleAt trail parent)) entered found' s') :
      Walk g trail (parent :: rest) found s entered found' s'
  /-- Any other parent is entered, and remembered once its own parents are done. -/
  | entering {trail : List String} {parent : String} {rest : List String}
      {found inside found' : NameSet} {s s₁ s' : Session} {below entered : List String}
      (hnew : s.known.get? parent = none) (hoff : parent ∉ trail)
      (inner : Walk g (parent :: trail) (g.parentsOf parent).toList ∅ s below inside s₁)
      (tail : Walk g trail rest ((found.insert parent).union (inside.erase parent))
        (s₁.remember parent inside) entered found' s') :
      Walk g trail (parent :: rest) found s (parent :: below ++ entered) found' s'

/-- The rules leave no choice. -/
theorem Walk.unique {todo entered entered' : List String} {found' found'' : NameSet}
    {s'' : Session} (h : Walk g trail todo found s entered found' s')
    (h' : Walk g trail todo found s entered' found'' s'') :
    entered = entered' ∧ found' = found'' ∧ s' = s'' := by
  -- what is remembered and what is on the trail decide between the rules
  induction h generalizing entered' found'' s'' with
  | done =>
    cases h'
    exact ⟨rfl, rfl, rfl⟩
  | known hknown _ ih =>
    cases h' with
    | known hknown' tail' =>
      rw [hknown] at hknown'
      cases hknown'
      exact ih tail'
    | closing hnew => simp [hknown] at hnew
    | entering hnew => simp [hknown] at hnew
  | closing hnew hon _ ih =>
    cases h' with
    | known hknown' => simp [hnew] at hknown'
    | closing _ _ tail' => exact ih tail'
    | entering _ hoff => exact absurd hon hoff
  | entering hnew hoff _ _ ihinner ihtail =>
    cases h' with
    | known hknown' => simp [hnew] at hknown'
    | closing _ hon => exact absurd hon hoff
    | entering _ _ inner' tail' =>
      obtain ⟨rfl, rfl, rfl⟩ := ihinner inner'
      obtain ⟨rfl, rfl, rfl⟩ := ihtail tail'
      exact ⟨rfl, rfl, rfl⟩

/-! ## The search -/

/-- What the search does with one parent of the innermost entity of a trail. -/
def visit (g : Graph) (fuel : Nat) (trail : List String) (state : NameSet × Session)
    (parent : String) : NameSet × Session :=
  let found := state.1.insert parent
  match state.2.known.get? parent with
  | some list => (found.union list, state.2)
  | none =>
    if parent ∈ trail then (found, state.2.noteCycle parent (cycleAt trail parent))
    else
      let (more, s) := walk g fuel trail parent state.2
      (found.union more, s)

theorem walk_succ : walk g (fuel + 1) above x s =
    (((g.parentsOf x).toList.foldl (visit g fuel (x :: above)) (∅, s)).1.erase x,
      ((g.parentsOf x).toList.foldl (visit g fuel (x :: above)) (∅, s)).2.remember x
        ((g.parentsOf x).toList.foldl (visit g fuel (x :: above)) (∅, s)).1) := rfl

/-- The entities that the search expands, in order, the first one included. -/
def expanded (g : Graph) : Nat → List String → String → Session → List String
  | 0, _, _, _ => []
  | fuel + 1, above, x, s =>
    let trail := x :: above
    x :: ((g.parentsOf x).toList.foldl
      (fun (state : List String × Session) parent =>
        match state.2.known.get? parent with
        | some _ => state
        | none =>
          if parent ∈ trail then (state.1, state.2.noteCycle parent (cycleAt trail parent))
          else (state.1 ++ expanded g fuel trail parent state.2,
            (walk g fuel trail parent state.2).2))
      ([], s)).1

/-- How the list of expanded entities grows with one parent. -/
def expand (g : Graph) (fuel : Nat) (trail : List String) (state : List String × Session)
    (parent : String) : List String × Session :=
  match state.2.known.get? parent with
  | some _ => state
  | none =>
    if parent ∈ trail then (state.1, state.2.noteCycle parent (cycleAt trail parent))
    else (state.1 ++ expanded g fuel trail parent state.2, (walk g fuel trail parent state.2).2)

theorem expanded_succ : expanded g (fuel + 1) above x s =
    x :: ((g.parentsOf x).toList.foldl (expand g fuel (x :: above)) ([], s)).1 := rfl

/-- The search from an entity runs to its end: the walk over its parents follows the rules. -/
def Runs (g : Graph) (fuel : Nat) (above : List String) (x : String) (s : Session) : Prop :=
  ∃ below inside s₁, Walk g (x :: above) (g.parentsOf x).toList ∅ s below inside s₁ ∧
    walk g fuel above x s = (inside.erase x, s₁.remember x inside) ∧
    expanded g fuel above x s = x :: below

/-- A walk over parents, if the search runs to its end from those that it enters. -/
theorem exists_walk_of_runs {todo : List String} (log : List String)
    (hruns : ∀ parent ∈ todo, parent ∉ trail → ∀ s, Runs g fuel trail parent s) :
    ∃ entered found' s', Walk g trail todo found s entered found' s' ∧
      todo.foldl (visit g fuel trail) (found, s) = (found', s') ∧
      todo.foldl (expand g fuel trail) (log, s) = (log ++ entered, s') := by
  induction todo generalizing found s log with
  | nil => exact ⟨[], found, s, .done trail found s, rfl, by simp⟩
  | cons parent rest ih =>
    have hrest := fun q hq => hruns q (List.mem_cons_of_mem parent hq)
    cases hknown : s.known.get? parent with
    | some list =>
      obtain ⟨entered, found', s', htail, hvisit, hexpand⟩ := ih log hrest
      refine ⟨entered, found', s', .known hknown htail, ?_, ?_⟩
      · rw [List.foldl_cons, ← hvisit, visit, hknown]
      · rw [List.foldl_cons, ← hexpand, expand, hknown]
    | none =>
      by_cases hon : parent ∈ trail
      · obtain ⟨entered, found', s', htail, hvisit, hexpand⟩ := ih log hrest
        refine ⟨entered, found', s', .closing hknown hon htail, ?_, ?_⟩
        · rw [List.foldl_cons, ← hvisit, visit, hknown]
          simp [hon]
        · rw [List.foldl_cons, ← hexpand, expand, hknown]
          simp [hon]
      · obtain ⟨below, inside, s₁, hinner, hwalk, hbelow⟩ :=
          hruns parent (List.mem_cons_self ..) hon s
        obtain ⟨entered, found', s', htail, hvisit, hexpand⟩ :=
          ih (log ++ parent :: below) hrest
        refine ⟨parent :: below ++ entered, found', s', .entering hknown hon hinner htail, ?_, ?_⟩
        · rw [List.foldl_cons, ← hvisit, visit, hknown]
          simp [hon, hwalk]
        · rw [List.foldl_cons, ← List.append_assoc, ← hexpand, expand, hknown]
          simp [hon, hwalk, hbelow]

/-- A bound above the number of entities with parents is never reached: the entities of a trail are
    different, and all that are left for a parent have one. -/
theorem runs_of_size_lt (hnodup : above.Nodup) (hkeys : ∀ e ∈ above, e ∈ g.parents.keys)
    (hoff : x ∉ above) (hbound : g.size < fuel + above.length) : Runs g fuel above x s := by
  induction fuel generalizing above x s with
  | zero =>
    -- the trail would be longer than there are entities with parents
    have hlength := g.length_le_size hnodup hkeys
    omega
  | succ fuel ih =>
    have hruns : ∀ parent ∈ (g.parentsOf x).toList, parent ∉ x :: above → ∀ s,
        Runs g fuel (x :: above) parent s := by
      intro parent hparent hnew s
      have hx : x ∈ g.parents.keys := Graph.IsParent.mem_keys hparent
      apply ih
      · exact List.nodup_cons.mpr ⟨hoff, hnodup⟩
      · intro e he
        rcases List.mem_cons.mp he with rfl | he
        · exact hx
        · exact hkeys e he
      · exact hnew
      · rw [List.length_cons]
        omega
    obtain ⟨below, inside, s₁, hwalk, hvisit, hexpand⟩ :=
      exists_walk_of_runs (s := s) [] hruns
    refine ⟨below, inside, s₁, hwalk, ?_, ?_⟩
    · rw [walk_succ, hvisit]
    · rw [expanded_succ, hexpand, List.nil_append]

/-- A query for an entity that is not remembered runs to its end. -/
theorem runs_root (g : Graph) (x : String) (s : Session) : Runs g (g.size + 1) [] x s := by
  apply runs_of_size_lt
  · exact List.nodup_nil
  · simp
  · simp
  · simp

/-- A larger bound gives the same. -/
theorem walk_eq_of_size_lt (hbound : g.size < fuel) :
    walk g fuel [] x s = walk g (g.size + 1) [] x s := by
  obtain ⟨below, inside, s₁, hwalk, heq, -⟩ : Runs g fuel [] x s := by
    apply runs_of_size_lt
    · exact List.nodup_nil
    · simp
    · simp
    · simpa using hbound
  -- both searches follow the rules to their end, and that is the same
  obtain ⟨below', inside', s₁', hwalk', heq', -⟩ := runs_root g x s
  obtain ⟨-, rfl, rfl⟩ := hwalk.unique hwalk'
  rw [heq, heq']

end Session

end Lineage
