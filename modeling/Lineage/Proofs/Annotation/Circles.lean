import Lineage.Proofs.Annotation.WaitingGraph

/-!
# Circles of waiting bundles

The search for a circle queues every bundle once, so what it finds comes back to the start without
passing through any bundle twice. Of the circles of a graph only those are kept that have no member
in common with an earlier one. A graph in which every bundle waits on another bundle of the graph
has a circle.

## Main definitions

- `IsCircle`: a way back to where it starts

## Main statements

- `WaitingGraph.isCircle_of_mem_cycles`: what the search finds
- `WaitingGraph.pairwise_disjoint_cycles`: no bundle is on two circles
- `WaitingGraph.transGen_irrefl`, `WaitingGraph.cycles_ne_nil`: which graphs have circles
-/

namespace Lineage

/-- A way from a bundle back to it that passes through no bundle twice and along which each bundle
    leads to the next one. -/
structure IsCircle (leads : String → String → Prop) (entity : String) (chain : List String) :
    Prop where
  exists_inner : ∃ inner, (entity :: inner).Nodup ∧ chain = entity :: inner ++ [entity]
  leads : chain.IsChain leads

namespace IsCircle

variable {leads leads' : String → String → Prop} {entity b : String} {chain : List String}

theorem head?_eq (h : IsCircle leads entity chain) : chain.head? = some entity := by
  obtain ⟨inner, -, rfl⟩ := h.exists_inner
  rfl

theorem imp (h : IsCircle leads entity chain) (himp : ∀ b c, leads b c → leads' b c) :
    IsCircle leads' entity chain :=
  ⟨h.exists_inner, h.leads.imp himp⟩

/-- If nobody leads to itself, a circle has a second member. -/
theorem exists_inner_ne_nil (h : IsCircle leads entity chain) (hself : ∀ b, ¬ leads b b) :
    ∃ inner, inner ≠ [] ∧ (entity :: inner).Nodup ∧ chain = entity :: inner ++ [entity] := by
  obtain ⟨inner, hnodup, rfl⟩ := h.exists_inner
  refine ⟨inner, ?_, hnodup, rfl⟩
  rintro rfl
  exact hself entity (List.isChain_cons_cons.mp h.leads).1

/-- Every member of a circle leads somewhere. -/
theorem exists_leads (h : IsCircle leads entity chain) (hb : b ∈ chain) : ∃ c, leads b c := by
  obtain ⟨inner, -, rfl⟩ := h.exists_inner
  -- the last bundle is the first one again, and all others have a next one
  have hfront : b ∈ entity :: inner := by
    rcases List.mem_append.mp hb with hb | hb
    · exact hb
    · rw [List.mem_singleton.mp hb]
      exact List.mem_cons_self ..
  obtain ⟨before, after, hsplit⟩ := List.append_of_mem hfront
  have hchain := h.leads
  rw [hsplit, List.append_assoc] at hchain
  have hrest := hchain.right_of_append
  cases after with
  | nil => exact ⟨entity, (List.isChain_cons_cons.mp hrest).1⟩
  | cons c after => exact ⟨c, (List.isChain_cons_cons.mp hrest).1⟩

end IsCircle

namespace WaitingGraph

variable {g : WaitingGraph} {start b c : String} {chain : List String}

/-! ## One circle -/

/-- A queued path leads from the start to its first bundle, kept backwards. It passes through no
    bundle twice, and all that it passes through was seen, apart from the start. -/
structure IsWay (g : WaitingGraph) (start : String) (seen : NameSet) (path : List String) :
    Prop where
  last : path.getLast? = some start
  waits : path.IsChain fun later earlier => g.Waits earlier later
  nodup : path.Nodup
  seen : ∀ b ∈ path, b = start ∨ b ∈ seen

namespace IsWay

variable {seen : NameSet} {path tail : List String}

theorem singleton (g : WaitingGraph) (start : String) (seen : NameSet) :
    g.IsWay start seen [start] where
  last := rfl
  waits := .singleton start
  nodup := List.nodup_singleton start
  seen := fun _ hb => .inl (List.mem_singleton.mp hb)

theorem mono (h : g.IsWay start seen path) (names : List String) :
    g.IsWay start (seen.insertAll names) path where
  last := h.last
  waits := h.waits
  nodup := h.nodup
  seen := fun b hb => (h.seen b hb).imp_right fun hseen => NameSet.mem_insertAll.mpr (.inr hseen)

/-- A bundle that was not seen makes a path longer. -/
theorem cons (h : g.IsWay start seen (b :: tail)) (hback : start ∉ g.next b)
    (hc : c ∈ g.fresh seen b) :
    g.IsWay start (seen.insertAll (g.fresh seen b)) (c :: b :: tail) := by
  obtain ⟨hwaits, hunseen⟩ := mem_fresh.mp hc
  have hne : c ≠ start := by
    rintro rfl
    exact hback hwaits
  refine ⟨?_, List.isChain_cons_cons.mpr ⟨hwaits, h.waits⟩, ?_, fun d hd => ?_⟩
  · rw [List.getLast?_cons_of_ne_nil (List.cons_ne_nil b tail), h.last]
  · -- what the path passes through was seen or is the start
    exact List.nodup_cons.mpr ⟨fun hmem => (h.seen c hmem).elim hne hunseen, h.nodup⟩
  · rcases List.mem_cons.mp hd with rfl | hd
    · exact .inr (NameSet.mem_insertAll.mpr (.inl hc))
    · exact (h.mono _).seen d hd

/-- A path whose first bundle waits on the start closes a circle. -/
theorem isCircle (h : g.IsWay start seen (b :: tail)) (hback : start ∈ g.next b) :
    IsCircle g.Waits start (start :: b :: tail).reverse := by
  obtain ⟨front, hfront⟩ : ∃ front, b :: tail = front ++ [start] :=
    List.getLast?_eq_some_iff.mp h.last
  have hnodup := h.nodup
  rw [hfront, List.nodup_append_comm] at hnodup
  refine ⟨⟨front.reverse, ?_, ?_⟩, ?_⟩
  · rw [List.nodup_cons, List.mem_reverse, List.nodup_reverse]
    exact List.nodup_cons.mp hnodup
  · rw [hfront]
    simp
  · rw [List.isChain_reverse]
    exact List.isChain_cons_cons.mpr ⟨hback, h.waits⟩

end IsWay

/-- What is found is a circle through the start. -/
theorem isCircle_of_search {fuel : Nat} {queue : List (List String)} {seen : NameSet}
    (h : search g start fuel queue seen = some chain)
    (hqueue : ∀ path ∈ queue, g.IsWay start seen path) : IsCircle g.Waits start chain := by
  induction fuel generalizing queue seen with
  | zero => cases h
  | succ fuel ih =>
    cases queue with
    | nil => cases h
    | cons path queue =>
      have hway := hqueue path (List.mem_cons_self ..)
      obtain ⟨b, tail, rfl⟩ : ∃ b tail, path = b :: tail := by
        cases path with
        | nil => cases hway.last
        | cons b tail => exact ⟨b, tail, rfl⟩
      rw [search_cons] at h
      by_cases hback : start ∈ g.next b
      · rw [if_pos hback] at h
        obtain rfl : (start :: b :: tail).reverse = chain := Option.some.inj h
        exact hway.isCircle hback
      · rw [if_neg hback] at h
        refine ih h fun other hother => ?_
        rcases List.mem_append.mp hother with hother | hother
        · exact (hqueue other (List.mem_cons_of_mem _ hother)).mono _
        · obtain ⟨c, hc, rfl⟩ := List.mem_map.mp hother
          exact hway.cons hback hc

theorem isCircle_of_cycleThrough (h : g.cycleThrough start = some chain) :
    IsCircle g.Waits start chain := by
  refine isCircle_of_search h fun path hpath => ?_
  rw [List.mem_singleton.mp hpath]
  exact .singleton g start ∅

/-! ## All circles -/

/-- One step of the search for circles. -/
def addCycle (g : WaitingGraph) : List (List String) × NameSet → String →
    List (List String) × NameSet
  | (found, used), start =>
    if start ∈ used then (found, used)
    else
      match g.cycleThrough start with
      | some chain =>
        if chain.any (fun bundle => decide (bundle ∈ used)) then (found, used)
        else (found ++ [chain], used.insertAll chain)
      | none => (found, used)

theorem cycles_eq_foldl (g : WaitingGraph) : g.cycles = (g.keys.foldl g.addCycle ([], ∅)).1 := rfl

/-- A step keeps a circle with nothing but new members, or it changes nothing. -/
theorem addCycle_cases (g : WaitingGraph) (found : List (List String)) (used : NameSet)
    (start : String) :
    g.addCycle (found, used) start = (found, used) ∨
      ∃ chain, g.cycleThrough start = some chain ∧ (∀ b ∈ chain, b ∉ used) ∧
        g.addCycle (found, used) start = (found ++ [chain], used.insertAll chain) := by
  rw [addCycle]
  split
  · exact .inl rfl
  · split
    · rename_i chain hchain
      split
      · exact .inl rfl
      · rename_i hnew
        exact .inr ⟨chain, hchain, by simpa using hnew, rfl⟩
    · exact .inl rfl

/-- What the circles found so far have in common: each was searched from one of the keys, their
    members are used, and no two of them share one. -/
structure Kept (g : WaitingGraph) (found : List (List String)) (used : NameSet) : Prop where
  circle : ∀ chain ∈ found, ∃ start ∈ g.keys, g.cycleThrough start = some chain
  used : ∀ chain ∈ found, ∀ b ∈ chain, b ∈ used
  disjoint : found.Pairwise List.Disjoint

theorem kept_cycles (g : WaitingGraph) : ∃ used, g.Kept g.cycles used := by
  have hfold : ∀ (keys : List String) (state : List (List String) × NameSet),
      (∀ key ∈ keys, key ∈ g.keys) → g.Kept state.1 state.2 →
        g.Kept (keys.foldl g.addCycle state).1 (keys.foldl g.addCycle state).2 := by
    intro keys
    induction keys with
    | nil => exact fun _ _ h => h
    | cons key keys ih =>
      rintro ⟨found, used⟩ hkeys h
      obtain ⟨hkey, hkeys⟩ := List.forall_mem_cons.mp hkeys
      rw [List.foldl_cons]
      apply ih _ hkeys
      rcases g.addCycle_cases found used key with heq | ⟨chain, hchain, hnew, heq⟩
      · rw [heq]
        exact h
      · rw [heq]
        refine ⟨fun other hother => ?_, fun other hother b hb => ?_, ?_⟩
        · rcases List.mem_append.mp hother with hother | hother
          · exact h.circle other hother
          · rw [List.mem_singleton.mp hother]
            exact ⟨key, hkey, hchain⟩
        · rw [NameSet.mem_insertAll]
          rcases List.mem_append.mp hother with hother | hother
          · exact .inr (h.used other hother b hb)
          · exact .inl (List.mem_singleton.mp hother ▸ hb)
        · -- the members of older circles are used, those of the new one are not
          refine List.pairwise_append.mpr ⟨h.disjoint, List.pairwise_singleton .., ?_⟩
          intro older holder other hother b hb hb'
          rw [List.mem_singleton.mp hother] at hb'
          exact hnew b hb' (h.used older holder b hb)
  rw [cycles_eq_foldl]
  refine ⟨_, hfold g.keys ([], ∅) (fun _ hkey => hkey) ?_⟩
  exact ⟨nofun, nofun, .nil⟩

theorem isCircle_of_mem_cycles (h : chain ∈ g.cycles) : ∃ start, IsCircle g.Waits start chain := by
  obtain ⟨used, hkept⟩ := g.kept_cycles
  obtain ⟨start, -, hchain⟩ := hkept.circle chain h
  exact ⟨start, isCircle_of_cycleThrough hchain⟩

/-- No bundle is on two circles. -/
theorem pairwise_disjoint_cycles (g : WaitingGraph) : g.cycles.Pairwise List.Disjoint := by
  obtain ⟨used, hkept⟩ := g.kept_cycles
  exact hkept.disjoint

theorem mem_keys_of_mem_cycles (h : chain ∈ g.cycles) (hb : b ∈ chain) : b ∈ g.keys := by
  obtain ⟨start, hcircle⟩ := isCircle_of_mem_cycles h
  obtain ⟨c, hwaits⟩ := hcircle.exists_leads hb
  exact mem_keys_of_waits hwaits

/-- A circle that is found has two different bundles of the graph in it. -/
theorem exists_pair_of_mem_cycles (hself : ∀ b, ¬ g.Waits b b) (h : chain ∈ g.cycles) :
    ∃ b ∈ chain, ∃ c ∈ chain, b ≠ c ∧ b ∈ g.keys ∧ c ∈ g.keys := by
  obtain ⟨start, hcircle⟩ := isCircle_of_mem_cycles h
  obtain ⟨inner, hinner, hnodup, rfl⟩ := hcircle.exists_inner_ne_nil hself
  obtain ⟨c, rest, rfl⟩ := List.exists_cons_of_ne_nil hinner
  have hne : start ≠ c := by
    rintro rfl
    exact (List.nodup_cons.mp hnodup).1 (List.mem_cons_self ..)
  have hmem : start ∈ start :: (c :: rest) ++ [start] ∧ c ∈ start :: (c :: rest) ++ [start] := by
    simp
  exact ⟨start, hmem.1, c, hmem.2, hne, mem_keys_of_mem_cycles h hmem.1,
    mem_keys_of_mem_cycles h hmem.2⟩

/-! ## Graphs with circles -/

theorem foldl_addCycle_ne_nil {keys : List String} {state : List (List String) × NameSet}
    (h : state.1 ≠ []) : (keys.foldl g.addCycle state).1 ≠ [] := by
  induction keys generalizing state with
  | nil => exact h
  | cons key keys ih =>
    apply ih
    obtain ⟨found, used⟩ := state
    rcases g.addCycle_cases found used key with heq | ⟨chain, -, -, heq⟩
    · rw [heq]
      exact h
    · rw [heq]
      simp

/-- Without circles no bundle leads back to itself. -/
theorem transGen_irrefl (h : g.cycles = []) {b : String} (hb : b ∈ g.keys) :
    ¬ Relation.TransGen g.Waits b b := by
  rw [cycles_eq_foldl] at h
  have hfold : ∀ keys : List String, (keys.foldl g.addCycle ([], ∅)).1 = [] →
      ∀ key ∈ keys, g.cycleThrough key = none := by
    intro keys
    induction keys with
    | nil => simp
    | cons key keys ih =>
      intro hnil
      rw [List.foldl_cons] at hnil
      cases hcycle : g.cycleThrough key with
      | some chain =>
        -- the first circle is always kept
        refine absurd hnil (foldl_addCycle_ne_nil ?_)
        simp [addCycle, hcycle]
      | none =>
        have hstate : g.addCycle ([], ∅) key = ([], ∅) := by simp [addCycle, hcycle]
        rw [hstate] at hnil
        intro other hother
        rcases List.mem_cons.mp hother with rfl | hother
        · exact hcycle
        · exact ih hnil other hother
  exact not_transGen_of_cycleThrough_eq_none (hfold _ h b hb)

/-- Where every bundle of the graph waits on another one of it, there is a circle. -/
theorem cycles_ne_nil (hkeys : g.keys ≠ [])
    (hwaits : ∀ b ∈ g.keys, ∃ c ∈ g.keys, g.Waits b c) : g.cycles ≠ [] := by
  intro hnone
  have hwf : WellFounded fun c b => b ∈ g.keys ∧ c ∈ g.keys ∧ g.Waits b c := by
    apply wellFounded_of_acyclic g.keys fun _ _ h => ⟨h.1, h.2.1⟩
    intro b hcircle
    obtain ⟨c, hfirst, -⟩ := Relation.TransGen.head'_iff.mp hcircle
    apply transGen_irrefl hnone hfirst.1
    exact hcircle.lift id fun _ _ h => h.2.2
  -- a bundle at the end of all waiting would wait on yet another one
  obtain ⟨b, hb⟩ := List.exists_mem_of_ne_nil _ hkeys
  obtain ⟨last, hlast, hend⟩ := hwf.has_min {b | b ∈ g.keys} ⟨b, hb⟩
  obtain ⟨c, hc, hwait⟩ := hwaits last hlast
  exact hend c hc ⟨hlast, hc, hwait⟩

end WaitingGraph

end Lineage
