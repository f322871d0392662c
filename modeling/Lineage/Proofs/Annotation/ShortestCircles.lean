import Lineage.Proofs.Annotation.Circles

/-!
# Shortest circles

The search for a circle works breadth first: the paths on its queue are in the order of their
lengths, and the longest has at most one bundle more than the shortest. Every way from the start
back to it therefore leaves what was taken off the queue at a bundle that heads a path on it, and
that path is no longer than the way up to there. So the first path that comes back is a shortest
one.

## Main definitions

- `IsShortestCircle`: a circle that no way back to its first bundle undercuts
- `WaitingGraph.Layered` is the invariant of the search

## Main statements

- `WaitingGraph.isShortestCircle_of_cycleThrough`: what the search finds
- `WaitingGraph.exists_cycleThrough_iff`: through which bundles it finds a circle
- `WaitingGraph.heads_cycles_sublist`: in which order circles are found
- `WaitingGraph.cycles_eq_nil_iff`: in which graphs it finds none
-/

namespace Lineage

/-- A circle such that no way from its first bundle back to it is shorter, not even one that passes
    through a bundle twice. -/
structure IsShortestCircle (leads : String → String → Prop) (entity : String)
    (chain : List String) : Prop where
  isCircle : IsCircle leads entity chain
  length_le : ∀ way, (entity :: way ++ [entity]).IsChain leads → chain.length ≤ way.length + 2

/-- A chain leads from its first member to its last one. -/
theorem transGen_of_isChain {leads : String → String → Prop} {b c : String} {inner : List String}
    (h : (b :: inner ++ [c]).IsChain leads) : Relation.TransGen leads b c := by
  induction inner generalizing b with
  | nil => exact .single (List.isChain_cons_cons.mp h).1
  | cons d inner ih =>
    obtain ⟨hfirst, hrest⟩ := List.isChain_cons_cons.mp h
    exact (ih hrest).head hfirst

theorem IsCircle.transGen {leads : String → String → Prop} {entity : String} {chain : List String}
    (h : IsCircle leads entity chain) : Relation.TransGen leads entity entity := by
  obtain ⟨inner, -, rfl⟩ := h.exists_inner
  exact transGen_of_isChain h.leads

namespace WaitingGraph

variable {g : WaitingGraph} {start b c : String} {chain : List String}

/-! ## The layers of the search -/

/-- A bundle that the search reached by a path of some length. It was taken off the queue, or it
    heads a path on it. -/
def Reached (done : String → Nat → Prop) (queue : List (List String)) (b : String) (n : Nat) :
    Prop :=
  done b n ∨ ∃ path ∈ queue, path.head? = some b ∧ path.length = n

/-- Where a breadth-first search stands, given the bundles that were taken off the queue with the
    lengths of their paths. What such a bundle waits on was reached by a path that is longer by at
    most one. -/
structure Layered (g : WaitingGraph) (start : String) (done : String → Nat → Prop)
    (queue : List (List String)) (seen : NameSet) : Prop where
  searched : g.Searched start (fun b => ∃ n, done b n) queue seen
  spread : queue.Pairwise fun path later =>
    path.length ≤ later.length ∧ later.length ≤ path.length + 1
  done_le : ∀ b n, done b n → ∀ path ∈ queue, n ≤ path.length
  closer : ∀ b n, done b n → ∀ c, g.Waits b c → ∃ k ≤ n + 1, Reached done queue c k

/-- At first only the path without a step is queued. -/
theorem layered_start (g : WaitingGraph) (start : String) :
    g.Layered start (fun _ _ => False) [[start]] ∅ where
  searched := by
    refine ⟨fun path hpath => ?_, fun _ ⟨_, hb⟩ => hb.elim, fun c hc => ?_⟩
    · rw [List.mem_singleton.mp hpath]
      exact List.cons_ne_nil start []
    · exact absurd hc (NameSet.notMem_empty c)
  spread := List.pairwise_singleton ..
  done_le := fun _ _ hb => hb.elim
  closer := fun _ _ hb => hb.elim

section Step

variable {done : String → Nat → Prop} {tail : List String} {queue : List (List String)}
  {seen : NameSet}

/-- The bundles taken off the queue after one more step. -/
def alsoDone (done : String → Nat → Prop) (path : List String) (b : String) (n : Nat) : Prop :=
  done b n ∨ path.head? = some b ∧ path.length = n

/-- A step forgets nothing that was reached. -/
theorem Reached.step {path : List String} {n : Nat} (h : Reached done (path :: queue) b n)
    (added : List (List String)) : Reached (alsoDone done path) (queue ++ added) b n := by
  rcases h with hdone | ⟨other, hother, hhead, hlength⟩
  · exact .inl (.inl hdone)
  · rcases List.mem_cons.mp hother with rfl | hother
    · exact .inl (.inr ⟨hhead, hlength⟩)
    · exact .inr ⟨other, List.mem_append_left _ hother, hhead, hlength⟩

/-- All paths on the queue are as long as the first one or longer by one. -/
theorem Layered.length_le {path other : List String}
    (h : g.Layered start done (path :: queue) seen) (hother : other ∈ path :: queue) :
    path.length ≤ other.length ∧ other.length ≤ path.length + 1 := by
  rcases List.mem_cons.mp hother with rfl | hother
  · omega
  · exact (List.pairwise_cons.mp h.spread).1 other hother

/-- Everything that was seen was reached by a path that is longer than the first one on the queue by
    at most one. -/
theorem Layered.exists_reached (h : g.Layered start done ((b :: tail) :: queue) seen)
    (hc : c ∈ seen) : ∃ k ≤ (b :: tail).length + 1, Reached done ((b :: tail) :: queue) c k := by
  rcases h.searched.queued c hc with ⟨n, hdone⟩ | ⟨path, hpath, hhead⟩
  · have hle := h.done_le c n hdone (b :: tail) (List.mem_cons_self ..)
    exact ⟨n, Nat.le_succ_of_le hle, .inl hdone⟩
  · exact ⟨path.length, (h.length_le hpath).2, .inr ⟨path, hpath, hhead, rfl⟩⟩

/-- A step that does not come back to the start keeps the layers. -/
theorem Layered.step (h : g.Layered start done ((b :: tail) :: queue) seen)
    (hback : start ∉ g.next b) :
    g.Layered start (alsoDone done (b :: tail)) (queue ++ (g.fresh seen b).map (· :: b :: tail))
      (seen.insertAll (g.fresh seen b)) := by
  -- the new paths are longer by one than the path that they go on from
  have hnew : ∀ path ∈ (g.fresh seen b).map (· :: b :: tail),
      path.length = (b :: tail).length + 1 := by
    intro path hpath
    obtain ⟨c, -, rfl⟩ := List.mem_map.mp hpath
    rfl
  have hfirst : ∀ path ∈ queue ++ (g.fresh seen b).map (· :: b :: tail),
      (b :: tail).length ≤ path.length := by
    intro path hpath
    rcases List.mem_append.mp hpath with hold | hadded
    · exact (h.length_le (List.mem_cons_of_mem _ hold)).1
    · rw [hnew path hadded]
      exact Nat.le_succ _
  constructor
  case searched =>
    have hdone : (fun c => ∃ n, alsoDone done (b :: tail) c n)
        = fun c => (∃ n, done c n) ∨ c = b := by
      funext c
      simp [alsoDone, exists_or, eq_comm]
    rw [hdone]
    exact h.searched.step hback
  case spread =>
    refine List.pairwise_append.mpr ⟨(List.pairwise_cons.mp h.spread).2, ?_, ?_⟩
    · apply List.pairwise_of_forall_mem_list
      intro path hpath later hlater
      rw [hnew path hpath, hnew later hlater]
      omega
    · intro path hpath later hlater
      have hle := h.length_le (List.mem_cons_of_mem _ hpath)
      rw [hnew later hlater]
      omega
  case done_le =>
    rintro c n (hdone | ⟨-, rfl⟩) path hpath
    · exact (h.done_le c n hdone _ (List.mem_cons_self ..)).trans (hfirst path hpath)
    · exact hfirst path hpath
  case closer =>
    rintro c n (hdone | ⟨hhead, rfl⟩) d hd
    · obtain ⟨k, hk, hreached⟩ := h.closer c n hdone d hd
      exact ⟨k, hk, hreached.step _⟩
    · obtain rfl : b = c := Option.some.inj hhead
      by_cases hseen : d ∈ seen
      · obtain ⟨k, hk, hreached⟩ := h.exists_reached hseen
        exact ⟨k, hk, hreached.step _⟩
      · -- what was not seen is queued now
        have hqueued : d :: b :: tail ∈ (g.fresh seen b).map (· :: b :: tail) :=
          List.mem_map_of_mem (mem_fresh.mpr ⟨hd, hseen⟩)
        exact ⟨_, Nat.le_refl _, .inr ⟨_, List.mem_append_right _ hqueued, rfl, rfl⟩⟩

/-! ## What the search finds -/

/-- From what was reached every way to the start meets the queue, at a path that is no longer than
    the way up to there. -/
theorem Layered.exists_path {n : Nat} {way : List String}
    (h : g.Layered start done queue seen) (hb : Reached done queue b n)
    (hway : (b :: way ++ [start]).IsChain g.Waits) :
    ∃ path ∈ queue, path.length ≤ n + way.length := by
  induction way generalizing b n with
  | nil =>
    rcases hb with hdone | ⟨path, hpath, -, hlength⟩
    · -- nothing that was taken off the queue waits on the start
      have hlast : g.Waits b start := (List.isChain_cons_cons.mp hway).1
      exact absurd hlast (h.searched.waits b ⟨n, hdone⟩).1
    · exact ⟨path, hpath, Nat.le_of_eq hlength⟩
  | cons c way ih =>
    rcases hb with hdone | ⟨path, hpath, -, hlength⟩
    · obtain ⟨hfirst, hrest⟩ := List.isChain_cons_cons.mp hway
      obtain ⟨k, hk, hc⟩ := h.closer b n hdone c hfirst
      obtain ⟨path, hpath, hle⟩ := ih hc hrest
      refine ⟨path, hpath, ?_⟩
      rw [List.length_cons]
      omega
    · exact ⟨path, hpath, hlength ▸ Nat.le_add_right _ _⟩

/-- What is found is no longer than any way from the start back to it. -/
theorem Layered.length_le_of_search {fuel n : Nat} {way : List String}
    (h : g.Layered start done queue seen) (hstart : Reached done queue start n)
    (hfound : search g start fuel queue seen = some chain)
    (hway : (start :: way ++ [start]).IsChain g.Waits) : chain.length ≤ n + way.length + 1 := by
  induction fuel generalizing done queue seen with
  | zero => cases hfound
  | succ fuel ih =>
    cases queue with
    | nil => cases hfound
    | cons path queue =>
      obtain ⟨b, tail, rfl⟩ :=
        List.exists_cons_of_ne_nil (h.searched.paths path (List.mem_cons_self ..))
      rw [search_cons] at hfound
      by_cases hback : start ∈ g.next b
      · rw [if_pos hback] at hfound
        obtain rfl : (start :: b :: tail).reverse = chain := Option.some.inj hfound
        -- the path that comes back is the first one, so it is as short as any on the queue
        obtain ⟨other, hother, hle⟩ := h.exists_path hstart hway
        have hfirst := (h.length_le hother).1
        rw [List.length_reverse, List.length_cons]
        omega
      · rw [if_neg hback] at hfound
        exact ih (h.step hback) (hstart.step _) hfound

end Step

theorem isShortestCircle_of_cycleThrough (h : g.cycleThrough start = some chain) :
    IsShortestCircle g.Waits start chain where
  isCircle := isCircle_of_cycleThrough h
  length_le := by
    intro way hway
    have hstart : Reached (fun _ _ => False) [[start]] start 1 :=
      .inr ⟨[start], List.mem_singleton.mpr rfl, rfl, rfl⟩
    have hle := (layered_start g start).length_le_of_search hstart h hway
    omega

/-- A circle is found through every bundle that lies on one. -/
theorem exists_cycleThrough_iff :
    (∃ chain, g.cycleThrough start = some chain) ↔ Relation.TransGen g.Waits start start := by
  constructor
  · rintro ⟨chain, hchain⟩
    exact (isCircle_of_cycleThrough hchain).transGen
  · intro hcircle
    cases hsearch : g.cycleThrough start with
    | none => exact absurd hcircle (not_transGen_of_cycleThrough_eq_none hsearch)
    | some chain => exact ⟨chain, rfl⟩

/-! ## All circles -/

theorem isShortestCircle_of_mem_cycles (h : chain ∈ g.cycles) :
    ∃ entity, IsShortestCircle g.Waits entity chain := by
  obtain ⟨used, hkept⟩ := g.kept_cycles
  obtain ⟨entity, -, hchain⟩ := hkept.circle chain h
  exact ⟨entity, isShortestCircle_of_cycleThrough hchain⟩

/-- Circles are found in the order of the bundles that they were searched from. -/
theorem heads_cycles_sublist (g : WaitingGraph) :
    (g.cycles.filterMap List.head?).Sublist g.keys := by
  have hfold : ∀ (keys : List String) (state : List (List String) × NameSet),
      ∃ heads, heads.Sublist keys ∧
        (keys.foldl g.addCycle state).1.filterMap List.head?
          = state.1.filterMap List.head? ++ heads := by
    intro keys
    induction keys with
    | nil => exact fun state => ⟨[], .slnil, (List.append_nil _).symm⟩
    | cons key keys ih =>
      rintro ⟨found, used⟩
      rw [List.foldl_cons]
      rcases g.addCycle_cases found used key with heq | ⟨chain, hchain, -, heq⟩
      · rw [heq]
        obtain ⟨heads, hheads, hfound⟩ := ih (found, used)
        exact ⟨heads, hheads.cons key, hfound⟩
      · rw [heq]
        obtain ⟨heads, hheads, hfound⟩ := ih (found ++ [chain], used.insertAll chain)
        refine ⟨key :: heads, hheads.cons_cons key, ?_⟩
        rw [hfound, List.filterMap_append, List.append_assoc]
        -- the circle that was found starts with the key
        simp [(isCircle_of_cycleThrough hchain).head?_eq]
  obtain ⟨heads, hheads, hfound⟩ := hfold g.keys ([], ∅)
  rw [cycles_eq_foldl, hfound]
  exact hheads

theorem pairwise_heads_cycles (g : WaitingGraph) :
    (g.cycles.filterMap List.head?).Pairwise (· < ·) :=
  g.ascending.sublist g.heads_cycles_sublist

/-- Circles are found unless there are none. -/
theorem cycles_eq_nil_iff : g.cycles = [] ↔ ∀ b, ¬ Relation.TransGen g.Waits b b := by
  constructor
  · intro hnone b hcircle
    obtain ⟨c, hfirst, -⟩ := Relation.TransGen.head'_iff.mp hcircle
    exact transGen_irrefl hnone (mem_keys_of_waits hfirst) hcircle
  · intro hacyclic
    rw [List.eq_nil_iff_forall_not_mem]
    intro chain hchain
    obtain ⟨entity, hcircle⟩ := isCircle_of_mem_cycles hchain
    exact hacyclic entity hcircle.transGen

end WaitingGraph

end Lineage
