import Lineage.Annotation.Cycles
import Lineage.Proofs.Data.Names
import Mathlib.Data.Fintype.Card
import Mathlib.Data.Fintype.EquivFin
import Mathlib.Data.Fintype.Sets
import Mathlib.Data.List.Chain
import Mathlib.Order.WellFounded

/-!
# Bundles that wait on each other

Bundles wait on bundles as the deferred sites say. The search for a circle through a bundle is
complete: it fails only if no chain of waiting bundles leads back.

## Main statements

- `WaitingGraph.not_transGen_of_cycleThrough_eq_none`: a failed search leaves no circle
- `WaitingGraph.waits_ofBlocked`: who waits on whom in the graph of deferred sites
-/

namespace Lineage

/-- Following a relation between members of a list, one comes to an end if nothing leads back. -/
theorem wellFounded_of_acyclic {α : Type} [DecidableEq α] {r : α → α → Prop} (members : List α)
    (hmembers : ∀ x y, r x y → x ∈ members ∧ y ∈ members)
    (hacyclic : ∀ x, ¬ Relation.TransGen r x x) : WellFounded fun y x => r x y := by
  -- on the members, of which there are finitely many, chains make a strict order
  let After : {x // x ∈ members} → {x // x ∈ members} → Prop :=
    fun y x => Relation.TransGen r x.1 y.1
  have hfinite : Finite {x // x ∈ members} := inferInstance
  have htrans : IsTrans _ After := ⟨fun _ _ _ hxy hyz => hyz.trans hxy⟩
  have hirrefl : Std.Irrefl After := ⟨fun x => hacyclic x.1⟩
  have hwf : WellFounded After := Finite.wellFounded_of_trans_of_irrefl After
  have hacc : ∀ x : {x // x ∈ members}, Acc (fun y x => r x y) x.1 := by
    intro x
    induction x using hwf.induction with
    | _ x ih =>
      refine Acc.intro _ fun y hy => ?_
      exact ih ⟨y, (hmembers _ _ hy).2⟩ (.single hy)
  -- everything else leads nowhere
  refine ⟨fun x => Acc.intro _ fun y hy => ?_⟩
  exact hacc ⟨y, (hmembers _ _ hy).2⟩

namespace WaitingGraph

/-- Whether a bundle waits on another one. -/
def Waits (g : WaitingGraph) (bundle other : String) : Prop := other ∈ g.next bundle

variable {g : WaitingGraph} {start : String}

theorem mem_keys_of_waits {b c : String} (h : g.Waits b c) : b ∈ g.keys := by
  rw [NameMap.mem_keys_iff]
  cases hget : g.get? b with
  | none => simp [Waits, next, hget] at h
  | some set => exact ⟨set, rfl⟩

/-! ## The search finds what there is -/

/-- Everything that somebody waits on. -/
def awaited (g : WaitingGraph) : List String := g.values.flatMap NameSet.toList

theorem mem_awaited {b c : String} (h : g.Waits b c) : c ∈ g.awaited := by
  cases hget : g.get? b with
  | none => simp [Waits, next, hget] at h
  | some set =>
    have hc : c ∈ set := by simpa [Waits, next, hget] using h
    exact List.mem_flatMap.mpr ⟨set, NameMap.mem_values_of_get? hget, hc⟩

/-- What a step of the search from a bundle queues. -/
def fresh (g : WaitingGraph) (seen : NameSet) (b : String) : List String :=
  (g.next b).toList.filter (· ∉ seen)

theorem mem_fresh {seen : NameSet} {b c : String} :
    c ∈ g.fresh seen b ↔ g.Waits b c ∧ c ∉ seen := by
  rw [fresh, List.mem_filter, decide_eq_true_iff]
  exact Iff.rfl

/-- What a step of the search queues is not counted any more. -/
theorem length_fresh_add (seen : NameSet) (b : String) :
    (g.fresh seen b).length + (g.awaited.filter (· ∉ seen.insertAll (g.fresh seen b))).length
      ≤ (g.awaited.filter (· ∉ seen)).length := by
  -- the unseen awaited bundles are those that are queued now and those that stay unseen
  have hsplit : (g.awaited.filter (· ∉ seen)).length
      = ((g.awaited.filter (· ∉ seen)).filter (· ∈ g.fresh seen b)).length
        + ((g.awaited.filter (· ∉ seen)).filter fun c => !decide (c ∈ g.fresh seen b)).length :=
    List.length_eq_length_filter_add _
  have hqueued : (g.fresh seen b).length
      ≤ ((g.awaited.filter (· ∉ seen)).filter (· ∈ g.fresh seen b)).length := by
    apply ((NameSet.nodup_toList (g.next b)).filter _).length_le_of_subset
    intro c hc
    obtain ⟨hwaits, hunseen⟩ := mem_fresh.mp hc
    have hfresh : c ∈ g.fresh seen b := hc
    simp [hfresh, mem_awaited hwaits, hunseen]
  have hrest : (g.awaited.filter (· ∉ seen)).filter (fun c => !decide (c ∈ g.fresh seen b))
      = g.awaited.filter (· ∉ seen.insertAll (g.fresh seen b)) := by
    rw [List.filter_filter]
    refine List.filter_congr fun c _ => ?_
    simp
  rw [hrest] at hsplit
  omega

/-- At first the fuel covers the queue and everything that may be queued. -/
theorem length_start_le (g : WaitingGraph) (start : String) :
    [[start]].length + (g.awaited.filter (· ∉ (∅ : NameSet))).length
      ≤ (g.values.flatMap NameSet.toList).length + 1 := by
  have hle : (g.awaited.filter (· ∉ (∅ : NameSet))).length ≤ g.awaited.length :=
    List.length_filter_le ..
  simp only [List.length_singleton]
  rw [awaited] at hle ⊢
  omega

/-- A step of the search uses up one unit of fuel and leaves what is needed for the rest: every
    bundle that is queued is counted once among the awaited ones. -/
theorem length_queue_le {fuel : Nat} {b : String} {tail : List String} {queue : List (List String)}
    {seen : NameSet}
    (h : ((b :: tail) :: queue).length + (g.awaited.filter (· ∉ seen)).length ≤ fuel + 1) :
    (queue ++ (g.fresh seen b).map (· :: b :: tail)).length
      + (g.awaited.filter (· ∉ seen.insertAll (g.fresh seen b))).length ≤ fuel := by
  have hcount := length_fresh_add (g := g) seen b
  simp only [List.length_append, List.length_map, List.length_cons] at h ⊢
  omega

theorem search_cons {fuel : Nat} {b : String} {tail : List String} {queue : List (List String)}
    {seen : NameSet} :
    search g start (fuel + 1) ((b :: tail) :: queue) seen
      = if start ∈ g.next b then some (start :: b :: tail).reverse
        else
          search g start fuel (queue ++ (g.fresh seen b).map (· :: b :: tail))
            (seen.insertAll (g.fresh seen b)) := rfl

/-- Where a search stands that has not come back to the start: what was taken off the queue waits
    only on what was seen, and what was seen was taken off the queue or heads a path on it. -/
structure Searched (g : WaitingGraph) (start : String) (done : String → Prop)
    (queue : List (List String)) (seen : NameSet) : Prop where
  paths : ∀ path ∈ queue, path ≠ []
  waits : ∀ b, done b → ¬ g.Waits b start ∧ ∀ c, g.Waits b c → c ∈ seen
  queued : ∀ c ∈ seen, done c ∨ ∃ path ∈ queue, path.head? = some c

namespace Searched

variable {done : String → Prop} {queue : List (List String)} {seen : NameSet}

/-- With nothing on the queue, what was taken off is closed under waiting. -/
theorem closed (h : g.Searched start done [] seen) {b : String} (hb : done b) :
    ¬ g.Waits b start ∧ ∀ c, g.Waits b c → done c := by
  refine ⟨(h.waits b hb).1, fun c hc => ?_⟩
  rcases h.queued c ((h.waits b hb).2 c hc) with hdone | ⟨path, hpath, -⟩
  · exact hdone
  · cases hpath

/-- A step takes the head of the first path off the queue and queues what it waits on. -/
theorem step {b : String} {tail : List String}
    (h : g.Searched start done ((b :: tail) :: queue) seen) (hback : start ∉ g.next b) :
    g.Searched start (fun c => done c ∨ c = b) (queue ++ (g.fresh seen b).map (· :: b :: tail))
      (seen.insertAll (g.fresh seen b)) where
  paths := by
    intro path hpath
    rcases List.mem_append.mp hpath with hold | hnew
    · exact h.paths path (List.mem_cons_of_mem _ hold)
    · obtain ⟨c, -, rfl⟩ := List.mem_map.mp hnew
      exact List.cons_ne_nil c _
  waits := by
    rintro c (hc | rfl)
    · refine ⟨(h.waits c hc).1, fun other hother => ?_⟩
      rw [NameSet.mem_insertAll]
      exact .inr ((h.waits c hc).2 other hother)
    · -- what it waits on was seen before or is fresh
      refine ⟨hback, fun other hother => ?_⟩
      rw [NameSet.mem_insertAll, mem_fresh]
      by_cases hseen : other ∈ seen
      · exact .inr hseen
      · exact .inl ⟨hother, hseen⟩
  queued := by
    intro c hc
    rcases NameSet.mem_insertAll.mp hc with hfresh | hold
    · exact .inr ⟨c :: b :: tail, List.mem_append_right _ (List.mem_map_of_mem hfresh), rfl⟩
    · rcases h.queued c hold with hdone | ⟨path, hpath, hhead⟩
      · exact .inl (.inl hdone)
      · rcases List.mem_cons.mp hpath with rfl | hpath
        · exact .inl (.inr (Option.some.inj hhead).symm)
        · exact .inr ⟨path, List.mem_append_left _ hpath, hhead⟩

end Searched

/-- If the search fails, then everything queued lies in a set that is closed under waiting and in
    which nobody waits on the start. -/
theorem exists_closed_of_search_eq_none {fuel : Nat} {queue : List (List String)} {seen : NameSet}
    {done : String → Prop} (h : search g start fuel queue seen = none)
    (hfuel : queue.length + (g.awaited.filter (· ∉ seen)).length ≤ fuel)
    (hsearched : g.Searched start done queue seen) :
    ∃ closed : String → Prop, (∀ b, done b → closed b) ∧
      (∀ path ∈ queue, ∀ b, path.head? = some b → closed b) ∧
      ∀ b, closed b → ¬ g.Waits b start ∧ ∀ c, g.Waits b c → closed c := by
  induction fuel generalizing queue seen done with
  | zero =>
    -- without fuel there is nothing on the queue
    obtain rfl : queue = [] := List.length_eq_zero_iff.mp (by omega)
    exact ⟨done, fun b hb => hb, nofun, fun b hb => hsearched.closed hb⟩
  | succ fuel ih =>
    cases queue with
    | nil => exact ⟨done, fun b hb => hb, nofun, fun b hb => hsearched.closed hb⟩
    | cons path queue =>
      obtain ⟨b, tail, rfl⟩ :=
        List.exists_cons_of_ne_nil (hsearched.paths path (List.mem_cons_self ..))
      rw [search_cons] at h
      by_cases hback : start ∈ g.next b
      · rw [if_pos hback] at h
        cases h
      · rw [if_neg hback] at h
        obtain ⟨closed, hold, hqueued, hclosed⟩ :=
          ih h (length_queue_le hfuel) (hsearched.step hback)
        refine ⟨closed, fun c hc => hold c (.inl hc), fun other hother c hhead => ?_, hclosed⟩
        rcases List.mem_cons.mp hother with rfl | hother
        · exact hold c (.inr (Option.some.inj hhead).symm)
        · exact hqueued other (List.mem_append_left _ hother) c hhead

/-- A failed search leaves no way back to the start. -/
theorem not_transGen_of_cycleThrough_eq_none (h : g.cycleThrough start = none) :
    ¬ Relation.TransGen g.Waits start start := by
  -- nothing is done at first
  have hsearched : g.Searched start (fun _ => False) [[start]] ∅ := by
    refine ⟨fun path hpath => ?_, fun _ hb => hb.elim, fun c hc => ?_⟩
    · rw [List.mem_singleton.mp hpath]
      exact List.cons_ne_nil start []
    · exact absurd hc (NameSet.notMem_empty c)
  obtain ⟨closed, -, hqueued, hclosed⟩ := exists_closed_of_search_eq_none h
    (g.length_start_le start) hsearched
  have hstart : closed start := hqueued [start] (List.mem_singleton.mpr rfl) start rfl
  intro hcycle
  -- the last step of the circle starts in the closed set
  have hreach : ∀ b, Relation.ReflTransGen g.Waits start b → closed b := by
    intro b hb
    induction hb with
    | refl => exact hstart
    | tail _ hstep ih => exact (hclosed _ ih).2 _ hstep
  obtain ⟨b, hb, hlast⟩ := Relation.TransGen.tail'_iff.mp hcycle
  exact (hclosed b (hreach b hb)).1 hlast

/-! ## The graph of deferred sites -/

variable {blocked : List BlockedSite} {released : NameSet}

/-- Adds what a site waits on. -/
def addSite (g : WaitingGraph) (site : BlockedSite) : WaitingGraph :=
  g.modifyD site.bundle ∅ (·.insertAll site.waitingOn)

theorem ofBlocked_eq_foldl : ofBlocked blocked released
    = (blocked.filter fun site => !decide (site.bundle ∈ released)).foldl addSite ∅ := rfl

theorem waits_addSite {site : BlockedSite} {b c : String} :
    (g.addSite site).Waits b c ↔ g.Waits b c ∨ site.bundle = b ∧ c ∈ site.waitingOn := by
  by_cases hb : b = site.bundle
  · subst hb
    simp only [Waits, next, addSite, NameMap.get?_modifyD, if_true, Option.getD_some,
      NameSet.mem_insertAll, true_and]
    exact or_comm
  · simp [Waits, next, addSite, NameMap.get?_modifyD, hb, Ne.symm hb]

theorem mem_keys_addSite {site : BlockedSite} {b : String} :
    b ∈ (g.addSite site).keys ↔ b ∈ g.keys ∨ site.bundle = b := by
  rw [NameMap.mem_keys_iff, NameMap.mem_keys_iff]
  by_cases hb : b = site.bundle
  · simp [addSite, NameMap.get?_modifyD, hb]
  · simp [addSite, NameMap.get?_modifyD, hb, Ne.symm hb]

/-- What each site may add to a graph is there if it was or if one of the sites adds it. -/
theorem foldl_addSite_iff {P : WaitingGraph → Prop} {Q : BlockedSite → Prop}
    (hadd : ∀ (g : WaitingGraph) site, P (g.addSite site) ↔ P g ∨ Q site)
    (sites : List BlockedSite) (g : WaitingGraph) :
    P (sites.foldl addSite g) ↔ P g ∨ ∃ site ∈ sites, Q site := by
  induction sites generalizing g with
  | nil => simp
  | cons site rest ih =>
    rw [List.foldl_cons, ih, hadd, or_assoc]
    simp

theorem waits_ofBlocked {b c : String} :
    (ofBlocked blocked released).Waits b c ↔
      ∃ site ∈ blocked, site.bundle = b ∧ b ∉ released ∧ c ∈ site.waitingOn := by
  have hfold := foldl_addSite_iff (P := fun g => g.Waits b c) fun _ _ => waits_addSite
  rw [ofBlocked_eq_foldl, hfold]
  constructor
  · rintro (h | ⟨site, hsite, rfl, hc⟩)
    · simp [Waits, next] at h
    · obtain ⟨hsite, hreleased⟩ := List.mem_filter.mp hsite
      exact ⟨site, hsite, rfl, by simpa using hreleased, hc⟩
  · rintro ⟨site, hsite, rfl, hreleased, hc⟩
    exact .inr ⟨site, List.mem_filter.mpr ⟨hsite, by simpa using hreleased⟩, rfl, hc⟩

theorem mem_keys_ofBlocked {b : String} :
    b ∈ (ofBlocked blocked released).keys ↔ ∃ site ∈ blocked, site.bundle = b ∧ b ∉ released := by
  have hfold := foldl_addSite_iff (P := fun g => b ∈ g.keys) fun _ _ => mem_keys_addSite
  have hempty : b ∉ (∅ : WaitingGraph).keys := by
    intro h
    cases h
  rw [ofBlocked_eq_foldl, hfold]
  constructor
  · rintro (h | ⟨site, hsite, rfl⟩)
    · exact absurd h hempty
    · obtain ⟨hsite, hreleased⟩ := List.mem_filter.mp hsite
      exact ⟨site, hsite, rfl, by simpa using hreleased⟩
  · rintro ⟨site, hsite, rfl, hreleased⟩
    exact .inr ⟨site, List.mem_filter.mpr ⟨hsite, by simpa using hreleased⟩, rfl⟩

end WaitingGraph

end Lineage
