import Lineage.Proofs.Annotation.ShortestCircles
import Mathlib.Data.List.TakeWhile

/-!
# Searching by predecessors

The paths on the queue of a search need not be kept. It is enough to queue bundles and to note for
each one where it was first reached from: the path is the way back through these predecessors. As
the start is never reached from anywhere, the way back ends there and nowhere else.

## Main definitions

- `Predecessors.WayBack` is the way from a bundle back through predecessors
- `WaitingGraph.Finds` is a search that notes predecessors, without any bound on its steps

## Main statements

- `WaitingGraph.exists_finds`: such a search ends, and with what the search by paths finds
- `WaitingGraph.Finds.unique`: there is one way in which it ends
- `WaitingGraph.cycles_exact`: what is found in the graph of deferred sites
-/

namespace Lineage

/-! ## Predecessors -/

/-- The bundle from which each bundle was first reached. -/
abbrev Predecessors := NameMap String

namespace Predecessors

variable {prev : Predecessors} {b c d : String} {way reached : List String}

/-- Notes that some bundles were reached from a bundle, unless they were reached before. -/
def note (prev : Predecessors) (b : String) (reached : List String) : Predecessors :=
  reached.foldl (fun prev c => prev.insertNew c b) prev

theorem get?_note :
    (prev.note b reached).get? c = (prev.get? c).or (if c ∈ reached then some b else none) :=
  NameMap.get?_foldl_insertNew reached

theorem get?_note_of_get? (h : prev.get? c = some d) (b : String) (reached : List String) :
    (prev.note b reached).get? c = some d := by
  rw [get?_note, h, Option.some_or]

theorem contains_note :
    (prev.note b reached).contains c = true ↔ prev.contains c = true ∨ c ∈ reached := by
  rw [NameMap.contains, get?_note, NameMap.contains]
  cases prev.get? c <;> simp

/-- The way from a bundle to its predecessor and so on, up to a bundle that has none. -/
inductive WayBack (prev : Predecessors) : String → List String → Prop where
  | stop {b : String} (last : prev.get? b = none) : WayBack prev b [b]
  | step {b c : String} {way : List String} (before : prev.get? b = some c)
      (rest : WayBack prev c way) : WayBack prev b (b :: way)

/-- More predecessors do not change a way back, unless its last bundle gets one. -/
theorem WayBack.note {start : String} (h : prev.WayBack b way) (hlast : way.getLast? = some start)
    (hstart : prev.get? start = none) (hreached : start ∉ reached) :
    (prev.note c reached).WayBack b way := by
  induction h with
  | @stop b _ =>
    obtain rfl : b = start := Option.some.inj hlast
    refine .stop ?_
    rw [get?_note, hstart, if_neg hreached]
    rfl
  | @step b d way before rest ih =>
    have hne : way ≠ [] := by
      cases rest <;> simp
    rw [List.getLast?_cons_of_ne_nil hne] at hlast
    exact .step (get?_note_of_get? before c reached) (ih hlast)

end Predecessors

namespace WaitingGraph

variable {g : WaitingGraph} {start b : String}

/-! ## The search -/

/-- A search for a way back to `start` with a queue of bundles. It takes the first bundle off the
    queue and looks at the bundles that this one waits on, in ascending order. Those that were not
    reached before are noted and queued. The search ends as soon as the start is among them, with
    the predecessors noted so far and the bundle that waits on the start, or with an empty queue. -/
inductive Finds (g : WaitingGraph) (start : String) :
    List String → Predecessors → Option (Predecessors × String) → Prop where
  | exhausted (prev : Predecessors) : Finds g start [] prev none
  | found {b : String} {queue : List String} {prev : Predecessors} (back : start ∈ g.next b) :
      Finds g start (b :: queue) prev
        (some (prev.note b ((g.next b).toList.takeWhile (· ≠ start)), b))
  | step {b : String} {queue : List String} {prev : Predecessors}
      {outcome : Option (Predecessors × String)} (on : start ∉ g.next b)
      (rest : Finds g start (queue ++ (g.next b).toList.filter fun c => !prev.contains c)
        (prev.note b (g.next b).toList) outcome) :
      Finds g start (b :: queue) prev outcome

/-- A search ends in one way only. -/
theorem Finds.unique {queue : List String} {prev : Predecessors}
    {outcome outcome' : Option (Predecessors × String)} (h : g.Finds start queue prev outcome)
    (h' : g.Finds start queue prev outcome') : outcome = outcome' := by
  induction h with
  | exhausted =>
    cases h'
    rfl
  | found back =>
    cases h' with
    | found => rfl
    | step on => exact absurd back on
  | step on _ ih =>
    cases h' with
    | found back => exact absurd back on
    | step _ rest => exact ih rest

/-! ## Paths and ways back -/

/-- Where both searches stand at the same place: the bundles on one queue head the paths on the
    other one, and each of these paths is the way back from its head to the start. -/
structure Mirrors (start : String) (paths : List (List String)) (seen : NameSet)
    (queue : List String) (prev : Predecessors) : Prop where
  heads : paths.map List.head? = queue.map some
  seen_iff : ∀ c, c ∈ seen ↔ prev.contains c = true
  unreached : prev.get? start = none
  back : ∀ path ∈ paths, ∀ b, path.head? = some b →
    prev.WayBack b path ∧ path.getLast? = some start

theorem mirrors_start (start : String) : Mirrors start [[start]] ∅ [start] ∅ where
  heads := rfl
  seen_iff := fun c => iff_of_false (NameSet.notMem_empty c) Bool.false_ne_true
  unreached := rfl
  back := by
    intro path hpath b hhead
    obtain rfl : path = [start] := List.mem_singleton.mp hpath
    obtain rfl : start = b := Option.some.inj hhead
    exact ⟨.stop rfl, rfl⟩

section

variable {tail : List String} {paths : List (List String)} {seen : NameSet} {queue : List String}
  {prev : Predecessors}

/-- Both searches queue the same bundles. -/
theorem Mirrors.fresh_eq (h : Mirrors start paths seen queue prev) (b : String) :
    g.fresh seen b = (g.next b).toList.filter fun c => !prev.contains c := by
  refine List.filter_congr fun c _ => ?_
  rw [Bool.eq_iff_iff, decide_eq_true_iff, h.seen_iff c, Bool.not_eq_true', Bool.not_eq_true]

/-- A step that does not come back to the start keeps both searches at the same place. -/
theorem Mirrors.step (h : Mirrors start ((b :: tail) :: paths) seen (b :: queue) prev)
    (hback : start ∉ g.next b) :
    Mirrors start (paths ++ (g.fresh seen b).map (· :: b :: tail))
      (seen.insertAll (g.fresh seen b))
      (queue ++ (g.next b).toList.filter fun c => !prev.contains c)
      (prev.note b (g.next b).toList) := by
  have hkept : ∀ path ∈ (b :: tail) :: paths, ∀ c, path.head? = some c →
      (prev.note b (g.next b).toList).WayBack c path ∧ path.getLast? = some start := by
    intro path hpath c hhead
    obtain ⟨hway, hlast⟩ := h.back path hpath c hhead
    exact ⟨hway.note hlast h.unreached hback, hlast⟩
  constructor
  case heads =>
    have hrest : paths.map List.head? = queue.map some := (List.cons.inj h.heads).2
    rw [← h.fresh_eq, List.map_append, List.map_append, hrest, List.map_map]
    rfl
  case seen_iff =>
    intro c
    rw [NameSet.mem_insertAll, mem_fresh, Predecessors.contains_note, ← h.seen_iff c]
    constructor
    · rintro (⟨hwaits, -⟩ | hseen)
      · exact .inr hwaits
      · exact .inl hseen
    · rintro (hseen | hwaits)
      · exact .inr hseen
      · by_cases hseen : c ∈ seen
        · exact .inr hseen
        · exact .inl ⟨hwaits, hseen⟩
  case unreached =>
    -- the start is not reached, so it gets no predecessor
    have hnot : start ∉ (g.next b).toList := hback
    rw [Predecessors.get?_note, h.unreached, if_neg hnot]
    rfl
  case back =>
    intro path hpath c hhead
    rcases List.mem_append.mp hpath with hold | hnew
    · exact hkept path (List.mem_cons_of_mem _ hold) c hhead
    · obtain ⟨d, hd, rfl⟩ := List.mem_map.mp hnew
      obtain rfl : d = c := Option.some.inj hhead
      obtain ⟨hwaits, hunseen⟩ := mem_fresh.mp hd
      obtain ⟨hway, hlast⟩ := hkept (b :: tail) (List.mem_cons_self ..) b rfl
      -- a bundle that was not seen is reached from here
      have hunbound : prev.get? d = none := by
        rw [h.seen_iff d, NameMap.contains] at hunseen
        simpa using hunseen
      have hmem : d ∈ (g.next b).toList := hwaits
      refine ⟨.step ?_ hway, ?_⟩
      · rw [Predecessors.get?_note, hunbound, if_pos hmem]
        rfl
      · rw [List.getLast?_cons_of_ne_nil (List.cons_ne_nil b tail), hlast]

/-- With enough fuel the search by paths finds what the search by predecessors finds: nothing, or
    the way back from the bundle that waits on the start. -/
theorem Mirrors.exists_finds {fuel : Nat} (h : Mirrors start paths seen queue prev)
    (hfuel : paths.length + (g.awaited.filter (· ∉ seen)).length ≤ fuel) :
    (g.Finds start queue prev none ∧ search g start fuel paths seen = none) ∨
      ∃ prev' last back, g.Finds start queue prev (some (prev', last)) ∧
        prev'.WayBack last back ∧ back.getLast? = some start ∧
        search g start fuel paths seen = some (start :: back).reverse := by
  induction fuel generalizing paths seen queue prev with
  | zero =>
    -- without fuel there is nothing on either queue
    obtain rfl : paths = [] := List.length_eq_zero_iff.mp (by omega)
    obtain rfl : queue = [] := List.map_eq_nil_iff.mp h.heads.symm
    exact .inl ⟨.exhausted prev, rfl⟩
  | succ fuel ih =>
    cases paths with
    | nil =>
      obtain rfl : queue = [] := List.map_eq_nil_iff.mp h.heads.symm
      exact .inl ⟨.exhausted prev, rfl⟩
    | cons path paths =>
      obtain ⟨b, queue, rfl⟩ : ∃ b rest, queue = b :: rest := by
        cases queue with
        | nil => cases h.heads
        | cons b rest => exact ⟨b, rest, rfl⟩
      have hhead : path.head? = some b := (List.cons.inj h.heads).1
      obtain ⟨tail, rfl⟩ : ∃ tail, path = b :: tail := List.head?_eq_some_iff.mp hhead
      rw [search_cons]
      by_cases hback : start ∈ g.next b
      · rw [if_pos hback]
        obtain ⟨hway, hlast⟩ := h.back (b :: tail) (List.mem_cons_self ..) b rfl
        -- nothing behind the start is looked at, so the start gets no predecessor here either
        have hbefore : start ∉ (g.next b).toList.takeWhile (· ≠ start) := by
          intro hmem
          simpa using List.mem_takeWhile_imp hmem
        exact .inr ⟨_, b, b :: tail, .found hback, hway.note hlast h.unreached hbefore, hlast, rfl⟩
      · rw [if_neg hback]
        have hrest := ih (h.step hback) (length_queue_le hfuel)
        rcases hrest with ⟨hfinds, hsearch⟩ | ⟨prev', last, back, hfinds, hway, hlast, hsearch⟩
        · exact .inl ⟨.step hback hfinds, hsearch⟩
        · exact .inr ⟨prev', last, back, .step hback hfinds, hway, hlast, hsearch⟩

end

/-- The search by predecessors ends, and with the circle that the search by paths finds. -/
theorem exists_finds (g : WaitingGraph) (start : String) :
    (g.Finds start [start] ∅ none ∧ g.cycleThrough start = none) ∨
      ∃ prev last back, g.Finds start [start] ∅ (some (prev, last)) ∧
        prev.WayBack last back ∧ back.getLast? = some start ∧
        g.cycleThrough start = some (start :: back).reverse :=
  (mirrors_start start).exists_finds (g.length_start_le start)

/-! ## Circles of deferred sites -/

/-- What is found in the graph of the deferred sites whose bundles are not released. Every circle is
    a shortest one through its first bundle, no two have a member in common, they ascend by their
    first bundles, and there are none only if no bundle waits on itself through others. In any graph
    a circle is found through just those bundles that lie on one; the search that notes predecessors
    ends in one way, and from the bundle that waits on the start the way back through them ends at
    the start and is the circle. -/
theorem cycles_exact (blocked : List BlockedSite) (released : NameSet) :
    (∀ b c, (ofBlocked blocked released).Waits b c ↔
      ∃ site ∈ blocked, site.bundle = b ∧ b ∉ released ∧ c ∈ site.waitingOn) ∧
    (∀ chain ∈ (ofBlocked blocked released).cycles,
      ∃ entity, IsShortestCircle (ofBlocked blocked released).Waits entity chain) ∧
    (ofBlocked blocked released).cycles.Pairwise List.Disjoint ∧
    ((ofBlocked blocked released).cycles.filterMap List.head?).Pairwise (· < ·) ∧
    ((ofBlocked blocked released).cycles = [] ↔
      ∀ b, ¬ Relation.TransGen (ofBlocked blocked released).Waits b b) ∧
    ∀ (g : WaitingGraph) (start : String),
      ((∃ chain, g.cycleThrough start = some chain) ↔ Relation.TransGen g.Waits start start) ∧
      (∀ chain, g.cycleThrough start = some chain → IsShortestCircle g.Waits start chain) ∧
      (∃! outcome, g.Finds start [start] ∅ outcome) ∧
      (g.Finds start [start] ∅ none ↔ g.cycleThrough start = none) ∧
      ∀ prev last, g.Finds start [start] ∅ (some (prev, last)) →
        ∃ back, prev.WayBack last back ∧ back.getLast? = some start ∧
          g.cycleThrough start = some (start :: back).reverse := by
  refine ⟨fun b c => waits_ofBlocked, fun chain hchain => isShortestCircle_of_mem_cycles hchain,
    pairwise_disjoint_cycles _, pairwise_heads_cycles _, cycles_eq_nil_iff, fun g start => ?_⟩
  refine ⟨exists_cycleThrough_iff, fun chain => isShortestCircle_of_cycleThrough, ?_⟩
  rcases g.exists_finds start with
    ⟨hfinds, hnone⟩ | ⟨prev, last, back, hfinds, hway, hlast, hsome⟩
  · refine ⟨⟨none, hfinds, fun _ h => h.unique hfinds⟩, iff_of_true hfinds hnone, ?_⟩
    intro prev last hfinds'
    cases hfinds.unique hfinds'
  · refine ⟨⟨_, hfinds, fun _ h => h.unique hfinds⟩, iff_of_false ?_ ?_, ?_⟩
    · intro hfinds'
      cases hfinds.unique hfinds'
    · simp [hsome]
    · intro prev' last' hfinds'
      obtain ⟨rfl, rfl⟩ := Prod.mk.inj (Option.some.inj (hfinds.unique hfinds'))
      exact ⟨back, hway, hlast, hsome⟩

/-- Two bundles wait on each other, and one of them is on a longer circle with two others: that
    circle is dropped, as it has a member in common with the first one. -/
example :
    (ofBlocked [⟨"A", ⟨"a.lua"⟩, 1, ["B"]⟩, ⟨"B", ⟨"a.lua"⟩, 2, ["A", "C"]⟩,
      ⟨"C", ⟨"a.lua"⟩, 3, ["D"]⟩, ⟨"D", ⟨"a.lua"⟩, 4, ["B"]⟩] ∅).cycles = [["A", "B", "A"]] := by
  decide +kernel

end WaitingGraph

end Lineage
