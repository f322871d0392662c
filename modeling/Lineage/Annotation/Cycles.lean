import Lineage.Data.NameMap
import Lineage.Diagnostic

/-!
# Cycles of waiting bundles

Deferred bundles wait on other bundles. When a pass can annotate nothing, some of them wait on each
other in a circle; such circles are found breadth first and released.

## Main definitions

- `WaitingGraph.ofBlocked` has an edge from a bundle to everything it waits on
- `WaitingGraph.cycleThrough` is a shortest circle through a bundle
- `WaitingGraph.cycles` are circles without a common member
-/

namespace Lineage

/-- The bundles that each deferred bundle waits on. -/
abbrev WaitingGraph := NameMap NameSet

namespace WaitingGraph

/-- The graph of the deferred sites whose bundles are not released yet. -/
def ofBlocked (blocked : List BlockedSite) (released : NameSet) : WaitingGraph :=
  (blocked.filter fun site => !decide (site.bundle ∈ released)).foldl
    (fun g site => g.modifyD site.bundle ∅ (·.insertAll site.waitingOn)) ∅

/-- The bundles that a bundle waits on. -/
def next (g : WaitingGraph) (bundle : String) : NameSet := (g.get? bundle).getD ∅

/-- Looks for a way back to `start`. The queue holds paths from `start`, each with its last bundle
    first; `seen` holds the bundles that were ever queued. The fuel bounds the number of paths. -/
def search (g : WaitingGraph) (start : String) :
    Nat → List (List String) → NameSet → Option (List String)
  | 0, _, _ => none
  | _, [], _ => none
  | fuel + 1, path :: queue, seen =>
    let successors := (path.head?.map g.next).getD ∅
    if start ∈ successors then some ((start :: path).reverse)
    else
      let fresh := successors.toList.filter (· ∉ seen)
      search g start fuel (queue ++ fresh.map (· :: path)) (seen.insertAll fresh)

/-- A shortest circle through a bundle; it starts and ends there. Every bundle but the first is
    queued at most once and only if another one waits on it. -/
def cycleThrough (g : WaitingGraph) (start : String) : Option (List String) :=
  search g start ((g.values.flatMap NameSet.toList).length + 1) [[start]] ∅

/-- Circles of waiting bundles, searched from the bundles in ascending order. A bundle on an
    earlier circle starts none, and a circle that meets an earlier one is dropped. -/
def cycles (g : WaitingGraph) : List (List String) :=
  (g.keys.foldl
    (fun ((found, used) : List (List String) × NameSet) start =>
      if start ∈ used then (found, used)
      else
        match cycleThrough g start with
        | some chain =>
          if chain.any (fun bundle => decide (bundle ∈ used)) then (found, used)
          else (found ++ [chain], used.insertAll chain)
        | none => (found, used))
    ([], ∅)).1

end WaitingGraph

end Lineage
