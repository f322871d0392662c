import Lineage.Annotation.Annotator
import Lineage.Annotation.Cycles

/-!
# Annotation to the end

Passes are run until one changes nothing and leaves no circle of waiting bundles, or until their
bound is reached. A circle found by an idle pass is released: its members wait no longer.

## Main definitions

- `Annotator.run` annotates a store
- `Annotator.missingParents` are the composed names that nobody declares
- `Annotator.gaps` are the constructions left without annotation
-/

namespace Lineage

namespace Annotator

/-! ## Unknown parents -/

/-- A parent named in a composition. -/
structure ParentUse where
  bundle : String
  parent : String
  path : Path
  deriving DecidableEq, Repr

/-- The parents named in compositions, in the order of files, offsets and arguments. -/
def parentUses (a : Annotator) (store : Store) : List ParentUse :=
  store.files.flatMap fun f =>
    (a.constructionsIn f.content).flatMap fun m => m.parents.map (⟨m.bundle, ·, f.path⟩)

/-- Whether a name is declared by the corpus, by markup or elsewhere. -/
def isKnown (a : Annotator) (corpus : NameSet) (name : String) : Bool :=
  decide (name ∈ corpus) || decide (name ∈ a.relations.entityNames)
    || a.relations.bundleOwner.contains name || decide (name ∈ a.authoritative)

/-- The composed names that nobody declares, each at its first use. -/
def missingParents (a : Annotator) (store : Store) : List Diagnostic :=
  let corpus := a.corpusBundles store
  let unknown := (a.parentUses store).filter fun u => !a.isKnown corpus u.parent
  (unknown.eraseDupsBy fun u v => u.parent == v.parent).map fun u =>
    .missingParent u.bundle u.parent u.path

/-! ## The passes -/

/-- How far the annotation of a store has come. -/
structure Progress where
  store : Store
  released : NameSet
  passes : Nat
  productivePasses : Nat
  inserted : Nat
  /-- The files changed so far, one pass after the other. -/
  changed : List Path
  /-- The circles released so far. -/
  cycles : List (List String)
  /-- The sites deferred by the last pass. -/
  blocked : List BlockedSite

/-- Nothing done yet. -/
def Progress.start (store : Store) : Progress := ⟨store, ∅, 0, 0, 0, [], [], []⟩

/-- Runs at most `bound` passes. The second part of the result tells whether the last one found
    nothing left to do. -/
def passes (a : Annotator) (corpus : NameSet) : Nat → Progress → Progress × Bool
  | 0, p => (p, false)
  | bound + 1, p =>
    let done := a.pass corpus p.released p.store
    let p := { p with passes := p.passes + 1, blocked := done.blocked }
    if done.inserted = 0 then
      -- nothing was ready: whatever is left waits, maybe in a circle
      match WaitingGraph.cycles (WaitingGraph.ofBlocked done.blocked p.released) with
      | [] => (p, true)
      | chains =>
        passes a corpus bound
          { p with
            released := chains.foldl NameSet.insertAll p.released
            cycles := p.cycles ++ chains }
    else
      passes a corpus bound
        { p with
          store := done.store
          productivePasses := p.productivePasses + 1
          inserted := p.inserted + done.inserted
          changed := p.changed ++ done.changed }

/-- What annotating a store came to. -/
structure Outcome where
  passes : Nat
  productivePasses : Nat
  annotationsInserted : Nat
  /-- The files that changed, in the order of the store. -/
  changedFiles : List Path
  boundExceeded : Bool
  diagnostics : List Diagnostic
  deriving DecidableEq, Repr

/-- Whether there was nothing left to do. -/
def Outcome.converged (o : Outcome) : Bool := !o.boundExceeded

/-- The finding of a released circle. -/
def cycleFinding (chain : List String) : Diagnostic :=
  .cycleDetected (chain.head?.getD "") chain

/-- Annotates a store. The findings are the unknown parents, the released circles, the bound if it
    was reached, and the sites that the last pass deferred. -/
def run (a : Annotator) (store : Store) : Store × Outcome :=
  let corpus := a.corpusBundles store
  let (p, finished) := a.passes corpus a.settings.maxPasses (.start store)
  (p.store,
    { passes := p.passes
      productivePasses := p.productivePasses
      annotationsInserted := p.inserted
      changedFiles := (p.store.files.map (·.path)).filter (· ∈ p.changed)
      boundExceeded := !finished
      diagnostics :=
        a.missingParents store ++ p.cycles.map cycleFinding
          ++ (if finished then [] else [.passBoundExceeded a.settings.maxPasses])
          ++ p.blocked.map .blockedSite })

/-! ## What is left -/

/-- The constructions of a store that are open, in the order of files and offsets. -/
def gaps (a : Annotator) (store : Store) : List Diagnostic :=
  store.files.flatMap fun f =>
    (a.openIn f.content).map fun m => .unannotated m.bundle f.path (lineNumber f.content m.start)

end Annotator

end Lineage
