import Lineage.Diagnostic
import Lineage.Hierarchy.Graph

/-!
# Ancestors

The ancestors of an entity are found by walking the parent graph depth first. A session remembers
every entity it has finished, so that later queries look it up, and the loops that the walk ran
into: a parent that is already on the trail contributes itself and closes a cycle.

## Main definitions

- `Session` holds what was found so far
- `Session.ancestors` answers a query and extends the session
-/

namespace Lineage

/-- What the queries on one graph have found so far. -/
structure Session where
  /-- The ancestors of every finished entity. -/
  known : NameMap NameSet
  /-- The first cycle on which an entity was seen. -/
  cycles : NameMap (List String)
  /-- The cycles not yet handed out, each once. -/
  reports : List Diagnostic
  deriving DecidableEq, Repr

namespace Session

/-- Nothing found yet. -/
def empty : Session := ⟨∅, ∅, []⟩

instance : EmptyCollection Session := ⟨empty⟩
instance : Inhabited Session := ⟨empty⟩

/-- The cycle that a trail, innermost entity first, closes at one of its members. -/
def cycleAt (trail : List String) (repeated : String) : List String :=
  repeated :: (trail.takeWhile (· ≠ repeated)).reverse ++ [repeated]

/-- Notes a cycle that starts and ends with an entity. -/
def noteCycle (s : Session) (entity : String) (chain : List String) : Session :=
  let report := Diagnostic.cycleDetected entity chain
  { s with
    cycles := chain.foldl (fun m member => m.insertNew member chain) s.cycles
    reports := if report ∈ s.reports then s.reports else s.reports ++ [report] }

/-- Finds the ancestors of an entity that is neither known nor on the trail above it, and
    remembers them. The fuel bounds the length of the trail. -/
def walk (g : Graph) : Nat → List String → String → Session → NameSet × Session
  | 0, _, _, s => (∅, s)
  | fuel + 1, above, entity, s =>
    let trail := entity :: above
    let (found, s) := (g.parentsOf entity).toList.foldl
      (fun ((found, s) : NameSet × Session) parent =>
        let found := found.insert parent
        match s.known.get? parent with
        | some more => (found.union more, s)
        | none =>
          -- a parent on the trail closes a cycle and contributes nothing but itself
          if parent ∈ trail then (found, s.noteCycle parent (cycleAt trail parent))
          else
            let (more, s) := walk g fuel trail parent s
            (found.union more, s))
      (∅, s)
    -- a cycle may have led back here
    let found := found.erase entity
    (found, { s with known := s.known.insert entity found })

/-- The ancestors of an entity. A trail has no repetitions and every entity on it but the last has
    parents, so the size of the graph bounds its length. -/
def ancestors (g : Graph) (s : Session) (entity : String) : NameSet × Session :=
  match s.known.get? entity with
  | some found => (found, s)
  | none => walk g (g.size + 1) [] entity s

/-- The ancestors of several entities. -/
def ancestorsAll (g : Graph) (s : Session) (entities : List String) :
    NameMap NameSet × Session :=
  entities.foldl
    (fun ((found, s) : NameMap NameSet × Session) entity =>
      let (more, s) := s.ancestors g entity
      (found.insert entity more, s))
    (∅, s)

/-- Whether an entity was seen on a cycle. -/
def inCycle (s : Session) (entity : String) : Bool := s.cycles.contains entity

/-- Hands out the reports. -/
def takeReports (s : Session) : List Diagnostic × Session := (s.reports, { s with reports := [] })

end Session

end Lineage
