import Lineage.Aggregate
import Lineage.Annotation.MetaHeader
import Lineage.Run.Corpus

/-!
# Saving

Writing changed source files, the aggregate file and meta headers.

## Main definitions

- `persist` writes the dirty files of a store
- `emitAggregate` writes the aggregate file
- `applyHeaders` puts the meta header into files on disk
-/

namespace Lineage

variable {m : Type → Type} [Monad m] [Host m]

/-- Writes files one after another until one cannot be written: the number of those written, and
    the failure. -/
def writeFiles : List SourceFile → m (Nat × Option Failure)
  | [] => pure (0, none)
  | f :: rest => do
    match ← Host.write f.path f.content with
    | .error cause => pure (0, some (.access f.path cause))
    | .ok () =>
      let (written, failure) ← writeFiles rest
      pure (written + 1, failure)

/-- Writes the dirty files of a store in order. Those written are dirty no longer, also where a
    later one cannot be written. -/
def persist (store : Store) : m (Except Failure Nat × Store) := do
  let (written, failure) ← writeFiles store.dirtyFiles
  let result :=
    match failure with
    | none => .ok written
    | some failure => .error failure
  pure (result, store.settle written)

/-- Writes the aggregate file below a directory and gives its path. -/
def emitAggregate (emit : EmitSettings) (out : Path) (text : String) : ExceptT Failure m Path := do
  let target := Aggregate.target emit out
  if let some above := target.parent? then
    if let .error cause ← ExceptT.lift (Host.makeDirs above) then
      throw (.access above cause)
  writeContent target (Utf8.ofString text)
  return target

/-- Puts the header into a file that lacks it, and tells whether it did. -/
def applyHeader (header : String) (path : Path) : ExceptT Failure m Bool := do
  match withHeader? header (← readContent path) with
  | none => return false
  | some content =>
    writeContent path content
    return true

/-- Puts the header into every source file below a directory that lacks it, and counts them. -/
def applyHeaders (root : Path) (extension header : String) : ExceptT Failure m Nat := do
  let paths ← discoverFiles root extension
  let changed ← paths.mapM (applyHeader header)
  return changed.countP id

end Lineage
