import Lineage.Authoritative
import Lineage.Disk.Host
import Lineage.Markup.MarkupFile
import Lineage.Source.Index

/-!
# Reading a corpus

Finding and reading the files that a run looks at. Files are taken in the order of their paths, and
the first failure stops a scan. Nothing is written here.

## Main definitions

- `discoverFiles` finds the files with an extension
- `scanAuthoritative`, `scanMarkup` and `scanSources` read what they say
-/

namespace Lineage

variable {m : Type → Type} [Monad m] [Host m]

/-! ## Files -/

/-- The visible files at or below a root that have an extension. All directories in which they may
    be must be there to be listed. -/
def discoverFiles (root : Path) (extension : String) : ExceptT Failure m (List Path) := do
  match ← ExceptT.lift (Host.entry root) with
  | .error cause => throw (.discovery root cause)
  | .ok e =>
    match e.obstacle? root with
    | some (place, cause) => throw (.discovery place cause)
    | none => return e.discover root extension

/-- The content of a file. -/
def readContent (path : Path) : ExceptT Failure m Bytes := do
  match ← ExceptT.lift (Host.read path) with
  | .ok content => return content
  | .error cause => throw (.access path cause)

/-- Writes a file. -/
def writeContent (path : Path) (content : Bytes) : ExceptT Failure m Unit := do
  match ← ExceptT.lift (Host.write path content) with
  | .ok () => return ()
  | .error cause => throw (.access path cause)

/-! ## Scans -/

/-- The classes declared below a directory; none if there is no such directory. -/
def scanAuthoritative (root : Path) (marker extension : String) : ExceptT Failure m NameSet := do
  match ← ExceptT.lift (Host.entry root) with
  | .error _ => return ∅
  | .ok _ =>
    let paths ← discoverFiles root extension
    return declaredIn marker (← paths.mapM readContent)

/-- What the markup files of a corpus declare. -/
structure MarkupScan where
  relations : Relations
  filesScanned : Nat
  diagnostics : List Diagnostic
  deriving DecidableEq, Repr

/-- Joins the declarations of markup files, later ones in place of earlier ones. -/
def MarkupScan.ofFiles (files : List MarkupFile) : MarkupScan :=
  { relations := Relations.mergeAll (files.map (·.relations))
    filesScanned := files.length
    diagnostics := files.filterMap (·.recovered) }

/-- Reads a markup file. -/
def readMarkup (s : ScanSettings) (path : Path) : ExceptT Failure m MarkupFile := do
  MonadExcept.ofExcept (MarkupFile.ofContent s path (← readContent path))

/-- Reads the markup files at or below a root. -/
def scanMarkup (s : ScanSettings) (root : Path) : ExceptT Failure m MarkupScan := do
  let paths ← discoverFiles root s.markupExtension
  return .ofFiles (← paths.mapM (readMarkup s))

/-- Reads a source file. -/
def readSource (path : Path) : ExceptT Failure m SourceFile := do
  return .ofContent path (← readContent path)

/-- Reads the source files at or below a root. -/
def scanSources (s : ScanSettings) (compose : String) (root : Path) : ExceptT Failure m Index := do
  let paths ← discoverFiles root s.sourceExtension
  return .ofFiles compose (← paths.mapM readSource)

end Lineage
