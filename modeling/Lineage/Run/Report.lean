import Lineage.Annotation.Outcome

/-!
# Run reports

The counts and findings of a run, with their JSON form.
-/

namespace Lineage

/-- What a run came to. -/
structure Report where
  markupFiles : Nat := 0
  sourceFiles : Nat := 0
  constructionSites : Nat := 0
  authoritativeNames : Nat := 0
  entities : Nat := 0
  directEdges : Nat := 0
  passes : Nat := 0
  productivePasses : Nat := 0
  annotationsInserted : Nat := 0
  boundExceeded : Bool := false
  changedFiles : List Path := []
  metaHeadersAdded : Nat := 0
  filesWritten : Nat := 0
  aggregatePath : Path := ⟨""⟩
  aggregateClasses : Nat := 0
  cycleMembers : List String := []
  diagnostics : List Diagnostic := []
  elapsedMs : Nat := 0
  deriving DecidableEq, Repr, Inhabited

namespace Report

/-- The findings on sites without annotation. -/
def gaps (r : Report) : List Diagnostic := r.diagnostics.filter (·.isGap)

/-- The number of findings that are warnings. -/
def warningCount (r : Report) : Nat := r.diagnostics.countP (·.severity = .warning)

/-- The JSON form of a report. -/
def toJson (r : Report) : Json :=
  let paths (ps : List Path) : Json := Json.strings (ps.map (·.text))
  .object [
    ("markup_files", .nat r.markupFiles),
    ("source_files", .nat r.sourceFiles),
    ("construction_sites", .nat r.constructionSites),
    ("authoritative_names", .nat r.authoritativeNames),
    ("entities", .nat r.entities),
    ("direct_edges", .nat r.directEdges),
    ("passes", .nat r.passes),
    ("productive_passes", .nat r.productivePasses),
    ("annotations_inserted", .nat r.annotationsInserted),
    ("bound_exceeded", .bool r.boundExceeded),
    ("changed_files", paths r.changedFiles),
    ("meta_headers_added", .nat r.metaHeadersAdded),
    ("files_written", .nat r.filesWritten),
    ("aggregate_path", .string r.aggregatePath.text),
    ("aggregate_classes", .nat r.aggregateClasses),
    ("cycle_members", Json.strings r.cycleMembers),
    ("diagnostics", .array (r.diagnostics.map Diagnostic.toJson)),
    ("elapsed_ms", .nat r.elapsedMs)]

end Report

end Lineage
