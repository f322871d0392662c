import Lineage.Json
import Lineage.Path

/-!
# Diagnostics

Findings of a run that do not stop it. Each has a wording, a severity and a JSON form whose member
`kind` names the finding.
-/

namespace Lineage

/-- How much a finding weighs. -/
inductive Severity where
  | info
  | warning
  deriving DecidableEq, Repr, Ord

/-- A construction site that was not annotated because bundles it composes have no annotation. -/
structure BlockedSite where
  bundle : String
  path : Path
  line : Nat
  waitingOn : List String
  deriving DecidableEq, Repr

/-- A finding of a run. -/
inductive Diagnostic where
  /-- A loop of parents; the chain starts and ends with the entity. -/
  | cycleDetected (entity : String) (chain : List String)
  /-- A composed parent that nothing declares. -/
  | missingParent (bundle parent : String) (path : Path)
  /-- A site that waits on parents without annotation. -/
  | blockedSite (site : BlockedSite)
  /-- The passes ran out before nothing was left to do. -/
  | passBoundExceeded (maxPasses : Nat)
  /-- A site that is left without annotation. -/
  | unannotated (bundle : String) (path : Path) (line : Nat)
  /-- A markup file of which only the part before a fault was read. -/
  | markupRecovered (path : Path) (message : String)
  deriving DecidableEq, Repr

namespace Diagnostic

/-- The weight of a finding. -/
def severity : Diagnostic → Severity
  | .missingParent .. | .markupRecovered .. => .info
  | _ => .warning

/-- Whether a finding marks a site without annotation. -/
def isGap : Diagnostic → Bool
  | .unannotated .. | .blockedSite .. => true
  | _ => false

/-- The wording of a finding. -/
def message : Diagnostic → String
  | .cycleDetected entity chain =>
    s!"Circular dependency detected for {entity} (" ++ " -> ".intercalate chain ++ ")"
  | .missingParent bundle parent path =>
    s!"Unknown parent {parent} of mixin {bundle} in {path.text}"
  | .blockedSite site =>
    s!"Mixin {site.bundle} at {site.path.text}:{site.line} is waiting on unannotated parents: "
      ++ ", ".intercalate site.waitingOn
  | .passBoundExceeded maxPasses =>
    s!"Exceeded max annotation passes ({maxPasses}), check for circular dependencies"
  | .unannotated bundle path line =>
    s!"Could not find annotation for mixin variable {bundle} in {path.text}:{line}"
  | .markupRecovered path message => s!"Skipped rest of {path.text}: {message}"

/-! ## JSON form -/

/-- The name of a finding's kind. -/
def kind : Diagnostic → String
  | .cycleDetected .. => "cycle_detected"
  | .missingParent .. => "missing_parent"
  | .blockedSite .. => "blocked_site"
  | .passBoundExceeded .. => "pass_bound_exceeded"
  | .unannotated .. => "unannotated"
  | .markupRecovered .. => "markup_recovered"

/-- The members of a finding's JSON form, without its kind. -/
def members : Diagnostic → List (String × Json)
  | .cycleDetected entity chain => [("entity", .string entity), ("chain", Json.strings chain)]
  | .missingParent bundle parent path =>
    [("bundle", .string bundle), ("parent", .string parent), ("path", .string path.text)]
  | .blockedSite site =>
    [("bundle", .string site.bundle), ("path", .string site.path.text), ("line", .nat site.line),
      ("waiting_on", Json.strings site.waitingOn)]
  | .passBoundExceeded maxPasses => [("max_passes", .nat maxPasses)]
  | .unannotated bundle path line =>
    [("bundle", .string bundle), ("path", .string path.text), ("line", .nat line)]
  | .markupRecovered path message => [("path", .string path.text), ("message", .string message)]

/-- The JSON form of a finding. -/
def toJson (d : Diagnostic) : Json := .object (("kind", .string d.kind) :: d.members)

/-- The names of the members that a kind has, in order. -/
def memberNames : String → Option (List String)
  | "cycle_detected" => some ["entity", "chain"]
  | "missing_parent" => some ["bundle", "parent", "path"]
  | "blocked_site" => some ["bundle", "path", "line", "waiting_on"]
  | "pass_bound_exceeded" => some ["max_passes"]
  | "unannotated" => some ["bundle", "path", "line"]
  | "markup_recovered" => some ["path", "message"]
  | _ => none

/-- A finding of a kind from the values of its members. -/
def ofValues? : String → List Json → Option Diagnostic
  | "cycle_detected", [entity, chain] => do
    return .cycleDetected (← entity.string?) (← chain.strings?)
  | "missing_parent", [bundle, parent, path] => do
    return .missingParent (← bundle.string?) (← parent.string?) ⟨← path.string?⟩
  | "blocked_site", [bundle, path, line, waitingOn] => do
    return .blockedSite
      ⟨← bundle.string?, ⟨← path.string?⟩, ← line.nat?, ← waitingOn.strings?⟩
  | "pass_bound_exceeded", [maxPasses] => do return .passBoundExceeded (← maxPasses.nat?)
  | "unannotated", [bundle, path, line] => do
    return .unannotated (← bundle.string?) ⟨← path.string?⟩ (← line.nat?)
  | "markup_recovered", [path, message] => do
    return .markupRecovered ⟨← path.string?⟩ (← message.string?)
  | _, _ => none

/-- Reads a finding from its JSON form. Members beyond those of the kind are ignored; an array
    holds the kind and then the values of the members in order. -/
def ofJson? : Json → Option Diagnostic
  | .object fields => do
    let kind ← (← fields.lookup "kind").string?
    ofValues? kind (← (← memberNames kind).mapM (fields.lookup ·))
  | .array (kind :: values) => do ofValues? (← kind.string?) values
  | _ => none

end Diagnostic

end Lineage
