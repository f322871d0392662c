import Lineage.Disk.FileError
import Lineage.Path
import Lineage.Text.Blank

/-!
# Settings

What a run can be told: how the corpus is scanned, how the hierarchy and the annotations are built,
and what is written. Settings that were checked come as `ValidSettings`, the only ones a run takes.

## Main definitions

- `Settings` with its four sections and their defaults
- `Settings.check` and `Settings.validate`
-/

namespace Lineage

/-! ## Sections -/

/-- How the corpus is scanned. -/
structure ScanSettings where
  workers : Nat := 1
  markupExtension : String := "xml"
  sourceExtension : String := "lua"
  /-- The tags whose elements are frames. -/
  frameTags : List String := ["Frame", "EventFrame"]
  /-- Whether a fault in a markup file stops the run. -/
  strictMarkup : Bool := true
  deriving DecidableEq, Repr, Inhabited

/-- How the hierarchy is built. -/
structure HierarchySettings where
  /-- The parent of every frame. -/
  frameParent : String := "Frame"
  deriving DecidableEq, Repr, Inhabited

/-- How construction sites are found and annotated. -/
structure SiteSettings where
  maxPasses : Nat := 16
  composeFunction : String := "CreateFromMixins"
  annotationMarker : String := "---@class"
  /-- The line that every source file starts with, if any. -/
  metaHeader : Option String := some "---@meta"
  deriving DecidableEq, Repr, Inhabited

/-- What the aggregate file leaves out, and where it is written. -/
structure EmitSettings where
  /-- How the names of private entities start. -/
  syntheticSigil : String := "$"
  generatedPath : String := "generated/generated.lua"
  deriving DecidableEq, Repr, Inhabited

/-- All settings. -/
structure Settings where
  scan : ScanSettings := {}
  hierarchy : HierarchySettings := {}
  sites : SiteSettings := {}
  emit : EmitSettings := {}
  deriving DecidableEq, Repr, Inhabited

/-! ## Errors -/

/-- A setting that is checked. -/
inductive Field where
  | workers
  | markupExtension
  | sourceExtension
  | frameParent
  | maxPasses
  | composeFunction
  | annotationMarker
  | metaHeader
  | syntheticSigil
  | generatedPath
  deriving DecidableEq, Repr

namespace Field

/-- The name of a setting in a settings file. -/
def name : Field → String
  | .workers => "scan.workers"
  | .markupExtension => "scan.markup_extension"
  | .sourceExtension => "scan.source_extension"
  | .frameParent => "hierarchy.frame_parent"
  | .maxPasses => "rewrite.max_passes"
  | .composeFunction => "rewrite.compose_function"
  | .annotationMarker => "rewrite.annotation_marker"
  | .metaHeader => "rewrite.meta_header"
  | .syntheticSigil => "emit.synthetic_sigil"
  | .generatedPath => "emit.generated_path"

/-- Advice for whoever set it wrongly. -/
def hint : Field → String
  | .workers => "The scan pool needs at least one worker"
  | .markupExtension => "Markup files are usually 'xml'"
  | .sourceExtension => "Source files are usually 'lua'"
  | .frameParent => "Frames need a base class name such as 'Frame'"
  | .maxPasses => "Annotation passes must be finite and at least 1"
  | .composeFunction => "The default composition call is 'CreateFromMixins'"
  | .annotationMarker => "The default marker is '---@class'"
  | .metaHeader => "Use null to disable the meta header pass"
  | .syntheticSigil => "Private entities are prefixed with '$'"
  | .generatedPath => "The default is 'generated/generated.lua'"

end Field

/-- Why settings are refused. -/
inductive SettingsError where
  | outOfRange (field : Field) (value least greatest : Nat)
  | blank (field : Field)
  | missingVersion
  | unsupportedVersion (found : Nat)
  /-- The settings file cannot be read. -/
  | unreadable (cause : FileError)
  /-- The settings file is not YAML, or holds values of other types. -/
  | malformed
  deriving DecidableEq, Repr

/-- The wording of a refusal. -/
def SettingsError.message : SettingsError → String
  | .outOfRange field value least greatest =>
    s!"Invalid range for field '{field.name}': {value} not in {least}..={greatest}. {field.hint}"
  | .blank field => s!"Field '{field.name}' must not be empty. {field.hint}"
  | .missingVersion =>
    "Missing 'version' field in configuration file. Add 'version: 1' to the top of your YAML file."
  | .unsupportedVersion found =>
    s!"Unsupported configuration version {found}. Supported versions: 1"
  | .unreadable cause => s!"IO error: {cause.message}"
  | .malformed => "YAML"

/-! ## Checking -/

/-- Asks for a number between two bounds, both included. -/
def requireRange (field : Field) (value least greatest : Nat) : Except SettingsError Unit :=
  if least ≤ value ∧ value ≤ greatest then .ok ()
  else .error (.outOfRange field value least greatest)

/-- Asks for a text that is not blank. -/
def requireText (field : Field) (text : String) : Except SettingsError Unit :=
  if isBlankText text then .error (.blank field) else .ok ()

/-- Checks the scan section. -/
def ScanSettings.check (s : ScanSettings) : Except SettingsError Unit := do
  requireRange .workers s.workers 1 512
  requireText .markupExtension s.markupExtension
  requireText .sourceExtension s.sourceExtension

/-- Checks the hierarchy section. -/
def HierarchySettings.check (s : HierarchySettings) : Except SettingsError Unit :=
  requireText .frameParent s.frameParent

/-- Checks the site section. -/
def SiteSettings.check (s : SiteSettings) : Except SettingsError Unit := do
  requireRange .maxPasses s.maxPasses 1 1024
  requireText .composeFunction s.composeFunction
  requireText .annotationMarker s.annotationMarker
  match s.metaHeader with
  | some header => requireText .metaHeader header
  | none => .ok ()

/-- Checks the emit section. The path may be blank but not empty. -/
def EmitSettings.check (s : EmitSettings) : Except SettingsError Unit := do
  requireText .syntheticSigil s.syntheticSigil
  if s.generatedPath = "" then .error (.blank .generatedPath) else .ok ()

/-- Checks all sections; the first fault is reported. -/
def Settings.check (s : Settings) : Except SettingsError Unit := do
  s.scan.check
  s.hierarchy.check
  s.sites.check
  s.emit.check

/-- Settings that passed the check. -/
structure ValidSettings extends Settings where
  checked : toSettings.check = .ok ()

/-- The checked settings, or the first fault. -/
def Settings.validate (s : Settings) : Except SettingsError ValidSettings :=
  match h : s.check with
  | .ok () => .ok ⟨s, h⟩
  | .error e => .error e

/-- The settings of a run that was told nothing. -/
def ValidSettings.standard : ValidSettings where
  toSettings := {}
  checked := by
    simp [Settings.check, ScanSettings.check, HierarchySettings.check, SiteSettings.check,
      EmitSettings.check, requireRange, requireText, isBlankText, isBlank, bind, Except.bind]

/-- One line on what a run will do. -/
def Settings.describe (s : Settings) : String :=
  s!"workers={s.scan.workers} max_passes={s.sites.maxPasses} "
    ++ s!"compose={s.sites.composeFunction} marker={s.sites.annotationMarker} "
    ++ s!"generated={s.emit.generatedPath}"

end Lineage
