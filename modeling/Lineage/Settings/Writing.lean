import Lineage.Settings.Basic
import Lineage.Yaml.Printer

/-!
# Writing settings

The YAML form of settings: a version and the four sections with all their fields.
-/

namespace Lineage

open Yaml (Value)

/-- The version of the form in which settings are written. -/
def settingsVersion : Nat := 1

/-- The members of the scan section. -/
def ScanSettings.members (s : ScanSettings) : List (String × Value) :=
  [("workers", .scalar (.nat s.workers)),
    ("markup_extension", .scalar (.text s.markupExtension)),
    ("source_extension", .scalar (.text s.sourceExtension)),
    ("frame_tags", .list (s.frameTags.map .text)),
    ("strict_markup", .scalar (.bool s.strictMarkup))]

/-- The members of the hierarchy section. -/
def HierarchySettings.members (s : HierarchySettings) : List (String × Value) :=
  [("frame_parent", .scalar (.text s.frameParent))]

/-- The members of the site section. -/
def SiteSettings.members (s : SiteSettings) : List (String × Value) :=
  [("max_passes", .scalar (.nat s.maxPasses)),
    ("compose_function", .scalar (.text s.composeFunction)),
    ("annotation_marker", .scalar (.text s.annotationMarker)),
    ("meta_header", .scalar (s.metaHeader.elim .null .text))]

/-- The members of the emit section. -/
def EmitSettings.members (s : EmitSettings) : List (String × Value) :=
  [("synthetic_sigil", .scalar (.text s.syntheticSigil)),
    ("generated_path", .scalar (.text s.generatedPath))]

namespace Settings

/-- The members of the YAML form. -/
def members (s : Settings) : List (String × Value) :=
  [("version", .scalar (.nat settingsVersion)),
    ("scan", .map s.scan.members),
    ("hierarchy", .map s.hierarchy.members),
    ("rewrite", .map s.sites.members),
    ("emit", .map s.emit.members)]

/-- The YAML form of settings. -/
def toYaml (s : Settings) : String := Yaml.render s.members

end Settings

end Lineage
