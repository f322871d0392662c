import Lineage.Settings.Writing
import Lineage.Yaml.Document

/-!
# Loading settings

Settings from their YAML form. A section or a field that is missing has its standard value. The
sections are known by name; fields that a section does not have are ignored.

## Main definitions

- `Yaml.Document` readers for the types of the fields
- `Settings.ofYaml` gives checked settings
-/

namespace Lineage

namespace Yaml.Document

/-! ## Reading values -/

/-- Whether a tag says that a scalar stands for nothing. -/
def isNullTag (tag : List Char) : Bool := tag = "tag:yaml.org,2002:null".toList

/-- The text of any scalar. -/
def text? (d : Document) (node : Linked) : Option String :=
  match d.resolve node with
  | .scalar _ _ _ text => some text
  | _ => none

/-- The text of a scalar that is open to interpretation: a plain one, or a literal block with the
    tag of the type that is asked for. -/
def open? (d : Document) (tag : String) (node : Linked) : Option String :=
  match d.resolve node with
  | .scalar _ _ .plain text => some text
  | .scalar _ (some given) .literal text =>
    if given = "tag:yaml.org,2002:".toList ++ tag.toList then some text else none
  | _ => none

/-- The natural number below a bound that a value denotes. -/
def natural? (d : Document) (bound : Nat) (node : Linked) : Option Nat :=
  (d.open? "int" node).bind (Yaml.natural? bound)

/-- The truth value that a value denotes. -/
def bool? (d : Document) (node : Linked) : Option Bool := (d.open? "bool" node).bind Yaml.bool?

/-- The texts that a sequence holds; a plain empty scalar is an empty sequence. -/
def texts? (d : Document) (node : Linked) : Option (List String) :=
  match d.resolve node with
  | .sequence _ items => items.mapM d.text?
  | .scalar _ _ .plain "" => some []
  | _ => none

/-- A value that may be left out: a plain scalar that is empty or a word for nothing. -/
def optional? {α : Type} (d : Document) (read : Linked → Option α) (node : Linked) :
    Option (Option α) :=
  let node := d.resolve node
  match node with
  | .scalar _ (some tag) .plain text =>
    if isNullTag tag then (if isNull text then some none else none) else (read node).map some
  | .scalar _ none .plain text =>
    if text = "" ∨ isNull text then some none else (read node).map some
  | _ => (read node).map some

/-- The members of a mapping by the texts of their keys; a plain empty scalar is an empty one. -/
def members? (d : Document) (node : Linked) : Option (List (String × Linked)) :=
  match d.resolve node with
  | .mapping _ members => members.mapM fun (key, value) => (d.text? key).map (·, value)
  | .scalar _ _ .plain "" => some []
  | _ => none

/-! ## Reading members -/

/-- The value of a member that is given at most once. -/
def member? (members : List (String × Linked)) (name : String) : Option (Option Linked) :=
  match members.filter (·.1 = name) with
  | [] => some none
  | [(_, value)] => some (some value)
  | _ => none

/-- A field with its standard value if it is not given. -/
def field? {α : Type} (members : List (String × Linked)) (name : String)
    (read : Linked → Option α) (standard : α) : Option α := do
  match ← member? members name with
  | some node => read node
  | none => return standard

end Yaml.Document

open Yaml (Document Linked)
open Yaml.Document (field?)

/-! ## Sections -/

/-- The numbers that fit into a field. -/
def fieldBound : Nat := Nat.pow 2 64

/-- Reads the scan section. -/
def ScanSettings.ofNode? (d : Document) (node : Linked) : Option ScanSettings := do
  let members ← d.members? node
  let standard : ScanSettings := {}
  return {
    workers := ← field? members "workers" (d.natural? fieldBound) standard.workers
    markupExtension := ← field? members "markup_extension" d.text? standard.markupExtension
    sourceExtension := ← field? members "source_extension" d.text? standard.sourceExtension
    frameTags := ← field? members "frame_tags" d.texts? standard.frameTags
    strictMarkup := ← field? members "strict_markup" d.bool? standard.strictMarkup }

/-- Reads the hierarchy section. -/
def HierarchySettings.ofNode? (d : Document) (node : Linked) : Option HierarchySettings := do
  let members ← d.members? node
  let standard : HierarchySettings := {}
  return { frameParent := ← field? members "frame_parent" d.text? standard.frameParent }

/-- Reads the site section. -/
def SiteSettings.ofNode? (d : Document) (node : Linked) : Option SiteSettings := do
  let members ← d.members? node
  let standard : SiteSettings := {}
  return {
    maxPasses := ← field? members "max_passes" (d.natural? fieldBound) standard.maxPasses
    composeFunction := ← field? members "compose_function" d.text? standard.composeFunction
    annotationMarker := ← field? members "annotation_marker" d.text? standard.annotationMarker
    metaHeader := ← field? members "meta_header" (d.optional? d.text?) standard.metaHeader }

/-- Reads the emit section. -/
def EmitSettings.ofNode? (d : Document) (node : Linked) : Option EmitSettings := do
  let members ← d.members? node
  let standard : EmitSettings := {}
  return {
    syntheticSigil := ← field? members "synthetic_sigil" d.text? standard.syntheticSigil
    generatedPath := ← field? members "generated_path" d.text? standard.generatedPath }

/-! ## Whole settings -/

/-- Settings with the version they were written for, if it was given. -/
structure VersionedSettings where
  version : Option Nat
  settings : Settings
  deriving DecidableEq, Repr

/-- The names of the version and the sections. -/
def sectionNames : List String := ["version", "scan", "hierarchy", "rewrite", "emit"]

/-- The versions fit into 32 bits. -/
def versionBound : Nat := Nat.pow 2 32

/-- Reads the members of a document. -/
def VersionedSettings.ofMembers? (d : Document) (members : List (String × Linked)) :
    Option VersionedSettings := do
  let section? {α : Type} (name : String) (read : Linked → Option α) : Option (Option α) :=
    field? members name (d.optional? read) none
  if members.all (sectionNames.contains ·.1) then
    return {
      version := ← section? "version" (d.natural? versionBound)
      settings := {
        scan := (← section? "scan" (ScanSettings.ofNode? d)).getD {}
        hierarchy := (← section? "hierarchy" (HierarchySettings.ofNode? d)).getD {}
        sites := (← section? "rewrite" (SiteSettings.ofNode? d)).getD {}
        emit := (← section? "emit" (EmitSettings.ofNode? d)).getD {} } }
  else none

/-- Reads a document. One without a root has no members. -/
def VersionedSettings.ofDocument? (d : Document) : Option VersionedSettings := do
  let members ←
    match d.root with
    | some root => d.members? root
    | none => some []
  VersionedSettings.ofMembers? d members

/-- The checked settings of the right version. -/
def VersionedSettings.validate (v : VersionedSettings) : Except SettingsError ValidSettings :=
  match v.version with
  | none => .error .missingVersion
  | some version =>
    if version = settingsVersion then v.settings.validate
    else .error (.unsupportedVersion version)

/-- The checked settings that a YAML text holds. -/
def Settings.ofYaml (text : String) : Except SettingsError ValidSettings :=
  match (Document.parse? text).bind VersionedSettings.ofDocument? with
  | some v => v.validate
  | none => .error .malformed

end Lineage
