import Lineage.ClassLine
import Lineage.Hierarchy.Ancestors
import Lineage.Settings.Basic

/-!
# The aggregate file

One file that declares every markup entity as a class with all its ancestors. Private entities,
entities without ancestors and classes declared elsewhere are left out.
-/

namespace Lineage

/-- The content of an aggregate file, with the number of its classes. -/
structure Aggregate where
  text : String
  classes : Nat
  deriving DecidableEq, Repr

namespace Aggregate

/-- The first line of a file for which no header is set. -/
def standardHeader : String := "---@meta"

/-- Whether a name starts with the sigil of private entities. -/
def isPrivate (emit : EmitSettings) (name : String) : Bool :=
  emit.syntheticSigil.toList.isPrefixOf name.toList

/-- The entities that are looked up, in order. -/
def candidates (emit : EmitSettings) (authoritative entities : NameSet) : List String :=
  entities.toList.filter fun name => !isPrivate emit name && !decide (name ∈ authoritative)

/-- The classes of some entities with their ancestors. -/
def classLines (g : Graph) (s : Session) (names : List String) : List ClassLine × Session :=
  names.foldl
    (fun ((lines, s) : List ClassLine × Session) name =>
      let (found, s) := s.ancestors g name
      (if found.isEmpty then lines else lines ++ [⟨name, found.toList⟩], s))
    ([], s)

/-- The text of a file: the header and the class lines, each followed by an empty line. -/
def textOf (sites : SiteSettings) (lines : List ClassLine) : String :=
  sites.metaHeader.getD standardHeader ++ "\n\n"
    ++ String.join (lines.map fun line => line.render sites.annotationMarker ++ "\n")

/-- The aggregate of some entities. -/
def render (sites : SiteSettings) (emit : EmitSettings) (g : Graph) (s : Session)
    (authoritative entities : NameSet) : Aggregate × Session :=
  let (lines, s) := classLines g s (candidates emit authoritative entities)
  (⟨textOf sites lines, lines.length⟩, s)

/-- Where the file is written. -/
def target (emit : EmitSettings) (out : Path) : Path := out.join ⟨emit.generatedPath⟩

end Aggregate

end Lineage
