import Lineage.Data.NameMap
import Lineage.ParentList

/-!
# Markup relations

What markup says about the hierarchy: which entity uses a bundle, what an entity inherits, and
which entities are frames. Elements are recorded one by one; the relations of several files are
merged in the order of the files, so the later declaration wins either way.
-/

namespace Lineage

/-- The parts of a start tag that matter to the hierarchy. -/
structure Element where
  tag : String
  name : String
  mixin : String
  inherits : String
  deriving DecidableEq, Repr, Inhabited

/-- What markup declares. -/
structure Relations where
  /-- The entity that uses a bundle. -/
  bundleOwner : NameMap String
  /-- The inheritance list of an entity, as written. -/
  inheritance : NameMap String
  /-- The entities declared with a frame tag. -/
  frames : NameSet
  deriving DecidableEq, Repr

namespace Relations

/-- No declarations. -/
def empty : Relations := ⟨∅, ∅, ∅⟩

instance : EmptyCollection Relations := ⟨empty⟩
instance : Inhabited Relations := ⟨empty⟩

/-- Records an element. One without a name declares nothing. -/
def record (frameTags : List String) (r : Relations) (e : Element) : Relations :=
  let name := trimmed e.name
  if name = "" then r
  else
    { bundleOwner := r.bundleOwner.insertAll ((commaParts e.mixin).map (·, name))
      inheritance :=
        if isBlankText e.inherits then r.inheritance else r.inheritance.insert name e.inherits
      frames := if e.tag ∈ frameTags then r.frames.insert name else r.frames }

/-- Records elements in order. -/
def recordAll (frameTags : List String) (r : Relations) (elements : List Element) : Relations :=
  elements.foldl (record frameTags) r

/-- The relations of a list of elements. -/
def ofElements (frameTags : List String) (elements : List Element) : Relations :=
  recordAll frameTags ∅ elements

/-- The declarations of both; the second one wins where both declare something. -/
def merge (r s : Relations) : Relations :=
  { bundleOwner := r.bundleOwner.merge s.bundleOwner
    inheritance := r.inheritance.merge s.inheritance
    frames := s.frames.union r.frames }

/-- The declarations of a list of parts, later ones in place of earlier ones. -/
def mergeAll (parts : List Relations) : Relations := parts.foldl merge ∅

/-- The entities that use a bundle or inherit something. -/
def entityNames (r : Relations) : NameSet :=
  NameSet.ofList (r.bundleOwner.values ++ r.inheritance.keys)

/-- The names that an entity inherits. -/
def inheritsOf (r : Relations) (name : String) : List String :=
  ((r.inheritance.get? name).map parentList).getD []

/-- Whether an entity was declared with a frame tag. -/
def isFrame (r : Relations) (name : String) : Bool := name ∈ r.frames

/-- Whether nothing was declared. -/
def isEmpty (r : Relations) : Bool :=
  r.bundleOwner.isEmpty && r.inheritance.isEmpty && r.frames.isEmpty

end Relations

end Lineage
