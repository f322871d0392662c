import Lineage.ClassLine
import Lineage.Diagnostic
import Lineage.Markup.Relations
import Lineage.Settings.Basic
import Lineage.Source.Index

/-!
# One pass of annotation

A construction is open when no annotation stands above it and nobody else declares its bundle. A
pass puts a class line above every open construction whose corpus parents were all declared when
the pass began; the others are deferred, unless their bundle was released from waiting.

## Main definitions

- `Annotator.parentsFor` and `Annotator.waitingOn` say what a construction needs
- `Annotator.annotate` puts class lines into a content
- `Annotator.pass` runs over a whole store
-/

namespace Lineage

/-- What the annotation of a corpus goes by. -/
structure Annotator where
  settings : SiteSettings
  relations : Relations
  /-- The classes that are declared outside the corpus. -/
  authoritative : NameSet

namespace Annotator

/-! ## Constructions -/

/-- The constructions of a content. -/
def constructionsIn (a : Annotator) (content : Bytes) : List Match :=
  constructions a.settings.composeFunction content

/-- Whether an annotation stands above a construction. -/
def annotated (a : Annotator) (content : Bytes) (m : Match) : Bool :=
  isAnnotated a.settings.annotationMarker content m.start

/-- Whether a construction still asks for an annotation. -/
def isOpen (a : Annotator) (content : Bytes) (m : Match) : Bool :=
  !a.annotated content m && !decide (m.bundle ∈ a.authoritative)

/-- The parents of a construction: what it composes, or else what its entity inherits. A bundle is
    no parent of its own. -/
def parentsFor (a : Annotator) (m : Match) : List String :=
  (if m.parents.isEmpty then a.relations.inheritsOf m.bundle else m.parents).filter (· ≠ m.bundle)

/-- The class line of a construction. -/
def line (a : Annotator) (m : Match) : Bytes :=
  Utf8.ofString (ClassLine.render ⟨m.bundle, a.parentsFor m⟩ a.settings.annotationMarker)

/-! ## Bundles of a store -/

/-- The bundles that are constructed somewhere. -/
def corpusBundles (a : Annotator) (store : Store) : NameSet :=
  NameSet.ofList (store.files.flatMap fun f => (a.constructionsIn f.content).map (·.bundle))

/-- The bundles with an annotated construction. -/
def declaredBundles (a : Annotator) (store : Store) : NameSet :=
  NameSet.ofList <| store.files.flatMap fun f =>
    ((a.constructionsIn f.content).filter (a.annotated f.content)).map (·.bundle)

/-! ## Choosing -/

/-- What a pass knows of the corpus. -/
structure Knowledge where
  /-- The bundles that are constructed somewhere. -/
  corpus : NameSet
  /-- The bundles that had an annotation when the pass began. -/
  declared : NameSet
  /-- The bundles that no longer wait. -/
  released : NameSet

/-- The parents whose declaration a construction waits for. -/
def waitingOn (a : Annotator) (k : Knowledge) (m : Match) : List String :=
  (a.parentsFor m).filter fun p =>
    decide (p ∈ k.corpus) && !decide (p ∈ k.declared) && !decide (p ∈ a.authoritative)

/-- Whether a construction may be annotated now. -/
def isReady (a : Annotator) (k : Knowledge) (m : Match) : Bool :=
  (a.waitingOn k m).isEmpty || decide (m.bundle ∈ k.released)

/-- The open constructions of a content. -/
def openIn (a : Annotator) (content : Bytes) : List Match :=
  (a.constructionsIn content).filter (a.isOpen content)

/-- The constructions of a content that a pass annotates. -/
def chosen (a : Annotator) (k : Knowledge) (content : Bytes) : List Match :=
  (a.openIn content).filter (a.isReady k)

/-- The constructions of a file that a pass defers, the last one first. -/
def deferred (a : Annotator) (k : Knowledge) (f : SourceFile) : List BlockedSite :=
  ((a.openIn f.content).filter fun m => !a.isReady k m).reverse.map fun m =>
    { bundle := m.bundle
      path := f.path
      line := lineNumber f.content m.start
      waitingOn := a.waitingOn k m }

/-! ## Writing -/

/-- A content with a piece put in at an offset. -/
def insertAt (content : Bytes) (offset : Nat) (piece : Bytes) : Bytes :=
  content.take offset ++ piece ++ content.drop offset

/-- Puts class lines above constructions of a content. The last one goes first, so the offsets of
    the others keep their meaning. -/
def annotate (a : Annotator) (content : Bytes) (ms : List Match) : Bytes :=
  ms.foldr (fun m text => insertAt text (lineStart content m.start) (a.line m)) content

/-- What a pass did. -/
structure Pass where
  store : Store
  inserted : Nat
  /-- The files that changed, in the order of the store. -/
  changed : List Path
  blocked : List BlockedSite

/-- Runs over all files once. -/
def pass (a : Annotator) (corpus released : NameSet) (store : Store) : Pass :=
  let k : Knowledge := ⟨corpus, a.declaredBundles store, released⟩
  { store := store.edit fun f => a.annotate f.content (a.chosen k f.content)
    inserted := (store.files.flatMap fun f => a.chosen k f.content).length
    changed := (store.files.filter fun f => !(a.chosen k f.content).isEmpty).map (·.path)
    blocked := store.files.flatMap (a.deferred k) }

end Annotator

end Lineage
