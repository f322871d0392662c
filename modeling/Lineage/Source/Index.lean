import Lineage.Construction
import Lineage.Data.NameMap
import Lineage.Source.Store

/-!
# The index of construction sites

The snapshot of the source files together with the sites found in them, listed for each bundle in
the order of files and offsets.
-/

namespace Lineage

/-- Source files with their construction sites. -/
structure Index where
  store : Store
  /-- The sites of each bundle. -/
  sites : NameMap (List Site)
  deriving Repr

namespace Index

/-- Nothing indexed. -/
def empty : Index := ⟨∅, ∅⟩

instance : EmptyCollection Index := ⟨empty⟩
instance : Inhabited Index := ⟨empty⟩

/-- Adds a site behind those of the same bundle. -/
def addSite (found : NameMap (List Site)) (site : Site) : NameMap (List Site) :=
  found.modifyD site.bundle [] (· ++ [site])

/-- Adds a file and the sites in it. -/
def addFile (compose : String) (index : Index) (file : SourceFile) : Index :=
  { store := index.store.insert file
    sites := (Lineage.sites compose file.path file.content).foldl addSite index.sites }

/-- The index of a list of files. -/
def ofFiles (compose : String) (files : List SourceFile) : Index :=
  files.foldl (addFile compose) ∅

/-- The sites of a bundle. -/
def sitesOf (index : Index) (bundle : String) : List Site := (index.sites.get? bundle).getD []

/-- The number of sites. -/
def siteCount (index : Index) : Nat := index.sites.values.flatten.length

/-- The parents that a bundle composes at any of its sites, for each bundle that composes some. -/
def composedParents (index : Index) : NameMap NameSet :=
  NameMap.ofList <| (index.sites.entries.filter (·.2.any Site.isComposed)).map
    fun (bundle, sites) => (bundle, NameSet.ofList (sites.flatMap Site.parents))

end Index

end Lineage
