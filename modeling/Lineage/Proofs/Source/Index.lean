import Lineage.Proofs.Data.Names
import Lineage.Source.Index

/-!
# What an index says of bundles

An index lists the sites of each bundle with their places. The parents that bundles compose depend
only on the bundles and arguments of the constructions, in the order of files and offsets, and not
on where they stand.

## Main definitions

- `Index.outline` is an index without the places

## Main statements

- `Index.composedParents_ofFiles`: the same constructions compose the same parents
-/

namespace Lineage

namespace Index

/-- The bundles of an index, each with the arguments of its sites. -/
def outline (index : Index) : List (String × List (List String)) :=
  index.sites.entries.map fun e => (e.1, e.2.map (·.parents))

theorem composedParents_eq_of_outline {index index' : Index} (h : index.outline = index'.outline) :
    index.composedParents = index'.composedParents := by
  -- both filters and both lists of parents can be read off the outline
  have houtline : ∀ index : Index, index.composedParents
      = NameMap.ofList ((index.outline.filter (·.2.any (!·.isEmpty))).map
          fun e => (e.1, NameSet.ofList e.2.flatten)) := by
    intro index
    rw [composedParents, outline, List.filter_map, List.map_map]
    simp only [Function.comp_def, List.any_map, List.flatMap_def]
    rfl
  rw [houtline, houtline, h]

/-! ## Building -/

/-- Adds the arguments of a site to an outline. -/
def addArguments (found : List (String × List (List String))) (site : String × List String) :
    List (String × List (List String)) :=
  insertEntry site.1 ((found.lookup site.1).getD [] ++ [site.2]) found

theorem outline_addSite (found : NameMap (List Site)) (site : Site) :
    (addSite found site).entries.map (fun e => (e.1, e.2.map (·.parents)))
      = addArguments (found.entries.map fun e => (e.1, e.2.map (·.parents)))
          (site.bundle, site.parents) := by
  have hlookup := NameMap.lookup_map (fun sites : List Site => sites.map (·.parents)) site.bundle
    found.entries
  rw [addArguments, hlookup]
  show (insertEntry site.bundle ((found.entries.lookup site.bundle).getD [] ++ [site])
    found.entries).map _ = _
  rw [← NameMap.insertEntry_map (fun sites : List Site => sites.map (·.parents))]
  cases found.entries.lookup site.bundle <;> simp

theorem outline_foldl_addSite (found : NameMap (List Site)) (sites : List Site) :
    (sites.foldl addSite found).entries.map (fun e => (e.1, e.2.map (·.parents)))
      = (sites.map fun site => (site.bundle, site.parents)).foldl addArguments
          (found.entries.map fun e => (e.1, e.2.map (·.parents))) := by
  induction sites generalizing found with
  | nil => rfl
  | cons site rest ih => rw [List.foldl_cons, ih, outline_addSite, List.map_cons, List.foldl_cons]

/-- What the constructions of a content bind together, in order. -/
def arguments (compose : String) (content : Bytes) : List (String × List String) :=
  (constructions compose content).map fun m => (m.bundle, m.parents)

theorem outline_addFile (compose : String) (index : Index) (file : SourceFile) :
    (addFile compose index file).outline
      = (arguments compose file.content).foldl addArguments index.outline := by
  rw [outline, addFile, outline_foldl_addSite, Lineage.sites, List.map_map]
  rfl

theorem outline_foldl_addFile (compose : String) (index : Index) (files : List SourceFile) :
    (files.foldl (addFile compose) index).outline
      = (files.flatMap fun f => arguments compose f.content).foldl addArguments index.outline := by
  induction files generalizing index with
  | nil => rfl
  | cons file rest ih =>
    rw [List.foldl_cons, ih, outline_addFile, List.flatMap_cons, List.foldl_append]

theorem store_foldl_addFile (compose : String) (index : Index) (files : List SourceFile) :
    (files.foldl (addFile compose) index).store = files.foldl Store.insert index.store := by
  induction files generalizing index with
  | nil => rfl
  | cons file rest ih =>
    rw [List.foldl_cons, ih]
    rfl

theorem store_ofFiles (compose : String) (files : List SourceFile) :
    (ofFiles compose files).store = Store.ofFiles files :=
  store_foldl_addFile compose ∅ files

/-- Files with the same constructions, wherever those stand in them, compose the same parents. -/
theorem composedParents_ofFiles {compose : String} {files : List SourceFile}
    {change : SourceFile → SourceFile}
    (h : ∀ f ∈ files, arguments compose (change f).content = arguments compose f.content) :
    (ofFiles compose (files.map change)).composedParents
      = (ofFiles compose files).composedParents := by
  apply composedParents_eq_of_outline
  rw [ofFiles, ofFiles, outline_foldl_addFile, outline_foldl_addFile, List.flatMap_map,
    List.flatMap_def, List.flatMap_def, List.map_congr_left h]

end Index

end Lineage
