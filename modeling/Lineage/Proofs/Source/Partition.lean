import Lineage.Proofs.Construction.Matches
import Lineage.Proofs.Source.Index
import Lineage.Proofs.Source.Store

/-!
# The index as a partition

An index regroups the constructions of its files by bundles. Nothing gets lost and nothing is listed
twice; the sites of a bundle stand in the order of files and offsets; and what bundles compose can be
read off the sites. Files may be added in any order.

## Main definitions

- `Site.Before`: the order of sites
- `Index.foundSites`: the sites of a list of files, one file after the other

## Main statements

- `Index.sitesOf_ofFiles`: the sites of a bundle
- `Index.perm_values_ofFiles`: all sites
- `Index.get?_composedParents_iff`: what a bundle composes
- `Store.ofFiles_eq_of_perm`: the order in which files are added
- `Index.ofFiles_partitions`: all of it
-/

namespace Lineage

/-! ## Lists by keys -/

/-- A list falls into the parts that its keys belong to. -/
theorem perm_flatMap_filter_key {α β : Type} [DecidableEq β] {key : α → β} {keys : List β}
    (hkeys : keys.Nodup) {l : List α} (h : ∀ x ∈ l, key x ∈ keys) :
    (keys.flatMap fun k => l.filter fun x => key x = k).Perm l := by
  induction keys generalizing l with
  | nil =>
    have hempty : l = [] := List.eq_nil_iff_forall_not_mem.mpr fun x hx => nomatch h x hx
    rw [hempty]
    exact .refl _
  | cons k keys ih =>
    obtain ⟨hk, hkeys⟩ := List.nodup_cons.mp hkeys
    -- the other keys see only what the first one leaves
    have hrest : ∀ k' ∈ keys, (l.filter fun x => key x = k')
        = (l.filter fun x => !decide (key x = k)).filter fun x => key x = k' := by
      intro k' hk'
      rw [List.filter_filter]
      refine List.filter_congr fun x _ => ?_
      by_cases hx : key x = k'
      · have hne : k' ≠ k := fun heq => hk (heq ▸ hk')
        simp [hx, hne]
      · simp [hx]
    have hothers := ih hkeys (l := l.filter fun x => !decide (key x = k)) fun x hx => by
      obtain ⟨hmem, hne⟩ := List.mem_filter.mp hx
      exact (List.mem_cons.mp (h x hmem)).resolve_left (by simpa using hne)
    rw [List.flatMap_cons, List.flatMap_congr hrest]
    exact (hothers.append_left _).trans (List.filter_append_perm _ l)

/-! ## Sites -/

namespace Site

/-- The order of files and offsets. -/
def Before (s t : Site) : Prop :=
  s.path.compare t.path = .lt ∨ s.path = t.path ∧ s.offset < t.offset

theorem not_before_self (s : Site) : ¬ s.Before s := by
  intro h
  rcases h with hlt | ⟨-, hlt⟩
  · rw [show s.path.compare s.path = .eq from Std.ReflCmp.compare_self] at hlt
    cases hlt
  · exact Nat.lt_irrefl _ hlt

end Site

namespace Index

variable {compose : String} {files : List SourceFile} {bundle : String}

/-- The sites of a list of files: what each construction binds together, with its place. -/
def foundSites (compose : String) (files : List SourceFile) : List Site :=
  files.flatMap fun f => (constructions compose f.content).map fun m =>
    ⟨f.path, m.start, lineNumber f.content m.start, m.bundle, m.parents⟩

/-- The sites of files in order stand in order. -/
theorem pairwise_foundSites (h : PathOrdered files) (compose : String) :
    (foundSites compose files).Pairwise Site.Before := by
  refine List.pairwise_flatMap.mpr ⟨fun f _ => ?_, h.imp fun {f g} hlt s hs t ht => ?_⟩
  · refine List.pairwise_map.mpr ((pairwise_start_constructions compose f.content).imp ?_)
    intro m n hlt
    exact .inr ⟨rfl, hlt⟩
  · obtain ⟨m, -, rfl⟩ := List.mem_map.mp hs
    obtain ⟨n, -, rfl⟩ := List.mem_map.mp ht
    exact .inl hlt

/-! ## Regrouping -/

theorem sites_foldl_addFile (index : Index) :
    (files.foldl (addFile compose) index).sites
      = (foundSites compose files).foldl addSite index.sites := by
  induction files generalizing index with
  | nil => rfl
  | cons f files ih =>
    have hcons : foundSites compose (f :: files)
        = Lineage.sites compose f.path f.content ++ foundSites compose files := List.flatMap_cons
    rw [List.foldl_cons, ih, hcons, List.foldl_append]
    rfl

theorem sites_ofFiles (compose : String) (files : List SourceFile) :
    (ofFiles compose files).sites = (foundSites compose files).foldl addSite ∅ :=
  sites_foldl_addFile ∅

/-- Sites are added behind those that a bundle has already. -/
theorem getD_get?_foldl_addSite (found : NameMap (List Site)) (sites : List Site) :
    ((sites.foldl addSite found).get? bundle).getD []
      = (found.get? bundle).getD [] ++ sites.filter (·.bundle = bundle) := by
  induction sites generalizing found with
  | nil => exact (List.append_nil _).symm
  | cons s sites ih =>
    rw [List.foldl_cons, ih, addSite, NameMap.get?_modifyD]
    by_cases hs : s.bundle = bundle
    · simp [hs]
    · simp [hs, Ne.symm hs]

/-- Every bundle of a site is a key, and no other one becomes one. -/
theorem mem_keys_foldl_addSite (found : NameMap (List Site)) (sites : List Site) :
    bundle ∈ (sites.foldl addSite found).keys ↔
      (∃ s ∈ sites, s.bundle = bundle) ∨ bundle ∈ found.keys := by
  induction sites generalizing found with
  | nil => simp
  | cons s sites ih =>
    have hstep : bundle ∈ (addSite found s).keys ↔ s.bundle = bundle ∨ bundle ∈ found.keys := by
      simp only [NameMap.mem_keys_iff, addSite, NameMap.get?_modifyD]
      by_cases hs : s.bundle = bundle
      · simp [hs]
      · simp [hs, Ne.symm hs]
    rw [List.foldl_cons, ih, hstep, List.exists_mem_cons_iff, or_assoc, or_left_comm]

/-- The sites of a bundle are those that name it, in the order in which they were found. -/
theorem sitesOf_ofFiles (compose : String) (files : List SourceFile) (bundle : String) :
    (ofFiles compose files).sitesOf bundle
      = (foundSites compose files).filter (·.bundle = bundle) := by
  rw [sitesOf, sites_ofFiles, getD_get?_foldl_addSite]
  rfl

theorem values_eq_flatMap (index : Index) :
    index.sites.values.flatten = index.sites.keys.flatMap index.sitesOf := by
  rw [List.flatMap_def, NameMap.keys, NameMap.values, List.map_map]
  congr 1
  refine List.map_congr_left fun e he => ?_
  have hbound : index.sites.get? e.1 = some e.2 := NameMap.mem_entries_iff.mp he
  rw [Function.comp_apply, sitesOf, hbound, Option.getD_some]

/-- All bundles together have all sites, each once. -/
theorem perm_values_ofFiles (compose : String) (files : List SourceFile) :
    (ofFiles compose files).sites.values.flatten.Perm (foundSites compose files) := by
  have hkeys : ∀ s ∈ foundSites compose files, s.bundle ∈ (ofFiles compose files).sites.keys := by
    intro s hs
    rw [sites_ofFiles, mem_keys_foldl_addSite]
    exact .inl ⟨s, hs, rfl⟩
  rw [values_eq_flatMap, List.flatMap_congr fun b _ => sitesOf_ofFiles compose files b]
  exact perm_flatMap_filter_key (ofFiles compose files).sites.nodup_keys hkeys

/-! ## Composed parents -/

/-- A bundle composes something if one of its sites does, and then all that its sites compose. -/
theorem get?_composedParents_iff {index : Index} {parents : NameSet} :
    index.composedParents.get? bundle = some parents ↔
      (∃ s ∈ index.sitesOf bundle, s.isComposed = true) ∧
        parents = NameSet.ofList ((index.sitesOf bundle).flatMap Site.parents) := by
  have hnodup : (((index.sites.entries.filter (·.2.any Site.isComposed)).map fun e =>
      (e.1, NameSet.ofList (e.2.flatMap Site.parents))).map (·.1)).Nodup := by
    rw [List.map_map]
    exact index.sites.nodup_keys.sublist (List.filter_sublist.map _)
  have hsites : ∀ sites, (bundle, sites) ∈ index.sites.entries →
      index.sitesOf bundle = sites := by
    intro sites hmem
    rw [sitesOf, NameMap.mem_entries_iff.mp hmem, Option.getD_some]
  rw [composedParents, NameMap.get?_ofList_eq_some_iff hnodup, List.mem_map]
  constructor
  · intro h
    obtain ⟨⟨b, sites⟩, hmem, heq⟩ := h
    obtain ⟨hentry, hcomposed⟩ := List.mem_filter.mp hmem
    obtain ⟨rfl, rfl⟩ := Prod.mk.inj heq
    rw [hsites sites hentry]
    exact ⟨List.any_eq_true.mp hcomposed, rfl⟩
  · intro h
    obtain ⟨⟨s, hs, hcomposed⟩, hparents⟩ := h
    cases hbound : index.sites.get? bundle with
    | none =>
      rw [sitesOf, hbound] at hs
      cases hs
    | some sites =>
      have hentry : (bundle, sites) ∈ index.sites.entries := NameMap.mem_entries_iff.mpr hbound
      rw [hsites sites hentry] at hs hparents
      refine ⟨(bundle, sites), List.mem_filter.mpr ⟨hentry, ?_⟩, by rw [hparents]⟩
      exact List.any_eq_true.mpr ⟨s, hs, hcomposed⟩

/-- What bundles compose depends on which sites they have, and not on their order. -/
theorem composedParents_eq_of_mem_iff {index index' : Index}
    (h : ∀ b s, s ∈ index.sitesOf b ↔ s ∈ index'.sitesOf b) :
    index.composedParents = index'.composedParents := by
  apply NameMap.ext
  intro b
  have hparents : NameSet.ofList ((index.sitesOf b).flatMap Site.parents)
      = NameSet.ofList ((index'.sitesOf b).flatMap Site.parents) := by
    apply NameSet.ext
    intro p
    simp only [NameSet.mem_ofList, List.mem_flatMap, h b]
  ext parents
  simp only [get?_composedParents_iff, hparents, h b]

end Index

/-! ## The order of files -/

namespace Store

/-- Files at different paths may be added in any order. -/
theorem ofFiles_eq_of_perm {files files' : List SourceFile} (h : PathOrdered files)
    (hperm : files'.Perm files) : ofFiles files' = ofFiles files := by
  have hself : ∀ f : SourceFile, ¬ f.path.compare f.path = .lt := by
    intro f hlt
    rw [show f.path.compare f.path = .eq from Std.ReflCmp.compare_self] at hlt
    cases hlt
  have : Std.Irrefl fun f g : SourceFile => f.path.compare g.path = .lt := ⟨hself⟩
  have : Std.Antisymm fun f g : SourceFile => f.path.compare g.path = .lt :=
    ⟨fun f g hlt hgt => absurd (Std.TransCmp.lt_trans hlt hgt) (hself f)⟩
  -- of the listed files no two are at the same path
  have : Std.Symm fun f g : SourceFile => f.path.compare g.path ≠ .eq :=
    ⟨fun f g hne heq => hne (Std.OrientedCmp.eq_symm heq)⟩
  have hdiff : files.Pairwise fun f g => f.path.compare g.path ≠ .eq :=
    h.imp fun hlt heq => by
      rw [hlt] at heq
      cases heq
  apply eq_of_files
  apply List.Pairwise.eq_of_mem_iff (ofFiles files').ordered (ofFiles files).ordered
  intro f
  rw [files_ofFiles h]
  constructor
  · intro hf
    exact hperm.mem_iff.mp (mem_of_mem_ofFiles hf)
  · intro hf
    obtain ⟨g, hg, heq⟩ := exists_mem_ofFiles (hperm.mem_iff.mpr hf)
    have hmem : g ∈ files := hperm.mem_iff.mp (mem_of_mem_ofFiles hg)
    have hsame : g = f := by
      by_contra hne
      exact hdiff.forall hmem hf hne heq
    rwa [← hsame]

end Store

namespace Index

/-- The index of files in order lists each of their constructions once, with its place, its bundle and
    its arguments: under that bundle and behind those that stand before it. A bundle composes
    something if one of its sites does, and then what all of its sites compose. Files that are added
    in another order make the same store and compose the same parents. -/
theorem ofFiles_partitions {files : List SourceFile} (h : PathOrdered files) (compose : String) :
    let index := ofFiles compose files
    (index.store.files = files ∧ index.sites.values.flatten.Perm (foundSites compose files) ∧
      (foundSites compose files).Nodup ∧
      index.siteCount = (files.map fun f => (constructions compose f.content).length).sum) ∧
    (∀ bundle, (index.sitesOf bundle).Pairwise Site.Before ∧
      ∀ s, s ∈ index.sitesOf bundle ↔ s ∈ foundSites compose files ∧ s.bundle = bundle) ∧
    (∀ bundle, (∃ parents, index.composedParents.get? bundle = some parents) ↔
      ∃ s ∈ index.sitesOf bundle, s.isComposed = true) ∧
    (∀ bundle parents, index.composedParents.get? bundle = some parents →
      ∀ p, p ∈ parents ↔ ∃ s ∈ index.sitesOf bundle, p ∈ s.parents) ∧
    ∀ files', files'.Perm files →
      (ofFiles compose files').store = index.store ∧
        (ofFiles compose files').composedParents = index.composedParents := by
  intro index
  have hordered := pairwise_foundSites h compose
  have hmem : ∀ bundle s, s ∈ index.sitesOf bundle ↔
      s ∈ foundSites compose files ∧ s.bundle = bundle := by
    intro bundle s
    simp only [index, sitesOf_ofFiles, List.mem_filter, decide_eq_true_eq]
  refine ⟨⟨?_, perm_values_ofFiles compose files, ?_, ?_⟩, fun bundle => ⟨?_, hmem bundle⟩,
    fun bundle => ?_, fun bundle parents hfound p => ?_, fun files' hperm => ⟨?_, ?_⟩⟩
  · simp only [index, store_ofFiles, Store.files_ofFiles h]
  · refine hordered.imp fun {s t} hbefore heq => ?_
    rw [heq] at hbefore
    exact t.not_before_self hbefore
  · rw [siteCount, (perm_values_ofFiles compose files).length_eq, foundSites, List.length_flatMap]
    simp only [List.length_map]
  · simp only [index, sitesOf_ofFiles]
    exact hordered.filter _
  · simp only [get?_composedParents_iff, exists_and_left, exists_eq, and_true]
  · obtain ⟨-, rfl⟩ := get?_composedParents_iff.mp hfound
    simp only [NameSet.mem_ofList, List.mem_flatMap]
  · simp only [index, store_ofFiles, Store.ofFiles_eq_of_perm h hperm]
  · apply composedParents_eq_of_mem_iff
    intro b s
    -- the same files have the same sites
    simp only [hmem, sitesOf_ofFiles, List.mem_filter, decide_eq_true_eq, foundSites,
      List.mem_flatMap, hperm.mem_iff]

/-- A bundle that is composed in one file and empty in another one. -/
def scattered : List SourceFile :=
  [.ofContent ⟨"ui/box.lua"⟩ (Utf8.ofString "Box = CreateFromMixins(Shape, Area)\nArea = \x7b\x7d\n"),
    .ofContent ⟨"ui.lua"⟩ (Utf8.ofString "Box = \x7b\x7d\n")]

/-- Its two sites are listed together, and what it composes comes from the first one. -/
theorem ofFiles_partitions_scattered :
    PathOrdered scattered ∧
      (ofFiles "CreateFromMixins" scattered).siteCount = 3 ∧
      (ofFiles "CreateFromMixins" scattered).sitesOf "Box"
        = [⟨⟨"ui/box.lua"⟩, 0, 1, "Box", ["Shape", "Area"]⟩, ⟨⟨"ui.lua"⟩, 0, 1, "Box", []⟩] ∧
      (∃ parents, (ofFiles "CreateFromMixins" scattered).composedParents.get? "Box" = some parents ∧
        "Area" ∈ parents) ∧
      (ofFiles "CreateFromMixins" scattered.reverse).store
        = (ofFiles "CreateFromMixins" scattered).store := by
  have hordered : PathOrdered scattered := by
    unfold PathOrdered
    decide +kernel
  have hsites : (ofFiles "CreateFromMixins" scattered).sitesOf "Box"
      = [⟨⟨"ui/box.lua"⟩, 0, 1, "Box", ["Shape", "Area"]⟩, ⟨⟨"ui.lua"⟩, 0, 1, "Box", []⟩] := by
    decide +kernel
  have hlengths : (scattered.map fun f => (constructions "CreateFromMixins" f.content).length).sum
      = 3 := by
    decide +kernel
  obtain ⟨⟨-, -, -, hcount⟩, -, hcomposed, hparents, horder⟩ :=
    ofFiles_partitions hordered "CreateFromMixins"
  obtain ⟨parents, hfound⟩ := (hcomposed "Box").mpr (by simp [hsites, Site.isComposed])
  have harea : "Area" ∈ parents := (hparents "Box" parents hfound "Area").mpr (by simp [hsites])
  exact ⟨hordered, hcount.trans hlengths, hsites, ⟨parents, hfound, harea⟩,
    (horder scattered.reverse scattered.reverse_perm).1⟩

end Index

end Lineage
