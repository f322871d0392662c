import Lineage.Proofs.Annotation.MetaHeader
import Lineage.Proofs.Run.Reading
import Lineage.Proofs.Run.Saving
import Lineage.Proofs.Source.Index
import Lineage.Proofs.Source.Store

/-!
# Headers on a disk

The header can be put into the source files below a root in two ways: into one file after another on
the disk, or into a store of all of them that is saved afterwards. Both change the same files in the
same way, because no two files that are found lie at the same place, so that writing one does not
change what is read from the next.

## Main definitions

- `applyHeadersInStore`: the way through a store

## Main statements

- `Disk.exists_scanSources_eq`: the source files of a root are always read
- `Disk.exists_applyHeader_eq`: one file
- `Disk.exists_applyHeaders_eq`, `Disk.applyHeadersInStore_eq`: what either way writes
- `Disk.applyHeaders_exact`: both ways, and what the files hold afterwards
-/

namespace Lineage

/-- Reads the source files at or below a root into a store, puts the header into those that lack
    it and saves the store. Gives the number of files that lacked it and the number of files
    written. -/
def applyHeadersInStore {m : Type → Type} [Monad m] [Host m] (s : ScanSettings)
    (compose header : String) (root : Path) : ExceptT Failure m (Nat × Nat) := do
  let index ← scanSources s compose root
  let (written, _) ← ExceptT.lift (persist (index.store.addHeaders header))
  return (index.store.countWithoutHeader header, ← MonadExcept.ofExcept written)

/-! ## Headers in files -/

/-- A file with the header in front, if it lacked it. -/
def SourceFile.withHeader (header : String) (f : SourceFile) : SourceFile :=
  f.replace (Lineage.withHeader header f.content)

@[simp] theorem SourceFile.path_withHeader (header : String) (f : SourceFile) :
    (f.withHeader header).path = f.path :=
  path_replace ..

@[simp] theorem SourceFile.content_withHeader (header : String) (f : SourceFile) :
    (f.withHeader header).content = Lineage.withHeader header f.content :=
  content_replace ..

/-- The files of a list that lack the header. -/
def withoutHeader (header : String) (files : List SourceFile) : List SourceFile :=
  files.filter fun f => (withHeader? header f.content).isSome

variable {header : String} {content : Bytes}

theorem isSome_withHeader?_iff :
    (withHeader? header content).isSome ↔ ¬ Utf8.ofString header <+: content := by
  rw [withHeader?, ← List.isPrefixOf_iff_prefix]
  split <;> simp_all

/-- The header changes what lacks it: it makes it longer. -/
theorem withHeader_ne_iff :
    withHeader header content ≠ content ↔ (withHeader? header content).isSome := by
  rw [isSome_withHeader?_iff]
  constructor
  · exact fun hne hstarts => hne (withHeader_eq_self hstarts)
  · intro hlacks heq
    have hlength := congrArg List.length heq
    rw [withHeader_eq_append hlacks] at hlength
    simp only [List.length_append, List.length_singleton] at hlength
    omega

namespace Store

theorem countWithoutHeader_eq (store : Store) :
    store.countWithoutHeader header = (withoutHeader header store.files).length :=
  List.countP_eq_length_filter

/-- Of a store without dirty files those that lack the header get dirty. -/
theorem dirtyFiles_addHeaders {store : Store} (hclean : ∀ f ∈ store.files, f.dirty = false) :
    (store.addHeaders header).dirtyFiles
      = (withoutHeader header store.files).map (SourceFile.withHeader header) := by
  have hfilter : (fun f : SourceFile => decide (Lineage.withHeader header f.content ≠ f.content))
      = fun f => (withHeader? header f.content).isSome := by
    funext f
    rw [Bool.eq_iff_iff, decide_eq_true_iff, withHeader_ne_iff]
  rw [addHeaders, dirtyFiles_edit hclean, withoutHeader, hfilter]
  rfl

end Store

namespace Disk

open Program (bind_eq_iff bind_eq_ok_iff bind_eq_error_iff lift_eq_ok_iff pure_eq_ok_iff)

variable {d d' : Disk} {root path : Path} {extension : String}

/-! ## The source files of a root -/

theorem exists_scanSources_eq (hroot : ∃ e, d.entry root = .ok e) (s : ScanSettings)
    (compose : String) :
    ∃ files : List SourceFile, files.map (·.path) = d.filesWith root s.sourceExtension ∧
      PathOrdered files ∧ (∀ f ∈ files, d.read f.path = .ok f.content ∧ f.dirty = false) ∧
      scanSources (m := StateM Disk) s compose root d = (.ok (.ofFiles compose files), d) := by
  let held := fun path => (d.read path).toOption.getD []
  let files := (d.filesWith root s.sourceExtension).map fun path =>
    SourceFile.ofContent path (held path)
  have hpaths : files.map (·.path) = d.filesWith root s.sourceExtension := by
    rw [List.map_map]
    exact List.map_id _
  have hread : ∀ path ∈ d.filesWith root s.sourceExtension, d.read path = .ok (held path) := by
    intro path hpath
    obtain ⟨content, hcontent⟩ := exists_read_of_mem_filesWith hroot hpath
    rw [hcontent]
    show _ = Except.ok ((d.read path).toOption.getD [])
    rw [hcontent]
    rfl
  refine ⟨files, hpaths, ?_, fun f hf => ?_, ?_⟩
  · rw [pathOrdered_iff, hpaths]
    exact pairwise_lt_filesWith d root s.sourceExtension
  · obtain ⟨path, hpath, rfl⟩ := List.mem_map.mp hf
    exact ⟨hread path hpath, rfl⟩
  · refine scanSources_eq_ok_iff.mpr ⟨⟨hroot, files, rfl, ?_⟩, rfl⟩
    rw [List.forall₂_map_right_iff, List.forall₂_same]
    exact fun path hpath => ⟨held path, hread path hpath, rfl⟩

/-! ## One file after another -/

/-- A file that can be read is written if it lacks the header. -/
theorem exists_applyHeader_eq (header : String) {f : SourceFile}
    (hread : d.read f.path = .ok f.content) :
    ∃ d', applyHeader (m := StateM Disk) header f.path d
        = (.ok (withHeader? header f.content).isSome, d') ∧
      d.Written ((withoutHeader header [f]).map (SourceFile.withHeader header)) d' := by
  have hcontent : readContent (m := StateM Disk) f.path d = (.ok f.content, d) :=
    readContent_eq_ok_iff.mpr ⟨hread, rfl⟩
  rw [applyHeader, withoutHeader]
  cases hheader : withHeader? header f.content with
  | none =>
    refine ⟨d, bind_eq_ok_iff.mpr ⟨f.content, d, hcontent, ?_⟩, ?_⟩
    · rw [hheader]
      rfl
    · rw [List.filter_cons_of_neg (by simp [hheader])]
      exact .nil d
  | some new =>
    obtain ⟨d', hwrite⟩ := exists_write_of_read hread new
    refine ⟨d', bind_eq_ok_iff.mpr ⟨f.content, d, hcontent, ?_⟩, ?_⟩
    · rw [hheader]
      exact bind_eq_ok_iff.mpr ⟨(), d', writeContent_eq_ok_iff.mpr hwrite, rfl⟩
    · rw [List.filter_cons_of_pos (by simp [hheader])]
      refine .cons ?_ (.nil d')
      rw [SourceFile.path_withHeader, SourceFile.content_withHeader, withHeader, hheader]
      exact hwrite

/-- Files at different locations that can be read all get the header, and those that have it are
    left alone. A file that was written does not change what the files behind it hold. -/
theorem exists_mapM_applyHeader_eq (header : String) {files : List SourceFile}
    (hread : ∀ f ∈ files, d.read f.path = .ok f.content) (hapart : PlacedApart files) :
    ∃ d', ((files.map (·.path)).mapM (applyHeader (m := StateM Disk) header)) d
        = (.ok (files.map fun f => (withHeader? header f.content).isSome), d') ∧
      d.Written ((withoutHeader header files).map (SourceFile.withHeader header)) d' := by
  induction files generalizing d with
  | nil => exact ⟨d, rfl, .nil d⟩
  | cons f rest ih =>
    obtain ⟨hfirst, hrest⟩ := List.pairwise_cons.mp hapart
    obtain ⟨d₁, happlied, hwritten⟩ :=
      exists_applyHeader_eq header (hread f (List.mem_cons_self ..))
    have hread₁ : ∀ g ∈ rest, d₁.read g.path = .ok g.content := by
      intro g hg
      refine hwritten.changes.read_of_not (hread g (List.mem_cons_of_mem _ hg)) ?_
      rintro ⟨_, hchanged, hlocation⟩
      obtain ⟨k, hk, rfl⟩ := List.mem_map.mp hchanged
      obtain rfl := List.mem_singleton.mp (List.mem_filter.mp hk).1
      rw [SourceFile.path_withHeader] at hlocation
      exact hfirst g hg hlocation
    -- the rest of the files meet the disk with the first one done
    obtain ⟨d', hothers, hwritten'⟩ := ih hread₁ hrest
    refine ⟨d', Program.mapM_cons_eq_ok happlied hothers, ?_⟩
    have hsplit : withoutHeader header (f :: rest)
        = withoutHeader header [f] ++ withoutHeader header rest := List.filter_append [f] rest
    rw [hsplit, List.map_append]
    exact hwritten.append hwritten'

/-! ## What is written -/

section

variable {files : List SourceFile} (hroot : ∃ e, d.entry root = .ok e)
  (hpaths : files.map (·.path) = d.filesWith root extension)
  (hread : ∀ f ∈ files, d.read f.path = .ok f.content)

include hpaths in
theorem placedApart_of_paths : PlacedApart files := by
  rw [placedApart_iff, hpaths]
  exact pairwise_location_filesWith d root extension

include hroot hpaths hread in
/-- One file after another, those that lack the header are written. -/
theorem exists_applyHeaders_eq (header : String) :
    ∃ d', applyHeaders (m := StateM Disk) root extension header d
        = (.ok (withoutHeader header files).length, d') ∧
      d.Written ((withoutHeader header files).map (SourceFile.withHeader header)) d' := by
  obtain ⟨d', hall, hwritten⟩ :=
    exists_mapM_applyHeader_eq header hread (placedApart_of_paths hpaths)
  rw [hpaths] at hall
  refine ⟨d', ?_, hwritten⟩
  rw [applyHeaders, bind_eq_ok_iff]
  refine ⟨d.filesWith root extension, d, discoverFiles_eq_ok_iff.mpr ⟨hroot, rfl, rfl⟩, ?_⟩
  rw [bind_eq_ok_iff]
  refine ⟨_, d', hall, pure_eq_ok_iff.mpr ⟨?_, rfl⟩⟩
  rw [List.countP_map, withoutHeader, List.countP_eq_length_filter]
  rfl

include hpaths hread in
/-- What the files hold after the header was put into those that lacked it. -/
theorem read_of_written_withHeader
    (hwritten : d.Written ((withoutHeader header files).map (SourceFile.withHeader header)) d')
    {f : SourceFile} (hf : f ∈ files) :
    d'.read f.path = .ok (Lineage.withHeader header f.content) := by
  have hcontent := hread f hf
  have hapart := placedApart_of_paths hpaths
  by_cases hlacks : (withHeader? header f.content).isSome
  · have hchanged :
        PlacedApart ((withoutHeader header files).map (SourceFile.withHeader header)) := by
      simp only [PlacedApart, List.pairwise_map, SourceFile.path_withHeader]
      exact hapart.filter _
    have hmem : f.withHeader header ∈
        (withoutHeader header files).map (SourceFile.withHeader header) :=
      List.mem_map_of_mem (List.mem_filter.mpr ⟨hf, hlacks⟩)
    have hread' := hwritten.read hchanged hmem (by rw [SourceFile.path_withHeader]; exact hcontent)
    rw [SourceFile.path_withHeader, SourceFile.content_withHeader] at hread'
    exact hread'
  · -- it starts with the header, and what was written lies elsewhere
    have hhas : Lineage.withHeader header f.content = f.content :=
      not_not.mp fun hne => hlacks (withHeader_ne_iff.mp hne)
    rw [hhas]
    refine hwritten.changes.read_of_not hcontent ?_
    rintro ⟨_, hchanged, hlocation⟩
    obtain ⟨g, hg, rfl⟩ := List.mem_map.mp hchanged
    obtain ⟨hg, hlacks'⟩ := List.mem_filter.mp hg
    rw [SourceFile.path_withHeader] at hlocation
    obtain rfl := hapart.eq_of_location hg hf hlocation
    exact hlacks hlacks'

/-- Through a store, the same files are written in the same order. -/
theorem applyHeadersInStore_eq {s : ScanSettings} {compose : String} (hordered : PathOrdered files)
    (hclean : ∀ f ∈ files, f.dirty = false)
    (hscan : scanSources (m := StateM Disk) s compose root d = (.ok (.ofFiles compose files), d))
    (hwritten : d.Written ((withoutHeader header files).map (SourceFile.withHeader header)) d') :
    applyHeadersInStore (m := StateM Disk) s compose header root d
      = (.ok ((withoutHeader header files).length, (withoutHeader header files).length), d') := by
  have hfiles : (Index.ofFiles compose files).store.files = files := by
    rw [Index.store_ofFiles, Store.files_ofFiles hordered]
  have hdirty : ((Index.ofFiles compose files).store.addHeaders header).dirtyFiles
      = (withoutHeader header files).map (SourceFile.withHeader header) := by
    rw [Store.dirtyFiles_addHeaders (by rw [hfiles]; exact hclean), hfiles]
  have hpersist := persist_of_written (hdirty ▸ hwritten)
  rw [hdirty, List.length_map] at hpersist
  rw [applyHeadersInStore, bind_eq_ok_iff]
  refine ⟨_, d, hscan, ?_⟩
  rw [bind_eq_ok_iff]
  refine ⟨_, d', lift_eq_ok_iff.mpr hpersist, ?_⟩
  rw [bind_eq_ok_iff]
  refine ⟨_, d', rfl, pure_eq_ok_iff.mpr ⟨?_, rfl⟩⟩
  rw [Store.countWithoutHeader_eq, hfiles]

include hread in
/-- The same files are found after the header was put into those that lacked it. -/
theorem filesWith_of_written_withHeader
    (hwritten : d.Written ((withoutHeader header files).map (SourceFile.withHeader header)) d') :
    d'.filesWith root extension = d.filesWith root extension := by
  refine hwritten.changes.filesWith ?_
  rintro here ⟨_, hchanged, rfl⟩
  obtain ⟨f, hf, rfl⟩ := List.mem_map.mp hchanged
  have hcontent := hread f (List.mem_filter.mp hf).1
  refine .inl ?_
  rw [SourceFile.path_withHeader, (read_eq_ok_iff.mp hcontent).2]
  rfl

include hroot hpaths hread in
/-- There is nothing left to do after that. -/
theorem applyHeaders_of_written_withHeader
    (hwritten : d.Written ((withoutHeader header files).map (SourceFile.withHeader header)) d') :
    applyHeaders (m := StateM Disk) root extension header d' = (.ok 0, d') := by
  have hpaths' : (files.map (SourceFile.withHeader header)).map (·.path)
      = d'.filesWith root extension := by
    rw [filesWith_of_written_withHeader hread hwritten, ← hpaths, List.map_map]
    exact List.map_congr_left fun f _ => SourceFile.path_withHeader header f
  have hread' : ∀ f ∈ files.map (SourceFile.withHeader header), d'.read f.path = .ok f.content := by
    intro g hg
    obtain ⟨f, hf, rfl⟩ := List.mem_map.mp hg
    rw [SourceFile.path_withHeader, SourceFile.content_withHeader]
    exact read_of_written_withHeader hpaths hread hwritten hf
  have hnone : withoutHeader header (files.map (SourceFile.withHeader header)) = [] := by
    refine List.filter_eq_nil_iff.mpr fun g hg => ?_
    obtain ⟨f, -, rfl⟩ := List.mem_map.mp hg
    rw [SourceFile.content_withHeader, withHeader?_withHeader]
    exact Bool.false_ne_true
  obtain ⟨d'', happlied, hwritten'⟩ :=
    exists_applyHeaders_eq (hwritten.changes.entry_eq_ok hroot) hpaths' hread' header
  rw [hnone] at happlied hwritten'
  cases hwritten'
  exact happlied

end

/-! ## Both ways -/

/-- Where the root cannot be searched, nothing is done in either way. -/
theorem applyHeaders_of_entry_eq_error {cause : FileError} (hroot : d.entry root = .error cause)
    (s : ScanSettings) (compose header : String) :
    discoverFiles (m := StateM Disk) root s.sourceExtension d
        = (.error (.discovery root cause), d) ∧
      applyHeaders (m := StateM Disk) root s.sourceExtension header d
        = (.error (.discovery root cause), d) ∧
      applyHeadersInStore (m := StateM Disk) s compose header root d
        = (.error (.discovery root cause), d) := by
  have hfails : discoverFiles (m := StateM Disk) root s.sourceExtension d
      = (.error (.discovery root cause), d) := by
    refine bind_eq_error_iff.mpr (.inr ⟨.error cause, d, lift_eq_ok_iff.mpr ?_, rfl⟩)
    rw [entry_eq, hroot]
    rfl
  have hscan : scanSources (m := StateM Disk) s compose root d
      = (.error (.discovery root cause), d) := bind_eq_error_iff.mpr (.inl hfails)
  exact ⟨hfails, bind_eq_error_iff.mpr (.inl hfails), bind_eq_error_iff.mpr (.inl hscan)⟩

/-- Both ways come to the same on every disk. Where the root can be searched, every file that is
    found starts with the header afterwards: those that did keep what they held, and the others hold
    the header as a line in front of it. Their number is what is returned. No other file changes,
    and nothing is left to do. -/
theorem applyHeaders_exact (s : ScanSettings) (compose header : String) (root : Path) (d : Disk) :
    applyHeadersInStore (m := StateM Disk) s compose header root d
        = ((fun count => (count, count)) <$>
            applyHeaders (m := StateM Disk) root s.sourceExtension header) d ∧
      ∀ paths, discoverFiles (m := StateM Disk) root s.sourceExtension d = (.ok paths, d) →
        ∃ count d',
          applyHeaders (m := StateM Disk) root s.sourceExtension header d = (.ok count, d') ∧
          (∀ path ∈ paths, ∃ before after, d.read path = .ok before ∧ d'.read path = .ok after ∧
            Utf8.ofString header <+: after ∧
            (Utf8.ofString header <+: before → after = before) ∧
            (¬ Utf8.ofString header <+: before →
              after = Utf8.ofString header ++ [newline] ++ before)) ∧
          count = paths.countP (fun path => d'.read path ≠ d.read path) ∧
          (∀ here, (∀ path ∈ paths, path.location ≠ here) → d'.content? here = d.content? here) ∧
          applyHeaders (m := StateM Disk) root s.sourceExtension header d' = (.ok 0, d') := by
  rw [← bind_pure_comp]
  cases hfound : d.entry root with
  | error cause =>
    -- neither way gets beyond the search
    obtain ⟨hfails, happlied, hstored⟩ := applyHeaders_of_entry_eq_error hfound s compose header
    constructor
    · rw [hstored]
      exact (bind_eq_error_iff.mpr (.inl happlied)).symm
    · intro paths hpaths
      rw [hfails] at hpaths
      cases hpaths
  | ok e =>
    -- both ways write the same files, and all follows from what was written
    have hroot : ∃ e, d.entry root = .ok e := ⟨e, hfound⟩
    obtain ⟨files, hpaths, hordered, hfiles, hscan⟩ := exists_scanSources_eq hroot s compose
    have hread : ∀ f ∈ files, d.read f.path = .ok f.content := fun f hf => (hfiles f hf).1
    have hclean : ∀ f ∈ files, f.dirty = false := fun f hf => (hfiles f hf).2
    obtain ⟨d', happlied, hwritten⟩ := exists_applyHeaders_eq hroot hpaths hread header
    have hread' : ∀ f ∈ files, d'.read f.path = .ok (Lineage.withHeader header f.content) :=
      fun f hf => read_of_written_withHeader hpaths hread hwritten hf
    constructor
    · rw [applyHeadersInStore_eq hordered hclean hscan hwritten]
      exact (bind_eq_ok_iff.mpr ⟨_, d', happlied, rfl⟩).symm
    · intro paths hdiscovered
      obtain ⟨-, rfl, -⟩ := discoverFiles_eq_ok_iff.mp hdiscovered
      rw [← hpaths]
      refine ⟨_, d', happlied, ?_, ?_, ?_,
        applyHeaders_of_written_withHeader hroot hpaths hread hwritten⟩
      · intro path hpath
        obtain ⟨f, hf, rfl⟩ := List.mem_map.mp hpath
        exact ⟨f.content, _, hread f hf, hread' f hf, prefix_withHeader header f.content,
          withHeader_eq_self, withHeader_eq_append⟩
      · rw [withoutHeader, ← List.countP_eq_length_filter, List.countP_map]
        refine List.countP_congr fun f hf => ?_
        rw [Function.comp_apply, decide_eq_true_iff, hread f hf, hread' f hf, ← withHeader_ne_iff,
          ne_eq, ne_eq, Except.ok.injEq]
      · intro here hnot
        refine hwritten.changes.content here ?_
        rintro ⟨_, hchanged, hlocation⟩
        obtain ⟨f, hf, rfl⟩ := List.mem_map.mp hchanged
        rw [SourceFile.path_withHeader] at hlocation
        exact hnot f.path (List.mem_map_of_mem (List.mem_filter.mp hf).1) hlocation

/-- Source files that are empty, hold a part of the header, or start with it, next to others. -/
def halfMarked : Disk where
  top := .dir "corpus"
    (.file "blank.lua" [] <| .file "cut.LUA" (Utf8.ofString "---@me") <|
      .dir "inside" (.file "done.lua" (Utf8.ofString "---@meta\nDone = {}\n") .empty) <|
      .file "names.lua" (Utf8.ofString "Names = {}\n") <|
      .file "names.txt" (Utf8.ofString "Names = {}\n") .empty) .empty
  proper := by simp [Listing.Proper, Listing.names, Listing.isEntryName]

/-- Three of the four source files get the header. -/
theorem applyHeaders_exact_halfMarked :
    let paths : List Path := [⟨"corpus/blank.lua"⟩, ⟨"corpus/cut.LUA"⟩, ⟨"corpus/inside/done.lua"⟩,
      ⟨"corpus/names.lua"⟩]
    discoverFiles (m := StateM Disk) ⟨"corpus"⟩ "lua" halfMarked = (.ok paths, halfMarked) ∧
      ∃ d', applyHeaders (m := StateM Disk) ⟨"corpus"⟩ "lua" "---@meta" halfMarked = (.ok 3, d') ∧
        applyHeaders (m := StateM Disk) ⟨"corpus"⟩ "lua" "---@meta" d' = (.ok 0, d') := by
  intro paths
  have hfound : discoverFiles (m := StateM Disk) ⟨"corpus"⟩ "lua" halfMarked
      = (.ok paths, halfMarked) := by
    have hvisible : (filesOf ⟨"corpus"⟩ (halfMarked.at? (Path.location ⟨"corpus"⟩))).filter
        (Entry.hasExtension "lua") = paths := by decide +kernel
    have hsorted : paths.Pairwise fun p q => p.compare q != .gt := by decide +kernel
    refine discoverFiles_eq_ok_iff.mpr ⟨⟨_, rfl⟩, ?_, rfl⟩
    show paths = filesWith ..
    rw [filesWith, hvisible, List.mergeSort_of_pairwise hsorted]
  have hall : ((paths.mapM (applyHeader (m := StateM Disk) "---@meta")) halfMarked).1
      = .ok [true, true, false, true] := by
    decide +kernel
  obtain ⟨count, d', happlied, -, -, -, hagain⟩ :=
    (applyHeaders_exact {} "setup" "---@meta" ⟨"corpus"⟩ halfMarked).2 paths hfound
  refine ⟨hfound, d', ?_, hagain⟩
  have hcount : count = 3 := by
    obtain ⟨found, d₁, hfound', hrest⟩ := bind_eq_ok_iff.mp happlied
    rw [hfound] at hfound'
    cases hfound'
    obtain ⟨changed, d₂, hchanged, hlast⟩ := bind_eq_ok_iff.mp hrest
    rw [hchanged] at hall
    cases hall
    exact (pure_eq_ok_iff.mp hlast).1.symm
  rw [← hcount]
  exact happlied

end Disk

end Lineage
