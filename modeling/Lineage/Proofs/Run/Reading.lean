import Lineage.Proofs.Disk.Access
import Lineage.Proofs.Disk.Host
import Lineage.Proofs.Run.Scanning
import Mathlib.Data.List.Forall2
import Mathlib.Data.List.Nodup
import Mathlib.Data.List.Pairwise

/-!
# Reading a corpus from a disk

What a scan gives depends on which files are visible below its root and on their contents, so it
gives the same after changes that keep both.

## Main definitions

- `Disk.filesWith` are the files that a scan finds

## Main statements

- `Disk.gather_eq_ok_iff`: what a run goes by
- `Disk.nodup_filesWith`, `Disk.pairwise_lt_filesWith`: no file is found twice, and all in order
- `Disk.exists_read_of_mem_filesWith`: what is found can be read
- `Disk.Changes.filesWith`: what is found after changes
-/

namespace Lineage

namespace Disk

open Program (bind_eq_ok_iff lift_eq_ok_iff pure_eq_ok_iff)

/-- Nothing changes on a disk that is looked at. -/
instance : Host.Quiet Disk where
  entry _ _ := ⟨_, rfl⟩
  read _ _ := ⟨_, rfl⟩
  now _ := ⟨_, rfl⟩

variable {d d' : Disk} {root path : Path} {extension : String} {β : Type}

/-! ## Files -/

/-- The files with an extension at or below a root. -/
def filesWith (d : Disk) (root : Path) (extension : String) : List Path :=
  ((filesOf root (d.at? root.location)).filter (Entry.hasExtension extension)).mergeSort
    fun p q => p.compare q != .gt

theorem discover_eq_filesWith {e : Entry Bytes} (h : d.entry root = .ok e) :
    e.discover root extension = d.filesWith root extension := by
  rw [Entry.discover_eq, filesWith, (entry_eq_ok_iff.mp h).2]
  rfl

theorem hasExtension_of_mem_filesWith (h : path ∈ d.filesWith root extension) :
    Entry.hasExtension extension path = true :=
  (List.mem_filter.mp (List.mem_mergeSort.mp h)).2

/-- The files of a scan are at or below its root. -/
theorem location_prefix_of_mem_filesWith (h : path ∈ d.filesWith root extension) :
    root.location <+: path.location := by
  have hfile := (List.mem_filter.mp (List.mem_mergeSort.mp h)).1
  cases hat : d.at? root.location with
  | none =>
    rw [hat] at hfile
    cases hfile
  | some found =>
    rw [hat] at hfile
    cases found with
    | file content =>
      obtain rfl : path = root := List.mem_singleton.mp hfile
      exact List.prefix_refl _
    | dir inside =>
      have hproper : inside.Proper := Listing.proper_of_entryAt d.proper hat
      exact Listing.exists_location_of_mem_visibleFiles hproper hfile

/-- Every file that a scan finds is at another location. -/
theorem pairwise_location_filesWith (d : Disk) (root : Path) (extension : String) :
    (d.filesWith root extension).Pairwise fun p q => p.location ≠ q.location := by
  have hfiles : (filesOf root (d.at? root.location)).Pairwise
      fun p q => p.location ≠ q.location := by
    cases hat : d.at? root.location with
    | none => exact .nil
    | some found =>
      cases found with
      | file content => exact List.pairwise_singleton _ root
      | dir inside =>
        exact Listing.pairwise_location_visibleFiles (Listing.proper_of_entryAt d.proper hat) root
  exact (hfiles.filter _).perm (List.mergeSort_perm _ _).symm fun h => h.symm

theorem eq_of_location {p q : Path} (hp : p ∈ d.filesWith root extension)
    (hq : q ∈ d.filesWith root extension) (hlocation : p.location = q.location) : p = q :=
  List.inj_on_of_nodup_map (List.pairwise_map.mpr (pairwise_location_filesWith d root extension))
    hp hq hlocation

theorem nodup_filesWith (d : Disk) (root : Path) (extension : String) :
    (d.filesWith root extension).Nodup :=
  (pairwise_location_filesWith d root extension).imp fun h heq => h (congrArg Path.location heq)

/-- Files are found in the order of their paths. -/
theorem pairwise_lt_filesWith (d : Disk) (root : Path) (extension : String) :
    (d.filesWith root extension).Pairwise fun p q => p.compare q = .lt := by
  have hsorted : (d.filesWith root extension).Pairwise fun p q => p.compare q ≠ .gt :=
    pairwise_mergeSort_path id _
  refine (hsorted.and (pairwise_location_filesWith d root extension)).imp ?_
  rintro p q ⟨hgt, hlocation⟩
  -- paths that are equal would lead to the same location
  cases hcompare : p.compare q with
  | lt => rfl
  | eq => exact absurd (Path.location_eq_of_same hcompare) hlocation
  | gt => exact absurd hcompare hgt

/-- Every file that is found can be read. -/
theorem exists_read_of_mem_filesWith (hroot : ∃ e, d.entry root = .ok e)
    (hpath : path ∈ d.filesWith root extension) : ∃ content, d.read path = .ok content := by
  obtain ⟨e, hentry⟩ := hroot
  obtain ⟨hlocate, hat⟩ := entry_eq_ok_iff.mp hentry
  have hfile := (List.mem_filter.mp (List.mem_mergeSort.mp hpath)).1
  rw [hat] at hfile
  cases e with
  | file content =>
    obtain rfl : path = root := List.mem_singleton.mp hfile
    exact ⟨content, read_eq_ok_iff.mpr ⟨hlocate, content?_eq_some_iff.mpr hat⟩⟩
  | dir inside =>
    have hproper : inside.Proper := Listing.proper_of_entryAt d.proper hat
    refine exists_read_of_mem_visibleFiles hproper hlocate ⟨inside, hat⟩ (fun n e hn => ?_) hfile
    rw [at?_append, hat, Option.bind_some, Entry.entryAt_dir, Listing.entryAt_cons, hn]
    rfl

theorem readContent_eq_ok_iff {content : Bytes} :
    readContent (m := StateM Disk) path d = (.ok content, d') ↔
      d.read path = .ok content ∧ d = d' := by
  rw [readContent, bind_eq_ok_iff]
  have hread : Host.read (m := StateM Disk) path d = (d.read path, d) := rfl
  constructor
  · -- a reading that fails ends the program
    rintro ⟨r, d₁, hlift, hrest⟩
    rw [lift_eq_ok_iff, hread] at hlift
    cases hlift
    cases hcontent : d.read path with
    | error cause =>
      rw [hcontent] at hrest
      cases hrest
    | ok found =>
      rw [hcontent] at hrest
      obtain ⟨rfl, rfl⟩ := pure_eq_ok_iff.mp hrest
      exact ⟨rfl, rfl⟩
  · rintro ⟨hcontent, rfl⟩
    exact ⟨.ok content, d, lift_eq_ok_iff.mpr (by rw [hread, hcontent]), rfl⟩

theorem readMarkup_eq_ok_iff {s : ScanSettings} {file : MarkupFile} :
    readMarkup (m := StateM Disk) s path d = (.ok file, d') ↔
      (∃ content, d.read path = .ok content ∧ MarkupFile.ofContent s path content = .ok file) ∧
        d = d' := by
  rw [readMarkup, bind_eq_ok_iff]
  constructor
  · rintro ⟨content, d₁, hread, hrest⟩
    obtain ⟨hcontent, rfl⟩ := readContent_eq_ok_iff.mp hread
    cases hfile : MarkupFile.ofContent s path content with
    | error failure =>
      rw [hfile] at hrest
      cases hrest
    | ok found =>
      rw [hfile] at hrest
      cases hrest
      exact ⟨⟨content, hcontent, hfile⟩, rfl⟩
  · rintro ⟨⟨content, hcontent, hfile⟩, rfl⟩
    refine ⟨content, d, readContent_eq_ok_iff.mpr ⟨hcontent, rfl⟩, ?_⟩
    rw [hfile]
    rfl

theorem readSource_eq_ok_iff {file : SourceFile} :
    readSource (m := StateM Disk) path d = (.ok file, d') ↔
      (∃ content, d.read path = .ok content ∧ file = .ofContent path content) ∧ d = d' := by
  rw [readSource, bind_eq_ok_iff]
  constructor
  · rintro ⟨content, d₁, hread, hrest⟩
    obtain ⟨hcontent, rfl⟩ := readContent_eq_ok_iff.mp hread
    obtain ⟨rfl, rfl⟩ := pure_eq_ok_iff.mp hrest
    exact ⟨⟨content, hcontent, rfl⟩, rfl⟩
  · rintro ⟨⟨content, hcontent, rfl⟩, rfl⟩
    exact ⟨content, d, readContent_eq_ok_iff.mpr ⟨hcontent, rfl⟩, rfl⟩

theorem forall₂_mem_left {α γ : Type} {R : α → γ → Prop} {as : List α} {cs : List γ}
    (h : List.Forall₂ R as cs) : List.Forall₂ (fun a c => a ∈ as ∧ R a c) as cs :=
  (List.forall₂_and_left _ _).mpr ⟨fun _ ha => ha, h⟩

/-- Reading one file after another. -/
theorem mapM_eq_ok_iff {read : Path → ExceptT Failure (StateM Disk) β}
    {Reads : Disk → Path → β → Prop}
    (hread : ∀ {d d' path b}, read path d = (.ok b, d') ↔ Reads d path b ∧ d = d')
    {paths : List Path} {found : List β} :
    (paths.mapM read) d = (.ok found, d') ↔ List.Forall₂ (Reads d) paths found ∧ d = d' := by
  induction paths generalizing d d' found with
  | nil =>
    rw [List.mapM_nil, pure_eq_ok_iff, List.forall₂_nil_left_iff]
    simp [eq_comm]
  | cons path paths ih =>
    constructor
    · intro hall
      rw [List.mapM_cons] at hall
      obtain ⟨b, d₁, hb, hrest⟩ := bind_eq_ok_iff.mp hall
      obtain ⟨bs, d₂, hbs, hlast⟩ := bind_eq_ok_iff.mp hrest
      obtain ⟨hfirst, rfl⟩ := hread.mp hb
      obtain ⟨hothers, rfl⟩ := ih.mp hbs
      obtain ⟨rfl, rfl⟩ := pure_eq_ok_iff.mp hlast
      exact ⟨.cons hfirst hothers, rfl⟩
    · rintro ⟨hall, rfl⟩
      cases hall with
      | cons hfirst hothers =>
        exact Program.mapM_cons_eq_ok (hread.mpr ⟨hfirst, rfl⟩) (ih.mpr ⟨hothers, rfl⟩)

/-! ## Scans -/

theorem discoverFiles_eq_ok_iff {paths : List Path} :
    discoverFiles (m := StateM Disk) root extension d = (.ok paths, d') ↔
      (∃ e, d.entry root = .ok e) ∧ paths = d.filesWith root extension ∧ d = d' := by
  rw [discoverFiles, bind_eq_ok_iff]
  constructor
  · rintro ⟨r, d₁, hlift, hrest⟩
    rw [lift_eq_ok_iff, entry_eq] at hlift
    cases hlift
    cases hfound : d.entry root with
    | error cause =>
      rw [hfound] at hrest
      cases hrest
    | ok e =>
      rw [hfound] at hrest
      simp only [Except.map, obstacle?_eq_none] at hrest
      obtain ⟨rfl, rfl⟩ := pure_eq_ok_iff.mp hrest
      rw [Entry.discover_map, discover_eq_filesWith hfound]
      exact ⟨⟨e, rfl⟩, rfl, rfl⟩
  · rintro ⟨⟨e, hfound⟩, rfl, rfl⟩
    refine ⟨_, d, lift_eq_ok_iff.mpr (entry_eq root d), ?_⟩
    rw [hfound]
    simp only [Except.map, obstacle?_eq_none]
    refine pure_eq_ok_iff.mpr ⟨?_, rfl⟩
    rw [Entry.discover_map, discover_eq_filesWith hfound]

/-- A scan makes something of the files that it finds, read one after another. -/
theorem scan_eq_ok_iff {γ : Type} {read : Path → ExceptT Failure (StateM Disk) β}
    {Reads : Disk → Path → β → Prop}
    (hread : ∀ {d d' path b}, read path d = (.ok b, d') ↔ Reads d path b ∧ d = d')
    (build : List β → γ) {scan : γ} :
    (do
        let paths ← discoverFiles root extension
        return build (← paths.mapM read) : ExceptT Failure (StateM Disk) γ) d = (.ok scan, d') ↔
      ((∃ e, d.entry root = .ok e) ∧ ∃ files, scan = build files ∧
        List.Forall₂ (Reads d) (d.filesWith root extension) files) ∧ d = d' := by
  rw [bind_eq_ok_iff]
  constructor
  · rintro ⟨paths, d₁, hpaths, hrest⟩
    obtain ⟨hroot, rfl, rfl⟩ := discoverFiles_eq_ok_iff.mp hpaths
    obtain ⟨files, d₂, hfound, hlast⟩ := bind_eq_ok_iff.mp hrest
    obtain ⟨hfiles, rfl⟩ := (mapM_eq_ok_iff hread).mp hfound
    obtain ⟨rfl, rfl⟩ := pure_eq_ok_iff.mp hlast
    exact ⟨⟨hroot, files, rfl, hfiles⟩, rfl⟩
  · rintro ⟨⟨hroot, files, rfl, hfiles⟩, rfl⟩
    refine ⟨_, d, discoverFiles_eq_ok_iff.mpr ⟨hroot, rfl, rfl⟩, ?_⟩
    exact bind_eq_ok_iff.mpr ⟨files, d, (mapM_eq_ok_iff hread).mpr ⟨hfiles, rfl⟩,
      pure_eq_ok_iff.mpr ⟨rfl, rfl⟩⟩

theorem scanAuthoritative_eq_ok_iff {marker : String} {names : NameSet} :
    scanAuthoritative (m := StateM Disk) root marker extension d = (.ok names, d') ↔
      ((∃ cause, d.entry root = .error cause) ∧ names = ∅ ∨
        (∃ e, d.entry root = .ok e) ∧ ∃ contents, names = declaredIn marker contents ∧
          List.Forall₂ (fun path content => d.read path = .ok content)
            (d.filesWith root extension) contents) ∧ d = d' := by
  have hscan : (do
        let paths ← discoverFiles root extension
        return declaredIn marker (← paths.mapM readContent) : ExceptT Failure (StateM Disk) NameSet)
          d = (.ok names, d') ↔
      ((∃ e, d.entry root = .ok e) ∧ ∃ contents, names = declaredIn marker contents ∧
        List.Forall₂ (fun path content => d.read path = .ok content)
          (d.filesWith root extension) contents) ∧ d = d' :=
    scan_eq_ok_iff readContent_eq_ok_iff (declaredIn marker)
  have hentry : (ExceptT.lift (Host.entry root) : ExceptT Failure (StateM Disk) _) d
      = (.ok ((d.entry root).map (Entry.map fun _ => .ok ())), d) :=
    lift_eq_ok_iff.mpr (entry_eq root d)
  rw [scanAuthoritative, bind_eq_ok_iff]
  constructor
  · rintro ⟨r, d₁, hlift, hrest⟩
    rw [hentry] at hlift
    cases hlift
    -- a directory that is not there declares nothing
    cases hfound : d.entry root with
    | error cause =>
      rw [hfound] at hrest
      obtain ⟨rfl, rfl⟩ := pure_eq_ok_iff.mp hrest
      exact ⟨.inl ⟨⟨cause, rfl⟩, rfl⟩, rfl⟩
    | ok e =>
      rw [hfound] at hrest hscan
      obtain ⟨hcontents, rfl⟩ := hscan.mp hrest
      exact ⟨.inr hcontents, rfl⟩
  · rintro ⟨⟨⟨cause, hfound⟩, rfl⟩ | hcontents, rfl⟩
    · refine ⟨_, d, hentry, ?_⟩
      rw [hfound]
      exact pure_eq_ok_iff.mpr ⟨rfl, rfl⟩
    · obtain ⟨e, hfound⟩ := hcontents.1
      refine ⟨_, d, hentry, ?_⟩
      rw [hfound]
      exact hscan.mpr ⟨hcontents, rfl⟩

theorem scanMarkup_eq_ok_iff {s : ScanSettings} {scan : MarkupScan} :
    scanMarkup (m := StateM Disk) s root d = (.ok scan, d') ↔
      ((∃ e, d.entry root = .ok e) ∧ ∃ files, scan = .ofFiles files ∧
        List.Forall₂ (fun path file => ∃ content, d.read path = .ok content ∧
            MarkupFile.ofContent s path content = .ok file)
          (d.filesWith root s.markupExtension) files) ∧ d = d' :=
  scan_eq_ok_iff readMarkup_eq_ok_iff MarkupScan.ofFiles

theorem scanSources_eq_ok_iff {s : ScanSettings} {compose : String} {index : Index} :
    scanSources (m := StateM Disk) s compose root d = (.ok index, d') ↔
      ((∃ e, d.entry root = .ok e) ∧ ∃ files, index = .ofFiles compose files ∧
        List.Forall₂ (fun path file => ∃ content, d.read path = .ok content ∧
            file = SourceFile.ofContent path content)
          (d.filesWith root s.sourceExtension) files) ∧ d = d' :=
  scan_eq_ok_iff readSource_eq_ok_iff (Index.ofFiles compose)

/-- Both scans have to succeed. -/
theorem scanCorpus_eq_ok_iff {s : Settings} {markup : MarkupScan} {sources : Index} :
    scanCorpus (m := StateM Disk) s root d = (.ok (markup, sources), d') ↔
      (scanMarkup (m := StateM Disk) s.scan root d = (.ok markup, d) ∧
        scanSources (m := StateM Disk) s.scan s.sites.composeFunction root d
          = (.ok sources, d)) ∧ d = d' := by
  rw [scanCorpus, bind_eq_ok_iff]
  constructor
  · rintro ⟨markupResult, d₁, hmarkup, hrest⟩
    obtain ⟨sourceResult, d₂, hsources, hrest⟩ := bind_eq_ok_iff.mp hrest
    rw [lift_eq_ok_iff] at hmarkup hsources
    obtain ⟨found, d₃, hfound, hrest⟩ := bind_eq_ok_iff.mp hrest
    obtain ⟨found', d₄, hfound', hlast⟩ := bind_eq_ok_iff.mp hrest
    -- neither result is a failure
    cases markupResult with
    | error failure => cases hfound
    | ok markup =>
      cases sourceResult with
      | error failure => cases hfound'
      | ok sources =>
        obtain ⟨-, rfl⟩ := scanMarkup_eq_ok_iff.mp hmarkup
        obtain ⟨-, rfl⟩ := scanSources_eq_ok_iff.mp hsources
        cases hfound
        cases hfound'
        cases hlast
        exact ⟨⟨hmarkup, hsources⟩, rfl⟩
  · rintro ⟨⟨hmarkup, hsources⟩, rfl⟩
    refine ⟨.ok markup, d, lift_eq_ok_iff.mpr hmarkup, ?_⟩
    exact bind_eq_ok_iff.mpr ⟨.ok sources, d, lift_eq_ok_iff.mpr hsources, rfl⟩

/-- What a run goes by is read in three scans. -/
theorem gather_eq_ok_iff {s : Settings} {paths : RunPaths} {corpus : Corpus} :
    gather (m := StateM Disk) s paths d = (.ok corpus, d') ↔
      ((∀ root, paths.authoritative = some root →
          scanAuthoritative (m := StateM Disk) root s.sites.annotationMarker s.scan.sourceExtension
            d = (.ok corpus.authoritative, d)) ∧
        (paths.authoritative = none → corpus.authoritative = ∅) ∧
        scanMarkup (m := StateM Disk) s.scan paths.corpus d = (.ok corpus.markup, d) ∧
        scanSources (m := StateM Disk) s.scan s.sites.composeFunction paths.corpus d
          = (.ok corpus.sources, d)) ∧ d = d' := by
  -- the markup and the sources come after the declarations, wherever those come from
  have hscans : ∀ authoritative : NameSet, (do
        let scans ← scanCorpus s paths.corpus
        return ⟨authoritative, scans.1, scans.2⟩ : ExceptT Failure (StateM Disk) Corpus) d
          = (.ok corpus, d') ↔
      (corpus.authoritative = authoritative ∧
        scanMarkup (m := StateM Disk) s.scan paths.corpus d = (.ok corpus.markup, d) ∧
        scanSources (m := StateM Disk) s.scan s.sites.composeFunction paths.corpus d
          = (.ok corpus.sources, d)) ∧ d = d' := by
    intro authoritative
    constructor
    · intro hscans
      obtain ⟨⟨markup, sources⟩, d₁, hcorpus, hlast⟩ := bind_eq_ok_iff.mp hscans
      obtain ⟨hboth, rfl⟩ := scanCorpus_eq_ok_iff.mp hcorpus
      obtain ⟨rfl, rfl⟩ := pure_eq_ok_iff.mp hlast
      exact ⟨⟨rfl, hboth⟩, rfl⟩
    · rintro ⟨⟨rfl, hboth⟩, rfl⟩
      refine bind_eq_ok_iff.mpr ⟨(corpus.markup, corpus.sources), d, ?_, rfl⟩
      exact scanCorpus_eq_ok_iff.mpr ⟨hboth, rfl⟩
  rw [gather]
  cases paths.authoritative with
  | none =>
    show (pure ∅ >>= _ : ExceptT Failure (StateM Disk) Corpus) d = _ ↔ _
    rw [pure_bind]
    refine (hscans ∅).trans ?_
    simp
  | some root =>
    show (scanAuthoritative root _ _ >>= _ : ExceptT Failure (StateM Disk) Corpus) d = _ ↔ _
    rw [bind_eq_ok_iff]
    constructor
    · rintro ⟨authoritative, d₁, hauthoritative, hrest⟩
      obtain ⟨-, rfl⟩ := scanAuthoritative_eq_ok_iff.mp hauthoritative
      obtain ⟨⟨rfl, hothers⟩, rfl⟩ := (hscans authoritative).mp hrest
      refine ⟨⟨fun other hother => ?_, fun hnone => ?_, hothers⟩, rfl⟩
      · cases hother
        exact hauthoritative
      · cases hnone
    · rintro ⟨⟨hauthoritative, -, hothers⟩, rfl⟩
      exact ⟨_, d, hauthoritative root rfl, (hscans _).mpr ⟨⟨rfl, hothers⟩, rfl⟩⟩

/-- A scanned file is one of those found, with what it held. -/
theorem read_of_mem {files : List SourceFile}
    (hfiles : List.Forall₂ (fun path file => ∃ content, d.read path = .ok content ∧
        file = SourceFile.ofContent path content) (d.filesWith root extension) files)
    {f : SourceFile} (hf : f ∈ files) :
    f.path ∈ d.filesWith root extension ∧ d.read f.path = .ok f.content := by
  have hread : List.Forall₂ (fun path file => (file.path ∈ d.filesWith root extension ∧
      d.read file.path = .ok file.content) ∧ True) (d.filesWith root extension) files := by
    refine (forall₂_mem_left hfiles).imp ?_
    rintro path file ⟨hpath, content, hcontent, rfl⟩
    exact ⟨⟨hpath, hcontent⟩, trivial⟩
  exact ((List.forall₂_and_left _ _).mp hread.flip).1 f hf

/-- A location holds one content, so files there have it in common. -/
theorem content_eq_of_location {f g : SourceFile} (hf : d.read f.path = .ok f.content)
    (hg : d.read g.path = .ok g.content) (hlocation : g.path.location = f.path.location) :
    g.content = f.content := by
  have hfirst := (read_eq_ok_iff.mp hf).2
  have hsecond := (read_eq_ok_iff.mp hg).2
  rw [hlocation, hfirst] at hsecond
  exact (Option.some.inj hsecond).symm

/-- A scanned file is not dirty. -/
theorem dirty_eq_false_of_mem {paths : List Path} {files : List SourceFile}
    (hfiles : List.Forall₂ (fun path file => ∃ content, d.read path = .ok content ∧
        file = SourceFile.ofContent path content) paths files)
    {f : SourceFile} (hf : f ∈ files) : f.dirty = false := by
  have hclean : List.Forall₂ (fun _ file => file.dirty = false ∧ True) paths files := by
    refine hfiles.imp ?_
    rintro path file ⟨content, -, rfl⟩
    exact ⟨rfl, trivial⟩
  exact ((List.forall₂_and_left _ _).mp hclean.flip).1 f hf

/-! ## Reading after changes -/

namespace Changes

variable {written : Location → Prop} (h : d.Changes written d')

include h

/-- A scan finds the same files if no new one was written below its root. -/
theorem filesWith (hold : ∀ here, written here →
      (d.content? here).isSome ∨ ¬ root.location <+: here) :
    d'.filesWith root extension = d.filesWith root extension := by
  rw [Disk.filesWith, h.files root.location hold, Disk.filesWith]

/-- Nothing was written below the root. -/
theorem scanAuthoritative {marker : String} {names : NameSet}
    (hnot : ∀ here, written here → ¬ root.location <+: here)
    (hmissing : ∀ cause, d.entry root = .error cause → ∃ cause', d'.entry root = .error cause')
    (hscan : scanAuthoritative (m := StateM Disk) root marker extension d = (.ok names, d)) :
    Lineage.scanAuthoritative (m := StateM Disk) root marker extension d' = (.ok names, d') := by
  obtain ⟨hcases, -⟩ := scanAuthoritative_eq_ok_iff.mp hscan
  refine scanAuthoritative_eq_ok_iff.mpr ⟨?_, rfl⟩
  rcases hcases with ⟨⟨cause, hentry⟩, rfl⟩ | ⟨hentry, contents, rfl, hcontents⟩
  · exact .inl ⟨hmissing cause hentry, rfl⟩
  · refine .inr ⟨h.entry_eq_ok hentry, contents, rfl, ?_⟩
    rw [h.filesWith fun here hwritten => .inr (hnot here hwritten)]
    -- what was read is below the root, and nothing below it was written
    refine (forall₂_mem_left hcontents).imp ?_
    rintro path content ⟨hpath, hread⟩
    refine h.read_of_not hread fun hwritten => ?_
    exact hnot _ hwritten (location_prefix_of_mem_filesWith hpath)

/-- No markup file was written. -/
theorem scanMarkup {s : ScanSettings} {scan : MarkupScan}
    (hold : ∀ here, written here → (d.content? here).isSome ∨ ¬ root.location <+: here)
    (hnot : ∀ path ∈ d.filesWith root s.markupExtension, ¬ written path.location)
    (hscan : scanMarkup (m := StateM Disk) s root d = (.ok scan, d)) :
    Lineage.scanMarkup (m := StateM Disk) s root d' = (.ok scan, d') := by
  obtain ⟨⟨hentry, files, rfl, hfiles⟩, -⟩ := scanMarkup_eq_ok_iff.mp hscan
  refine scanMarkup_eq_ok_iff.mpr ⟨⟨h.entry_eq_ok hentry, files, rfl, ?_⟩, rfl⟩
  rw [h.filesWith hold]
  refine (forall₂_mem_left hfiles).imp ?_
  rintro path file ⟨hpath, content, hread, hfile⟩
  exact ⟨content, h.read_of_not hread (hnot path hpath), hfile⟩

/-- Every source file holds what a rule makes of its old content. -/
theorem scanSources {s : ScanSettings} {compose : String} {files : List SourceFile}
    {rule : Bytes → Bytes}
    (hold : ∀ here, written here → (d.content? here).isSome ∨ ¬ root.location <+: here)
    (hentry : ∃ e, d.entry root = .ok e)
    (hrule : ∀ f ∈ files, d'.content? f.path.location = some (rule f.content))
    (hfiles : List.Forall₂ (fun path file => ∃ content, d.read path = .ok content ∧
        file = SourceFile.ofContent path content) (d.filesWith root s.sourceExtension) files) :
    Lineage.scanSources (m := StateM Disk) s compose root d'
      = (.ok (.ofFiles compose (files.map fun f => .ofContent f.path (rule f.content))), d') := by
  refine scanSources_eq_ok_iff.mpr ⟨⟨h.entry_eq_ok hentry, _, rfl, ?_⟩, rfl⟩
  rw [h.filesWith hold, List.forall₂_map_right_iff]
  have hboth := (List.forall₂_and_left _ _).mpr
    ⟨fun f hf => hrule f hf, hfiles.flip⟩
  refine hboth.flip.imp ?_
  rintro path file ⟨hcontent, content, hread, rfl⟩
  exact ⟨_, h.read_of_content? hread hcontent, rfl⟩

end Changes

end Disk

end Lineage
