import Lineage.Proofs.Run.Execution

/-!
# Running twice

A run reads its own output when it is repeated: annotated sources below their headers, and an
aggregate file that lies outside of what is read. If the directories are apart and the annotation
converged, the second run finds the same constructions, parents and declarations, so it has nothing
to do and leaves the disk as it is.

## Main definitions

- `RunPaths.Apart`: nothing that is written is read as something else
- `Completed`: a run that converged

## Main statements

- `Completed.changes`: what the source files hold afterwards
- `Completed.gather`: what the next run goes by
- `run_run`: the next run does nothing
-/

namespace Lineage

/-- The aggregate file lies neither in the corpus nor in the authoritative directory, and neither of
    these contains the other. -/
structure RunPaths.Apart (paths : RunPaths) (emit : EmitSettings) : Prop where
  target : ¬ paths.corpus.location <+: (Aggregate.target emit paths.output).location
  target_authoritative : ∀ root, paths.authoritative = some root →
    ¬ root.location <+: (Aggregate.target emit paths.output).location
  authoritative : ∀ root, paths.authoritative = some root →
    ¬ root.location <+: paths.corpus.location ∧ ¬ paths.corpus.location <+: root.location

instance (paths : RunPaths) (emit : EmitSettings) : Decidable (paths.Apart emit) :=
  decidable_of_iff
    (¬ paths.corpus.location <+: (Aggregate.target emit paths.output).location ∧
      ∀ root ∈ paths.authoritative,
        ¬ root.location <+: (Aggregate.target emit paths.output).location ∧
          ¬ root.location <+: paths.corpus.location ∧ ¬ paths.corpus.location <+: root.location)
    ⟨fun h => ⟨h.1, fun root hroot => (h.2 root hroot).1, fun root hroot => (h.2 root hroot).2⟩,
      fun h => ⟨h.target, fun root hroot => ⟨h.target_authoritative root hroot,
        h.authoritative root hroot⟩⟩⟩

/-- Extensions that differ not only in small and capital letters. -/
def ScanSettings.ExtensionsDiffer (s : ScanSettings) : Prop :=
  s.markupExtension.toList.map Char.toLower ≠ s.sourceExtension.toList.map Char.toLower

instance (s : ScanSettings) : Decidable s.ExtensionsDiffer :=
  inferInstanceAs (Decidable (_ ≠ _))

theorem Entry.map_toLower_eq_of_hasExtension {p q : Path} {extension extension' : String}
    (hp : hasExtension extension p = true) (hq : hasExtension extension' q = true)
    (hlocation : p.location = q.location) :
    extension.toList.map Char.toLower = extension'.toList.map Char.toLower := by
  -- both are the extension of the last name of the location
  have hname : ∀ {r : Path} {e : String}, hasExtension e r = true →
      ∃ name found, r.location.getLast? = some name ∧ Path.extensionOf? name = some found ∧
        found.toList.map Char.toLower = e.toList.map Char.toLower := by
    intro r e hr
    unfold hasExtension at hr
    cases hextension : r.extension? with
    | none =>
      rw [hextension] at hr
      cases hr
    | some found =>
      rw [hextension] at hr
      obtain ⟨name, hfile, hfound⟩ := Option.bind_eq_some_iff.mp hextension
      exact ⟨name, found, Path.getLast?_location hfile, hfound, eq_of_beq hr⟩
  obtain ⟨name, found, hlast, hfound, hlower⟩ := hname hp
  obtain ⟨name', found', hlast', hfound', hlower'⟩ := hname hq
  rw [hlocation, hlast'] at hlast
  obtain rfl : name' = name := Option.some.inj hlast
  rw [hfound] at hfound'
  obtain rfl : found = found' := Option.some.inj hfound'
  rw [← hlower, hlower']

/-! ## A run that converged -/

/-- A run from one disk to another that converged, with what it went by. -/
structure Completed (s : ValidSettings) (paths : RunPaths) (header : String) (d d' : Disk)
    (corpus : Corpus) (files : List SourceFile) : Prop where
  apart : paths.Apart s.emit
  extensionsDiffer : s.scan.ExtensionsDiffer
  gathered : gather (m := StateM Disk) s.toSettings paths d = (.ok corpus, d)
  found : List.Forall₂ (fun path file => ∃ content, d.read path = .ok content ∧
      file = SourceFile.ofContent path content)
    (d.filesWith paths.corpus s.scan.sourceExtension) files
  converges : corpus.Converges s.toSettings header files
  saved : ∃ r, (corpus.plan s.toSettings).save (m := StateM Disk) s.toSettings paths.output d
    = (.ok r, d')

namespace Completed

variable {s : ValidSettings} {paths : RunPaths} {header : String} {d d' : Disk} {corpus : Corpus}
  {files : List SourceFile}

/-- The locations that a run writes to. -/
def Writes (s : ValidSettings) (paths : RunPaths) (corpus : Corpus) (here : Location) : Prop :=
  here = (Aggregate.target s.emit paths.output).location ∨
    ∃ f ∈ (corpus.plan s.toSettings).store.dirtyFiles, f.path.location = here

section

variable (h : Completed s paths header d d' corpus files)

include h

theorem mem_filesWith {f : SourceFile} (hf : f ∈ files) :
    f.path ∈ d.filesWith paths.corpus s.scan.sourceExtension ∧ d.read f.path = .ok f.content :=
  Disk.read_of_mem h.found hf

theorem below_corpus {f : SourceFile} (hf : f ∈ files) :
    paths.corpus.location <+: f.path.location :=
  Disk.location_prefix_of_mem_filesWith (h.mem_filesWith hf).1

/-- Every source file that is written is one of those read. -/
theorem exists_of_mem_dirtyFiles {g : SourceFile}
    (hg : g ∈ (corpus.plan s.toSettings).store.dirtyFiles) :
    ∃ f ∈ files, g.path.location = f.path.location := by
  rw [h.converges.store_plan] at hg
  obtain ⟨f, hf, hpath, -⟩ := Store.exists_of_mem_dirtyFiles_edit hg
  exact ⟨f, h.converges.mem_files hf, by rw [hpath]⟩

/-- Nothing is written but source files that were there and the aggregate file. -/
theorem changes : d.Changes (Writes s paths corpus) d' ∧
    ∀ f ∈ files, d'.content? f.path.location
      = some (corpus.finish s.toSettings header f.content) := by
  obtain ⟨r, hsave⟩ := h.saved
  refine ⟨changes_of_save hsave, fun f hf => ?_⟩
  -- the store has a file at this path, which lies outside of where the aggregate file goes
  obtain ⟨g, hg, hsame, hcontent⟩ := h.converges.exists_mem_store hf
  have hlocation : g.path.location = f.path.location := Path.location_eq_of_same hsame
  rw [← hlocation, ← hcontent]
  apply content?_of_save _ h.gathered h.converges.store_plan hsave hg
  intro heq
  apply h.apart.target
  rw [← heq, hlocation]
  exact h.below_corpus hf

/-! ## The next run -/

/-- No file is new in the corpus. -/
theorem isSome_or_not_below {here : Location} (hwrites : Writes s paths corpus here) :
    (d.content? here).isSome ∨ ¬ paths.corpus.location <+: here := by
  rcases hwrites with rfl | ⟨g, hg, rfl⟩
  · exact .inr h.apart.target
  · obtain ⟨f, hf, hlocation⟩ := h.exists_of_mem_dirtyFiles hg
    left
    rw [hlocation, (Disk.read_eq_ok_iff.mp (h.mem_filesWith hf).2).2]
    rfl

/-- Nothing is written in the authoritative directory. -/
theorem not_prefix_of_writes {root : Path} (hroot : paths.authoritative = some root)
    {here : Location} (hwrites : Writes s paths corpus here) : ¬ root.location <+: here := by
  rcases hwrites with rfl | ⟨g, hg, rfl⟩
  · exact h.apart.target_authoritative root hroot
  · obtain ⟨f, hf, hlocation⟩ := h.exists_of_mem_dirtyFiles hg
    intro hbelow
    rw [hlocation] at hbelow
    -- two directories with a file below both lie one in the other
    obtain ⟨hinside, hcontains⟩ := h.apart.authoritative root hroot
    rcases List.prefix_or_prefix_of_prefix hbelow (h.below_corpus hf) with hroot | hcorpus
    · exact hinside hroot
    · exact hcontains hcorpus

/-- No markup file is written. -/
theorem not_writes_of_markup {path : Path}
    (hpath : path ∈ d.filesWith paths.corpus s.scan.markupExtension) :
    ¬ Writes s paths corpus path.location := by
  rintro (htarget | ⟨g, hg, hlocation⟩)
  · apply h.apart.target
    rw [← htarget]
    exact Disk.location_prefix_of_mem_filesWith hpath
  · -- a markup file that is written would be a source file as well
    obtain ⟨f, hf, hsame⟩ := h.exists_of_mem_dirtyFiles hg
    rw [hsame] at hlocation
    apply h.extensionsDiffer
    exact Entry.map_toLower_eq_of_hasExtension (Disk.hasExtension_of_mem_filesWith hpath)
      (Disk.hasExtension_of_mem_filesWith (h.mem_filesWith hf).1) hlocation.symm

/-- The next run goes by the same declarations and by the finished sources. -/
theorem gather (hmissing : ∀ root, paths.authoritative = some root → ∀ cause,
      d.entry root = .error cause → ∃ cause', d'.entry root = .error cause') :
    Lineage.gather (m := StateM Disk) s.toSettings paths d'
      = (.ok (corpus.finished s.toSettings header files), d') := by
  obtain ⟨hchanges, hcontents⟩ := h.changes
  obtain ⟨⟨hauthoritative, hnone, hmarkup, hsources⟩, -⟩ := Disk.gather_eq_ok_iff.mp h.gathered
  obtain ⟨⟨hentry, -⟩, -⟩ := Disk.scanSources_eq_ok_iff.mp hsources
  refine Disk.gather_eq_ok_iff.mpr ⟨⟨?_, hnone, ?_, ?_⟩, rfl⟩
  · intro root hroot
    exact hchanges.scanAuthoritative (fun _ => h.not_prefix_of_writes hroot)
      (hmissing root hroot) (hauthoritative root hroot)
  · exact hchanges.scanMarkup (fun _ => h.isSome_or_not_below)
      (fun _ => h.not_writes_of_markup) hmarkup
  · exact hchanges.scanSources (fun _ => h.isSome_or_not_below) hentry hcontents h.found

/-- The next run has nothing to save. -/
theorem save (hbound : 0 < s.sites.maxPasses) :
    ∃ r, ((corpus.finished s.toSettings header files).plan s.toSettings).save (m := StateM Disk)
        s.toSettings paths.output d' = (.ok r, d') ∧
      r.annotationsInserted = 0 ∧ r.metaHeadersAdded = 0 ∧ r.filesWritten = 0 ∧ r.passes = 1 := by
  obtain ⟨r, hsave⟩ := h.saved
  obtain ⟨count, store, d₁, target, -, hemit, -⟩ := Disk.save_eq_ok_iff.mp hsave
  obtain ⟨hdirty, haggregate, hpasses, hinserted, hheaders⟩ := h.converges.plan_finished hbound
  have hpersist := congrFun (persist_of_dirtyFiles_eq_nil (m := StateM Disk) hdirty) d'
  have hagain := Disk.emitAggregate_of_emitAggregate hemit
  rw [← haggregate] at hagain
  refine ⟨_, Disk.save_eq_ok_iff.mpr ⟨0, _, d', target, hpersist, hagain, rfl⟩, ?_⟩
  exact ⟨hinserted, hheaders, rfl, hpasses⟩

end

end Completed

/-! ## Runs -/

/-- Checked settings leave at least one pass. -/
theorem ValidSettings.maxPasses_pos (s : ValidSettings) : 0 < s.sites.maxPasses := by
  have hcheck := s.checked
  unfold Settings.check at hcheck
  cases hscan : s.scan.check with
  | error e =>
    rw [hscan] at hcheck
    cases hcheck
  | ok =>
    cases hhierarchy : s.hierarchy.check with
    | error e =>
      rw [hscan, hhierarchy] at hcheck
      cases hcheck
    | ok =>
      rw [hscan, hhierarchy] at hcheck
      -- the number of passes is the first thing that is checked of the sites
      by_contra hzero
      have hrange : requireRange .maxPasses s.sites.maxPasses 1 1024
          = .error (.outOfRange .maxPasses s.sites.maxPasses 1 1024) := by
        rw [requireRange, if_neg (fun hbounds => hzero hbounds.1)]
      have hsites : s.sites.check = .error (.outOfRange .maxPasses s.sites.maxPasses 1 1024) := by
        rw [SiteSettings.check, hrange]
        rfl
      rw [hsites] at hcheck
      cases hcheck

/-- With the default marker, composition function and header, a run that converged is followed by
    one that inserts nothing, adds no header, writes no source file and ends after one pass. It
    writes the same aggregate and leaves the disk with all its contents as it was. The header moves
    the constructions of a content and keeps each of them as it is, annotated or not. -/
theorem run_run {s : ValidSettings} {paths : RunPaths} {d d' : Disk} {r : Report}
    (hmarker : s.sites.annotationMarker = "---@class")
    (hcompose : s.sites.composeFunction = "CreateFromMixins")
    (hheader : s.sites.metaHeader = some "---@meta")
    (hextensions : s.scan.ExtensionsDiffer) (hapart : paths.Apart s.emit)
    (hmissing : ∀ root, paths.authoritative = some root → ∀ cause,
      d.entry root = .error cause → ∃ cause', d'.entry root = .error cause')
    (hnames : ∀ corpus, gather (m := StateM Disk) s.toSettings paths d = (.ok corpus, d) →
      ∀ f ∈ corpus.sources.store.files,
        ∀ m ∈ (corpus.annotator s.toSettings).constructionsIn f.content,
          ∀ p ∈ (corpus.annotator s.toSettings).parentsFor m, StaysInLine p)
    (hrun : run (m := StateM Disk) s paths d = (.ok r, d')) (hbound : r.boundExceeded = false) :
    ∃ corpus corpus' r',
      gather (m := StateM Disk) s.toSettings paths d = (.ok corpus, d) ∧
      gather (m := StateM Disk) s.toSettings paths d' = (.ok corpus', d') ∧
      run (m := StateM Disk) s paths d' = (.ok r', d') ∧
      (r'.annotationsInserted = 0 ∧ r'.metaHeadersAdded = 0 ∧ r'.filesWritten = 0 ∧
        r'.passes = 1) ∧
      (corpus'.plan s.toSettings).aggregate = (corpus.plan s.toSettings).aggregate ∧
      ∀ content,
        (corpus.annotator s.toSettings).constructionsIn (withHeader "---@meta" content)
          = ((corpus.annotator s.toSettings).constructionsIn content).map
              (Annotator.belowHeader "---@meta" content) ∧
        ∀ m ∈ (corpus.annotator s.toSettings).constructionsIn content,
          (corpus.annotator s.toSettings).annotated (withHeader "---@meta" content)
              (Annotator.belowHeader "---@meta" content m)
            = (corpus.annotator s.toSettings).annotated content m := by
  have hsettings : s.sites.LineSafe := SiteSettings.lineSafe_of_default hmarker hcompose
  have hheaderSafe : s.sites.HeaderSafe "---@meta" := SiteSettings.headerSafe_of_default hmarker
  obtain ⟨corpus, saved, hgather, hsave, rfl⟩ := run_eq_ok_iff.mp hrun
  obtain ⟨⟨-, -, -, hsources⟩, -⟩ := Disk.gather_eq_ok_iff.mp hgather
  obtain ⟨⟨-, files, hindex, hfiles⟩, -⟩ := Disk.scanSources_eq_ok_iff.mp hsources
  have hsafe : (corpus.annotator s.toSettings).LineSafe corpus.sources.store :=
    ⟨hsettings, hnames corpus hgather⟩
  -- what was read and reported says that the annotation converged
  have hconverges : corpus.Converges s.toSettings "---@meta" files := by
    refine ⟨hindex, fun f hf g hg hsame => ?_, hheader, hheaderSafe, hsafe.writable, ?_⟩
    · exact Disk.content_eq_of_location (Disk.read_of_mem hfiles hf).2
        (Disk.read_of_mem hfiles hg).2 (Path.location_eq_of_same hsame)
    · obtain ⟨_, _, _, _, -, -, rfl⟩ := Disk.save_eq_ok_iff.mp hsave
      exact hbound
  have hcompleted : Completed s paths "---@meta" d d' corpus files :=
    ⟨hapart, hextensions, hgather, hfiles, hconverges, saved, hsave⟩
  -- the next run reads the finished corpus and has nothing to save
  have hnext := hcompleted.gather hmissing
  obtain ⟨r', hagain, hcounts⟩ := hcompleted.save s.maxPasses_pos
  have haggregate := (hconverges.plan_finished s.maxPasses_pos).2.1
  refine ⟨corpus, _, { r' with elapsedMs := 0 }, hgather, hnext,
    run_eq_ok_iff.mpr ⟨_, r', hnext, hagain, rfl⟩, hcounts, haggregate, fun content => ?_⟩
  have hheaderSafe' : (corpus.annotator s.toSettings).settings.HeaderSafe "---@meta" := hheaderSafe
  exact ⟨Annotator.constructionsIn_withHeader hheaderSafe' content,
    fun m hm => Annotator.annotated_withHeader hheaderSafe' hm⟩

/-! ## Examples -/

/-- A corpus with one source file and one markup file, and a declaration elsewhere. -/
def sample : Disk where
  top := .dir "corpus"
    (.file "a.lua" (Utf8.ofString "A = CreateFromMixins(B)\nB = \x7b\x7d\n")
      (.file "b.xml" (Utf8.ofString "<Ui><Frame name=\"C\" mixin=\"A\"/></Ui>") .empty))
    (.dir "declared" (.file "d.lua" (Utf8.ofString "---@class E\n") .empty) .empty)
  proper := by simp [Listing.Proper, Listing.names, Listing.isEntryName]

def samplePaths : RunPaths := ⟨⟨"corpus"⟩, ⟨"out"⟩, some ⟨"declared"⟩⟩

/-- The names that a corpus has for parents all stay in their lines. -/
def staysInLine (s : ValidSettings) (paths : RunPaths) (d : Disk) : Except Failure Bool :=
  (gather (m := StateM Disk) s.toSettings paths d).1.map fun corpus =>
    decide (∀ f ∈ corpus.sources.store.files,
      ∀ m ∈ (corpus.annotator s.toSettings).constructionsIn f.content,
        ∀ p ∈ (corpus.annotator s.toSettings).parentsFor m, StaysInLine p)

theorem run_run_sample :
    ∃ r d' r', run (m := StateM Disk) .standard samplePaths sample = (.ok r, d') ∧
      r.annotationsInserted = 2 ∧ r.boundExceeded = false ∧
      run (m := StateM Disk) .standard samplePaths d' = (.ok r', d') ∧
      r'.annotationsInserted = 0 := by
  have hfirst : (run (m := StateM Disk) .standard samplePaths sample).1.map
      (fun r => (r.annotationsInserted, r.boundExceeded)) = .ok (2, false) := by
    decide +kernel
  have hnames : staysInLine .standard samplePaths sample = .ok true := by decide +kernel
  have hentry : ((sample.entry ⟨"declared"⟩).map fun _ => ()) = .ok () := by decide +kernel
  have hapart : samplePaths.Apart ValidSettings.standard.emit := by decide +kernel
  cases hrun : run (m := StateM Disk) .standard samplePaths sample with
  | mk result d' =>
    rw [hrun] at hfirst
    cases result with
    | error failure => cases hfirst
    | ok r =>
      obtain ⟨hinserted, hbound⟩ : r.annotationsInserted = 2 ∧ r.boundExceeded = false := by
        simpa [Except.map] using hfirst
      obtain ⟨-, -, r', -, -, hagain, ⟨hnone, -⟩, -⟩ := run_run rfl rfl rfl (by decide) hapart
        (fun root hroot cause hcause => by
          obtain rfl : (⟨"declared"⟩ : Path) = root := Option.some.inj hroot
          rw [hcause] at hentry
          cases hentry)
        (fun corpus hgather => by
          rw [staysInLine, hgather] at hnames
          simpa [Except.map] using hnames)
        hrun hbound
      exact ⟨r, d', r', rfl, hinserted, hbound, hagain, hnone⟩

/-- The aggregate file after a run and after the next one. -/
def aggregates (s : ValidSettings) (paths : RunPaths) (d : Disk) :
    Except FileError Bytes × Except FileError Bytes :=
  let first := (run (m := StateM Disk) s paths d).2
  let second := (run (m := StateM Disk) s paths first).2
  let target := Aggregate.target s.emit paths.output
  (first.read target, second.read target)

/-- A declaration that is reached through the output directory, which the first run makes. -/
def detour : Disk where
  top := .dir "corpus"
    (.file "a.xml" (Utf8.ofString "<Ui><Frame name=\"X\" inherits=\"Y\"/></Ui>") .empty)
    (.dir "declared" (.file "d.lua" (Utf8.ofString "---@class X\n") .empty) .empty)
  proper := by simp [Listing.Proper, Listing.names, Listing.isEntryName]

def detourPaths : RunPaths := ⟨⟨"corpus"⟩, ⟨"out"⟩, some ⟨"out/../declared"⟩⟩

/-- A markup file that is a source file as well, with a construction inside a value. -/
def mixed : Disk where
  top := .dir "corpus"
    (.file "a.xml" (Utf8.ofString "<Ui><Frame name=\"X\" inherits=\"Y,\nA = \x7b\"/></Ui>") .empty)
    .empty
  proper := by simp [Listing.Proper, Listing.names, Listing.isEntryName]

def mixedPaths : RunPaths := ⟨⟨"corpus"⟩, ⟨"out"⟩, none⟩

def mixedSettings : ValidSettings where
  scan := { sourceExtension := "xml" }
  checked := by decide +kernel

/-- A next run may write another aggregate: it may find declarations that the first one did not
    find, and a class line may change what markup says. -/
theorem aggregates_differ :
    (detourPaths.Apart ValidSettings.standard.emit ∧
      staysInLine .standard detourPaths detour = .ok true ∧
      (run (m := StateM Disk) .standard detourPaths detour).1.map (·.boundExceeded) = .ok false ∧
      aggregates .standard detourPaths detour
        = (.ok (Utf8.ofString "---@meta\n\n---@class X: Frame, Y\n\n"),
          .ok (Utf8.ofString "---@meta\n\n"))) ∧
    (mixedPaths.Apart mixedSettings.emit ∧
      staysInLine mixedSettings mixedPaths mixed = .ok true ∧
      (run (m := StateM Disk) mixedSettings mixedPaths mixed).1.map (·.boundExceeded) = .ok false ∧
      aggregates mixedSettings mixedPaths mixed
        = (.ok (Utf8.ofString "---@meta\n\n---@class X: A = \x7b, Frame, Y\n\n"),
          .ok (Utf8.ofString "---@meta\n\n---@class X: ---@class A\nA = \x7b, Frame, Y\n\n"))) := by
  decide +kernel

end Lineage
