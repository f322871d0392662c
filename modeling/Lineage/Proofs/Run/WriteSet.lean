import Lineage.Proofs.Annotation.Insertions
import Lineage.Proofs.Run.Execution

/-!
# The files that a run writes

A run that succeeds writes the source files of the corpus that it changed and the aggregate file.
Every source file that was found is in the store, because no two of them lie at the same place, and
a file of the store is dirty exactly if something was put into it: a class line, or the header. As
insertions and headers never take a byte away, what is dirty is different on the disk in the end,
and what is clean is not written.

## Main definitions

- `SiteSettings.headed`: a text with the header line

## Main statements

- `Corpus.exists_recorded_plan`: what is planned for each file
- `Disk.perm_filesWith`: the source files found are those of the store
- `read_of_save`, `filesWritten_of_save`: what saving does to them
- `writes_of_run`: what a run changes, file by file
-/

namespace Lineage

/-! ## The planned content -/

/-- A text with the header line in front, if there is a header and the text does not start with
    it. -/
def SiteSettings.headed (s : SiteSettings) (text : Bytes) : Bytes :=
  match s.metaHeader with
  | none => text
  | some header =>
    if Utf8.ofString header <+: text then text else Utf8.ofString header ++ [newline] ++ text

theorem SiteSettings.headed_eq_withHeader {s : SiteSettings} {header : String}
    (h : s.metaHeader = some header) (text : Bytes) : s.headed text = withHeader header text := by
  simp only [headed, h]
  by_cases hstarts : Utf8.ofString header <+: text
  · rw [if_pos hstarts, withHeader_eq_self hstarts]
  · rw [if_neg hstarts, withHeader_eq_append hstarts]

theorem SiteSettings.sublist_headed (s : SiteSettings) (text : Bytes) :
    text.Sublist (s.headed text) := by
  cases h : s.metaHeader with
  | none =>
    rw [headed, h]
  | some header =>
    rw [headed_eq_withHeader h]
    exact sublist_withHeader header text

/-- What was put into a content is still there below the header. -/
theorem SiteSettings.headed_makeAll_ne (s : SiteSettings) {content : Bytes} {is : List Insertion}
    (h : makeAll content is ≠ content) : s.headed (makeAll content is) ≠ content := by
  intro heq
  have hheaded := s.sublist_headed (makeAll content is)
  rw [heq] at hheaded
  exact h (hheaded.antisymm (sublist_makeAll ..))

namespace Corpus

variable {c : Corpus} {s : Settings}

/-- What a plan holds for a source file: its class lines, and the header if there is one. -/
theorem exists_recorded_plan (c : Corpus) (s : Settings) :
    ∃ each : Bytes → List (List Insertion),
      (c.annotator s).Recorded s.sites.maxPasses (fun count => ((c.annotator s).passes
        ((c.annotator s).corpusBundles c.sources.store) count (.start c.sources.store)).1) each ∧
      ((c.annotator s).run c.sources.store).1
        = c.sources.store.edit (fun f => makeAll f.content (each f.content).flatten) ∧
      (c.plan s).store = c.sources.store.edit fun f =>
        s.sites.headed (makeAll f.content (each f.content).flatten) := by
  obtain ⟨each, heach⟩ := Annotator.exists_recorded (c.annotator s)
    ((c.annotator s).corpusBundles c.sources.store) s.sites.maxPasses (.start c.sources.store)
  have hrun := heach.store_run
  refine ⟨each, heach, hrun, ?_⟩
  cases hheader : s.sites.metaHeader with
  | none =>
    have hplan : (c.plan s).store = ((c.annotator s).run c.sources.store).1 := by
      simp only [plan, hheader]
    rw [hplan, hrun]
    refine Store.edit_congr fun f _ => ?_
    rw [SiteSettings.headed, hheader]
  | some header =>
    rw [store_plan hheader, hrun, Store.addHeaders, Store.edit_edit]
    · refine Store.edit_congr fun f _ => ?_
      rw [SourceFile.content_replace, SiteSettings.headed_eq_withHeader hheader]
    · exact fun f _ => sublist_makeAll ..
    · intro f _
      rw [SourceFile.content_replace]
      exact sublist_withHeader ..

end Corpus

/-- A file that is noted as changed had something put into it. -/
theorem Annotator.Recorded.exists_of_mem_changedFiles {a : Annotator} {store : Store}
    {each : Bytes → List (List Insertion)}
    (h : a.Recorded a.settings.maxPasses
      (fun count => (a.passes (a.corpusBundles store) count (.start store)).1) each)
    {path : Path} (hpath : path ∈ (a.run store).2.changedFiles) :
    ∃ f ∈ store.files, f.path = path ∧ makeAll f.content (each f.content).flatten ≠ f.content := by
  obtain ⟨hmem, hchanged⟩ := List.mem_filter.mp hpath
  obtain ⟨g, hg, rfl⟩ := List.mem_map.mp hmem
  change g ∈ (a.run store).1.files at hg
  rw [h.store_run] at hg
  obtain ⟨f, hf, rfl⟩ := List.mem_map.mp hg
  rw [SourceFile.path_replace] at hchanged
  refine ⟨f, hf, (SourceFile.path_replace ..).symm, ?_⟩
  rw [(h.insertsEach f.content).makeAll_ne_iff]
  exact ((h.changed f hf).mp (of_decide_eq_true hchanged)).resolve_left List.not_mem_nil

/-! ## The source files -/

namespace Disk

variable {s : ValidSettings} {paths : RunPaths} {d : Disk} {corpus : Corpus}

theorem mem_filesWith_of_gather
    (hgather : gather (m := StateM Disk) s.toSettings paths d = (.ok corpus, d)) {f : SourceFile}
    (hf : f ∈ corpus.sources.store.files) :
    f.path ∈ d.filesWith paths.corpus s.scan.sourceExtension := by
  obtain ⟨⟨-, -, -, hsources⟩, -⟩ := gather_eq_ok_iff.mp hgather
  obtain ⟨⟨-, files, hindex, hfiles⟩, -⟩ := scanSources_eq_ok_iff.mp hsources
  rw [hindex, Index.store_ofFiles] at hf
  exact (read_of_mem hfiles (Store.mem_of_mem_ofFiles hf)).1

/-- Every source file is in the store. -/
theorem exists_of_mem_filesWith
    (hgather : gather (m := StateM Disk) s.toSettings paths d = (.ok corpus, d)) {path : Path}
    (hpath : path ∈ d.filesWith paths.corpus s.scan.sourceExtension) :
    ∃ f ∈ corpus.sources.store.files, f.path = path := by
  obtain ⟨⟨-, -, -, hsources⟩, -⟩ := gather_eq_ok_iff.mp hgather
  obtain ⟨⟨-, files, hindex, hfiles⟩, -⟩ := scanSources_eq_ok_iff.mp hsources
  have hread : List.Forall₂ (fun path _ => (∃ f ∈ files, f.path = path) ∧ True)
      (d.filesWith paths.corpus s.scan.sourceExtension) files := by
    refine (forall₂_mem_left hfiles.flip).flip.imp ?_
    rintro path file ⟨hfile, content, -, rfl⟩
    exact ⟨⟨_, hfile, rfl⟩, trivial⟩
  obtain ⟨f, hf, hfpath⟩ := ((List.forall₂_and_left _ _).mp hread).1 path hpath
  -- the store may have another file at the same path, but that is this one
  obtain ⟨g, hg, hsame⟩ := Store.exists_mem_ofFiles hf
  have hgpath := (read_of_mem hfiles (Store.mem_of_mem_ofFiles hg)).1
  refine ⟨g, ?_, eq_of_location hgpath hpath ?_⟩
  · rw [hindex, Index.store_ofFiles]
    exact hg
  · rw [Path.location_eq_of_same hsame, hfpath]

/-- The source files that are found are those of the store, each once. -/
theorem perm_filesWith
    (hgather : gather (m := StateM Disk) s.toSettings paths d = (.ok corpus, d)) :
    (corpus.sources.store.files.map (·.path)).Perm
      (d.filesWith paths.corpus s.scan.sourceExtension) := by
  have hnodup : (corpus.sources.store.files.map (·.path)).Nodup := by
    refine (pathOrdered_iff.mp corpus.sources.store.ordered).imp fun {p q} hlt heq => ?_
    have hself : q.compare q = .eq := Std.ReflCmp.compare_self
    rw [heq, hself] at hlt
    cases hlt
  refine (List.perm_ext_iff_of_nodup hnodup (nodup_filesWith ..)).mpr fun path => ?_
  rw [List.mem_map]
  constructor
  · rintro ⟨f, hf, rfl⟩
    exact mem_filesWith_of_gather hgather hf
  · exact exists_of_mem_filesWith hgather

end Disk

/-! ## The files of a run -/

variable {s : ValidSettings} {paths : RunPaths} {d d' : Disk} {r : Report}

section

variable {corpus : Corpus} (final : Bytes → Bytes)
  (hgather : gather (m := StateM Disk) s.toSettings paths d = (.ok corpus, d))
  (hplan : (corpus.plan s.toSettings).store = corpus.sources.store.edit fun f => final f.content)
  (hsave : (corpus.plan s.toSettings).save (m := StateM Disk) s.toSettings paths.output d
    = (.ok r, d'))

include hgather hplan hsave

/-- A place that was written is that of a dirty file, and dirty files come from source files. -/
theorem exists_of_content?_ne_of_save {here : Location}
    (hne : d'.content? here ≠ d.content? here) :
    here = (Aggregate.target s.emit paths.output).location ∨
      ∃ path ∈ d.filesWith paths.corpus s.scan.sourceExtension, path.location = here := by
  by_contra hnot
  rw [not_or] at hnot
  refine hne ((changes_of_save hsave).content here ?_)
  rintro (heq | ⟨g, hg, rfl⟩)
  · exact hnot.1 heq
  · rw [hplan] at hg
    obtain ⟨f, hf, hpath, -⟩ := Store.exists_of_mem_dirtyFiles_edit hg
    exact hnot.2 ⟨f.path, Disk.mem_filesWith_of_gather hgather hf, by rw [hpath]⟩

theorem read_of_save {f : SourceFile} (hf : f ∈ corpus.sources.store.files)
    (htarget : f.path.location ≠ (Aggregate.target s.emit paths.output).location) :
    d'.read f.path = .ok (final f.content) := by
  have hbefore := (read_of_gather hgather hf).1
  have hcontent := content?_of_save final hgather hplan hsave hf htarget
  exact (changes_of_save hsave).read_of_content? hbefore hcontent

theorem read_ne_iff_of_save {f : SourceFile} (hf : f ∈ corpus.sources.store.files)
    (htarget : f.path.location ≠ (Aggregate.target s.emit paths.output).location) :
    d'.read f.path ≠ d.read f.path ↔ final f.content ≠ f.content := by
  rw [read_of_save final hgather hplan hsave hf htarget, (read_of_gather hgather hf).1, ne_eq, ne_eq,
    Except.ok.injEq]

/-- The files that are counted are those that hold something else than before: the dirty ones are
    those that the plan changes, and the store has each source file once. -/
theorem filesWritten_of_save
    (htarget : ∀ path ∈ d.filesWith paths.corpus s.scan.sourceExtension,
      path.location ≠ (Aggregate.target s.emit paths.output).location) :
    r.filesWritten = (d.filesWith paths.corpus s.scan.sourceExtension).countP
      (fun path => d'.read path ≠ d.read path) := by
  obtain ⟨count, store, d₁, target, hpersist, -, rfl⟩ := Disk.save_eq_ok_iff.mp hsave
  have hclean : ∀ f ∈ corpus.sources.store.files, f.dirty = false :=
    fun f hf => (read_of_gather hgather hf).2
  have hperm := Disk.perm_filesWith hgather
  show count = _
  rw [Disk.eq_length_of_persist hpersist, hplan, Store.dirtyFiles_edit hclean, List.length_map,
    ← List.countP_eq_length_filter, ← hperm.countP_eq, List.countP_map]
  refine List.countP_congr fun f hf => ?_
  have hplace := htarget f.path (Disk.mem_filesWith_of_gather hgather hf)
  simp only [Function.comp_apply, decide_eq_true_eq]
  exact (read_ne_iff_of_save final hgather hplan hsave hf hplace).symm

end

/-- A run that succeeds changes source files of the corpus and the aggregate file, if that is none
    of them, and no other file. Every source file then holds the text that the annotation came to,
    below the header line if there is a header and the text does not start with it. The run counts
    the source files that hold something else than before, lists only such files as changed, and
    writes the aggregate as it was rendered. -/
theorem writes_of_run (hrun : run (m := StateM Disk) s paths d = (.ok r, d'))
    (htarget : ∀ path ∈ d.filesWith paths.corpus s.scan.sourceExtension,
      path.location ≠ (Aggregate.target s.emit paths.output).location) :
    ∃ corpus, gather (m := StateM Disk) s.toSettings paths d = (.ok corpus, d) ∧
      (∀ here, d'.content? here ≠ d.content? here →
        here = (Aggregate.target s.emit paths.output).location ∨
          ∃ path ∈ d.filesWith paths.corpus s.scan.sourceExtension, path.location = here) ∧
      (∀ path ∈ d.filesWith paths.corpus s.scan.sourceExtension,
        ∃ f ∈ ((corpus.annotator s.toSettings).run corpus.sources.store).1.files,
          f.path = path ∧ d'.read path = .ok (s.sites.headed f.content)) ∧
      r.filesWritten = (d.filesWith paths.corpus s.scan.sourceExtension).countP
        (fun path => d'.read path ≠ d.read path) ∧
      (∀ path ∈ r.changedFiles, path ∈ d.filesWith paths.corpus s.scan.sourceExtension ∧
        d'.read path ≠ d.read path) ∧
      r.aggregatePath = Aggregate.target s.emit paths.output ∧
      d'.read r.aggregatePath = .ok (Utf8.ofString (Aggregate.render s.sites s.emit
        (corpus.graph s.toSettings) ∅ corpus.authoritative corpus.markup.relations.entityNames
        ).1.text) := by
  obtain ⟨corpus, saved, hgather, hsave, rfl⟩ := run_eq_ok_iff.mp hrun
  obtain ⟨each, heach, hannotated, hplan⟩ := corpus.exists_recorded_plan s.toSettings
  let final := fun content => s.sites.headed (makeAll content (each content).flatten)
  obtain ⟨count, store, d₁, target, -, hemit, hreport⟩ := Disk.save_eq_ok_iff.mp hsave
  obtain ⟨htargetPath, d₂, -, -, hwrite⟩ := Disk.emitAggregate_eq_ok_iff.mp hemit
  refine ⟨corpus, hgather, ?_, ?_, ?_, ?_, ?_, ?_⟩
  · intro here hne
    exact exists_of_content?_ne_of_save final hgather hplan hsave hne
  · intro path hpath
    obtain ⟨f, hf, rfl⟩ := Disk.exists_of_mem_filesWith hgather hpath
    rw [hannotated]
    refine ⟨_, List.mem_map_of_mem hf, SourceFile.path_replace .., ?_⟩
    rw [SourceFile.content_replace]
    exact read_of_save final hgather hplan hsave hf (htarget f.path hpath)
  · show saved.filesWritten = _
    exact filesWritten_of_save final hgather hplan hsave htarget
  · intro path hpath
    rw [hreport] at hpath
    obtain ⟨f, hf, rfl, hne⟩ := heach.exists_of_mem_changedFiles hpath
    have hfound := Disk.mem_filesWith_of_gather hgather hf
    refine ⟨hfound, ?_⟩
    apply (read_ne_iff_of_save final hgather hplan hsave hf (htarget f.path hfound)).mpr
    exact s.sites.headed_makeAll_ne hne
  · rw [hreport]
    exact htargetPath
  · rw [hreport]
    exact Disk.read_of_write hwrite

/-! ## Example -/

/-- A corpus with a source file and a markup file, beside a file that the run has no part in. -/
def workshop : Disk where
  top := .dir "corpus"
    (.file "a.lua" (Utf8.ofString "A = CreateFromMixins(B)\n")
      (.file "b.xml" (Utf8.ofString "<Ui><Frame name=\"C\" mixin=\"A\"/></Ui>") .empty))
    (.file "notes.txt" (Utf8.ofString "A = CreateFromMixins(B)\n") .empty)
  proper := by simp [Listing.Proper, Listing.names, Listing.isEntryName]

def workshopPaths : RunPaths := ⟨⟨"corpus"⟩, ⟨"out"⟩, none⟩

/-- The source file is all that the run writes beside the aggregate file, and it is counted. -/
theorem writes_of_run_workshop :
    ∃ r d', run (m := StateM Disk) .standard workshopPaths workshop = (.ok r, d') ∧
      d'.read ⟨"corpus/a.lua"⟩
        = .ok (Utf8.ofString "---@meta\n---@class A: B\nA = CreateFromMixins(B)\n") ∧
      r.filesWritten = 1 ∧
      ∀ here, d'.content? here ≠ workshop.content? here →
        here = ["out", "generated", "generated.lua"] ∨ here = ["corpus", "a.lua"] := by
  have hfirst : (run (m := StateM Disk) .standard workshopPaths workshop).1.isOk = true := by
    decide +kernel
  have hread : (run (m := StateM Disk) .standard workshopPaths workshop).2.read ⟨"corpus/a.lua"⟩
      = .ok (Utf8.ofString "---@meta\n---@class A: B\nA = CreateFromMixins(B)\n") := by
    decide +kernel
  have hbefore : workshop.read ⟨"corpus/a.lua"⟩
      = .ok (Utf8.ofString "A = CreateFromMixins(B)\n") := by
    decide +kernel
  have hfound : workshop.filesWith workshopPaths.corpus ValidSettings.standard.scan.sourceExtension
      = [⟨"corpus/a.lua"⟩] := by
    decide +kernel
  cases hrun : run (m := StateM Disk) .standard workshopPaths workshop with
  | mk result d' =>
    rw [hrun] at hfirst hread
    cases result with
    | error failure => cases hfirst
    | ok r =>
      obtain ⟨-, -, hframe, -, hcount, -⟩ := writes_of_run hrun (by rw [hfound]; decide +kernel)
      rw [hfound] at hframe hcount
      refine ⟨r, d', rfl, hread, ?_, fun here hne => ?_⟩
      · rw [hcount, List.countP_singleton, hread, hbefore]
        decide +kernel
      · rcases hframe here hne with rfl | ⟨path, hpath, rfl⟩
        · left
          decide +kernel
        · right
          rw [List.mem_singleton.mp hpath]
          decide +kernel

end Lineage
