import Lineage.Proofs.Annotation.Convergence
import Lineage.Proofs.Annotation.MetaHeader
import Lineage.Proofs.Source.Index
import Lineage.Run.Basic

/-!
# Planning twice

What a run writes is planned from the files it read. If the annotation of a corpus converges, every
file is planned to hold all its class lines below the header. A plan for the corpus as it is then
changes nothing, and has the same aggregate.

## Main definitions

- `Corpus.finish` is the content of a file after a run
- `Corpus.finished` is a corpus after a run

## Main statements

- `Corpus.Converges.store_plan`: what is planned for every file
- `Corpus.Converges.plan_finished`: the plan for the corpus after a run
-/

namespace Lineage

namespace Corpus

variable {c : Corpus} {s : Settings} {header : String}

/-! ## Parts of a plan -/

theorem store_plan (hheader : s.sites.metaHeader = some header) :
    (c.plan s).store = ((c.annotator s).run c.sources.store).1.addHeaders header := by
  simp only [plan, hheader]

theorem metaHeadersAdded_plan (hheader : s.sites.metaHeader = some header) :
    (c.plan s).report.metaHeadersAdded
      = ((c.annotator s).run c.sources.store).1.countWithoutHeader header := by
  simp only [plan, hheader]

theorem aggregate_plan : (c.plan s).aggregate
    = (Aggregate.render s.sites s.emit (c.graph s) ∅ c.authoritative
        c.markup.relations.entityNames).1 := rfl

theorem passes_plan :
    (c.plan s).report.passes = ((c.annotator s).run c.sources.store).2.passes := rfl

theorem annotationsInserted_plan : (c.plan s).report.annotationsInserted
    = ((c.annotator s).run c.sources.store).2.annotationsInserted := rfl

theorem boundExceeded_plan : (c.plan s).report.boundExceeded
    = ((c.annotator s).run c.sources.store).2.boundExceeded := rfl

/-- A plan takes no byte away from the source files. -/
theorem grown_plan (c : Corpus) (s : Settings) : c.sources.store.Grown (c.plan s).store := by
  have hrun := Annotator.grown_run (c.annotator s) c.sources.store
  cases hheader : s.sites.metaHeader with
  | none =>
    have hstore : (c.plan s).store = ((c.annotator s).run c.sources.store).1 := by
      simp only [plan, hheader]
    rw [hstore]
    exact hrun
  | some header =>
    rw [store_plan hheader]
    exact hrun.edit fun f _ => sublist_withHeader header f.content

/-! ## After a run -/

/-- What a file holds after a run: all its class lines, and the header above. -/
def finish (c : Corpus) (s : Settings) (header : String) (content : Bytes) : Bytes :=
  withHeader header ((c.annotator s).annotateAll content)

/-- A file as it is read after a run. -/
def finishFile (c : Corpus) (s : Settings) (header : String) (f : SourceFile) : SourceFile :=
  .ofContent f.path (c.finish s header f.content)

/-- A corpus as it is read after a run, given its source files. -/
def finished (c : Corpus) (s : Settings) (header : String) (files : List SourceFile) : Corpus :=
  { c with sources := .ofFiles s.sites.composeFunction (files.map (c.finishFile s header)) }

/-- A corpus of some files whose annotation converges, with a safe header. Two files at the same
    path are the same file read twice. -/
structure Converges (c : Corpus) (s : Settings) (header : String) (files : List SourceFile) :
    Prop where
  sources : c.sources = .ofFiles s.sites.composeFunction files
  contents : ∀ f ∈ files, ∀ g ∈ files, g.path.compare f.path = .eq → g.content = f.content
  metaHeader : s.sites.metaHeader = some header
  headerSafe : s.sites.HeaderSafe header
  writable : (c.annotator s).Writable c.sources.store
  converged : (c.plan s).report.boundExceeded = false

namespace Converges

variable {files : List SourceFile} (h : c.Converges s header files)

include h

theorem mem_files {f : SourceFile} (hf : f ∈ c.sources.store.files) : f ∈ files := by
  rw [h.sources, Index.store_ofFiles] at hf
  exact Store.mem_of_mem_ofFiles hf

theorem exists_mem_store {f : SourceFile} (hf : f ∈ files) :
    ∃ g ∈ c.sources.store.files, g.path.compare f.path = .eq ∧ g.content = f.content := by
  obtain ⟨g, hg, hsame⟩ := Store.exists_mem_ofFiles hf
  rw [← Index.store_ofFiles s.sites.composeFunction, ← h.sources] at hg
  exact ⟨g, hg, hsame, h.contents f hf g (h.mem_files hg) hsame⟩

theorem run_converged : ((c.annotator s).run c.sources.store).2.converged = true := by
  have hbound := h.converged
  rw [boundExceeded_plan] at hbound
  rw [Annotator.Outcome.converged, hbound]
  rfl

/-- Every file gets its class lines and the header. -/
theorem store_plan : (c.plan s).store
    = c.sources.store.edit fun f => c.finish s header f.content := by
  rw [Corpus.store_plan h.metaHeader, Annotator.run_eq_annotateAll h.writable h.run_converged,
    Store.addHeaders, Store.edit_edit]
  · refine Store.edit_congr fun f _ => ?_
    rw [SourceFile.content_replace, finish]
  · intro f _
    rw [Annotator.annotateAll_eq_annotate]
    exact Annotator.sublist_annotate ..
  · intro f _
    rw [SourceFile.content_replace]
    exact sublist_withHeader ..

/-! ## The second plan -/

theorem files_finished : (c.finished s header files).sources.store.files
    = c.sources.store.files.map (c.finishFile s header) := by
  have hpath : ∀ f, (c.finishFile s header f).path = f.path := fun _ => rfl
  rw [finished, Index.store_ofFiles, Store.files_ofFiles_map hpath, h.sources,
    Index.store_ofFiles]

/-- The run changes no bundle and no parent. -/
theorem arguments_finish {f : SourceFile} (hf : f ∈ c.sources.store.files) :
    Index.arguments s.sites.composeFunction (c.finish s header f.content)
      = Index.arguments s.sites.composeFunction f.content := by
  have hwritten := Annotator.constructionsIn_annotate_filter h.writable.settings
    (h.writable.isLine f hf) fun _ => true
  rw [List.filter_true, ← Annotator.annotateAll_eq_annotate] at hwritten
  have hbelow := Annotator.constructionsIn_withHeader (a := c.annotator s) h.headerSafe
    ((c.annotator s).annotateAll f.content)
  rw [hwritten, List.map_map] at hbelow
  -- writing lines and the header above only moves the constructions
  rw [Index.arguments, Index.arguments]
  show ((c.annotator s).constructionsIn (withHeader header _)).map _ = _
  rw [hbelow, List.map_map]
  rfl

theorem graph_finished : (c.finished s header files).graph s = c.graph s := by
  have hparents : (c.finished s header files).sources.composedParents
      = c.sources.composedParents := by
    rw [h.sources]
    refine Index.composedParents_ofFiles fun f hf => ?_
    obtain ⟨g, hg, -, hcontent⟩ := h.exists_mem_store hf
    have harguments := h.arguments_finish hg
    rw [hcontent] at harguments
    exact harguments
  rw [graph, hparents]
  rfl

/-- Nothing is left open after the run. -/
theorem openMatches_finished :
    (c.annotator s).openMatches (c.finished s header files).sources.store = [] := by
  rw [List.eq_nil_iff_forall_not_mem]
  intro m hm
  obtain ⟨g, hg, hopen⟩ := Annotator.mem_openMatches.mp hm
  rw [h.files_finished] at hg
  obtain ⟨f, hf, rfl⟩ := List.mem_map.mp hg
  have hnone := Annotator.openIn_annotateAll h.writable.settings (h.writable.isLine f hf)
  have hbelow := Annotator.openIn_withHeader (a := c.annotator s) h.headerSafe
    ((c.annotator s).annotateAll f.content)
  rw [hnone, List.map_nil] at hbelow
  have hempty : m ∈ (c.annotator s).openIn (withHeader header
      ((c.annotator s).annotateAll f.content)) := hopen
  rw [hbelow] at hempty
  cases hempty

/-- Every file has the header after the run. -/
theorem withHeader?_of_mem_finished {f : SourceFile}
    (hf : f ∈ (c.finished s header files).sources.store.files) :
    withHeader? header f.content = none := by
  rw [h.files_finished] at hf
  obtain ⟨g, -, rfl⟩ := List.mem_map.mp hf
  exact withHeader?_withHeader header _

/-- A plan for the corpus after a run: one idle pass, no headers, nothing to write but the same
    aggregate. -/
theorem plan_finished (hbound : 0 < s.sites.maxPasses) :
    ((c.finished s header files).plan s).store.dirtyFiles = [] ∧
      ((c.finished s header files).plan s).aggregate = (c.plan s).aggregate ∧
      ((c.finished s header files).plan s).report.passes = 1 ∧
      ((c.finished s header files).plan s).report.annotationsInserted = 0 ∧
      ((c.finished s header files).plan s).report.metaHeadersAdded = 0 := by
  obtain ⟨hstore, hpasses, hinserted⟩ := Annotator.run_of_openMatches_eq_nil
    (a := (c.finished s header files).annotator s) h.openMatches_finished hbound
  have hsame : (c.finished s header files).sources.store.addHeaders header
      = (c.finished s header files).sources.store := by
    refine Store.edit_eq_self fun f hf => ?_
    rw [withHeader, h.withHeader?_of_mem_finished hf]
    rfl
  refine ⟨?_, ?_, ?_, ?_, ?_⟩
  · -- the files are as they were read, so none is dirty
    rw [Corpus.store_plan h.metaHeader, hstore, hsame, Store.dirtyFiles, List.filter_eq_nil_iff]
    intro f hf
    rw [h.files_finished] at hf
    obtain ⟨g, -, rfl⟩ := List.mem_map.mp hf
    simp [finishFile, SourceFile.ofContent]
  · rw [aggregate_plan, aggregate_plan, h.graph_finished]
    rfl
  · rw [passes_plan, hpasses]
  · rw [annotationsInserted_plan, hinserted]
  · rw [metaHeadersAdded_plan h.metaHeader, hstore, Store.countWithoutHeader, List.countP_eq_zero]
    intro f hf
    rw [h.withHeader?_of_mem_finished hf]
    simp

end Converges

end Corpus

end Lineage
