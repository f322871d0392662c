import Lineage.Proofs.Run.Execution

/-!
# Failed runs

A run that fails while it reads leaves the disk as it is. The source files are written before the
aggregate file and nothing is taken back, so a run that fails while it saves leaves behind whatever
it had written by then: the dirty files in front of the one that was refused, or all of them if the
aggregate file was. Every dirty file holds something else than what was read, so each of them is a
trace.

Nothing here relies on a file being writable that could be read.

## Main definitions

- `StopsAfter`: how a run failed that was saving
- `StartsNoWriting`: no source file gets written

## Main statements

- `StopsAfter.content?_ne_iff`: the files that a failed run changed
- `contents_of_failed_run`: what a failed run leaves behind, and when that is nothing
-/

namespace Lineage

variable {s : ValidSettings} {paths : RunPaths} {d d' : Disk} {corpus : Corpus}
  {failure : Failure}

/-! ## Dirty files are changes -/

/-- What is planned for a dirty file differs from what is on the disk. -/
theorem content?_ne_of_mem_dirtyFiles
    (hgather : gather (m := StateM Disk) s.toSettings paths d = (.ok corpus, d))
    {g : SourceFile} (hg : g ∈ (corpus.plan s.toSettings).store.dirtyFiles) :
    d.content? g.path.location ≠ some g.content := by
  have hgrown := Corpus.grown_plan corpus s.toSettings
  obtain ⟨f, hf, hpath, hne⟩ :=
    hgrown.exists_of_mem_dirtyFiles (fun f hf => (read_of_gather hgather hf).2) hg
  have hcontent := (Disk.read_eq_ok_iff.mp (read_of_gather hgather hf).1).2
  rw [hpath, hcontent]
  intro heq
  exact hne (Option.some.inj heq).symm

/-! ## Where a run fails -/

/-- A run failed while it was saving, after it had written some source files: the next one was
    refused, or all were written and the directory of the aggregate file could not be made or that
    file was refused. -/
inductive StopsAfter (plan : Plan) (target : Path) (written : List SourceFile) (d d' : Disk) :
    Failure → Prop where
  | source {next : SourceFile} {later : List SourceFile} {cause : FileError}
      (dirty : plan.store.dirtyFiles = written ++ next :: later) (saved : d.Written written d')
      (refused : d'.write next.path next.content = .error cause) :
      StopsAfter plan target written d d' (.access next.path cause)
  | directory {d₁ : Disk} {above : Path} {cause : FileError}
      (dirty : plan.store.dirtyFiles = written) (saved : d.Written written d₁)
      (parent : target.parent? = some above)
      (refused : Host.makeDirs (m := StateM Disk) above d₁ = (.error cause, d')) :
      StopsAfter plan target written d d' (.access above cause)
  | aggregate {d₁ : Disk} {cause : FileError}
      (dirty : plan.store.dirtyFiles = written) (saved : d.Written written d₁)
      (directories : d₁.Changes (fun _ => False) d')
      (refused : d'.write target (Utf8.ofString plan.aggregate.text) = .error cause) :
      StopsAfter plan target written d d' (.access target cause)

theorem exists_stopsAfter_of_save {plan : Plan} {output : Path}
    (h : plan.save (m := StateM Disk) s.toSettings output d = (.error failure, d')) :
    ∃ written, StopsAfter plan (Aggregate.target s.emit output) written d d' failure := by
  rcases Disk.save_eq_error h with ⟨store, hpersist⟩ | ⟨count, store, d₁, hpersist, hemit⟩
  · obtain ⟨written, next, later, cause, hdirty, hwritten, hrefused, rfl⟩ :=
      Disk.written_of_persist_error hpersist
    exact ⟨written, .source hdirty hwritten hrefused⟩
  · have hwritten := Disk.written_of_persist hpersist
    rcases Disk.emitAggregate_eq_error hemit with
      ⟨above, cause, hparent, hrefused, rfl⟩ | ⟨cause, hdirectories, hrefused, rfl⟩
    · exact ⟨_, .directory rfl hwritten hparent hrefused⟩
    · exact ⟨_, .aggregate rfl hwritten hdirectories hrefused⟩

namespace StopsAfter

variable {plan : Plan} {target : Path} {written : List SourceFile}

/-- Whatever was refused, no file was changed but those that were written. -/
theorem exists_written (h : StopsAfter plan target written d d' failure) :
    written <+: plan.store.dirtyFiles ∧
      ∃ d₁, d.Written written d₁ ∧ ∀ here, d'.content? here = d₁.content? here := by
  cases h with
  | @source next later cause dirty saved refused =>
    exact ⟨⟨next :: later, dirty.symm⟩, d', saved, fun _ => rfl⟩
  | directory dirty saved parent refused =>
    have hdirectories := (Disk.changes_makeDirs refused).1
    exact ⟨dirty ▸ List.prefix_refl _, _, saved, fun here => hdirectories.content here not_false⟩
  | aggregate dirty saved directories refused =>
    exact ⟨dirty ▸ List.prefix_refl _, _, saved, fun here => directories.content here not_false⟩

/-- What was written is there, and stays. -/
theorem exists_content? (h : StopsAfter plan target written d d' failure) {f : SourceFile}
    (hf : f ∈ written) :
    ∃ g ∈ written, g.path.location = f.path.location ∧
      d'.content? f.path.location = some g.content := by
  obtain ⟨-, d₁, hwritten, hsame⟩ := h.exists_written
  rw [hsame]
  exact hwritten.exists_content? hf

/-- The files that hold something else than before are those that were written. -/
theorem content?_ne_iff (h : StopsAfter (corpus.plan s.toSettings) target written d d' failure)
    (hgather : gather (m := StateM Disk) s.toSettings paths d = (.ok corpus, d))
    (here : Location) :
    d'.content? here ≠ d.content? here ↔ ∃ f ∈ written, f.path.location = here := by
  obtain ⟨hdirty, d₁, hwritten, hsame⟩ := h.exists_written
  constructor
  · intro hne
    by_contra hnot
    apply hne
    rw [hsame, hwritten.changes.content here hnot]
  · rintro ⟨f, hf, rfl⟩
    obtain ⟨g, hg, hlocation, hcontent⟩ := h.exists_content? hf
    have hne := content?_ne_of_mem_dirtyFiles hgather (hdirty.subset hg)
    rw [hlocation] at hne
    rw [hcontent]
    exact hne.symm

/-- If the path that was refused is not that of a dirty file, all dirty files were written. -/
theorem eq_dirtyFiles {place : Path} {cause : FileError}
    (h : StopsAfter plan target written d d' (.access place cause))
    (hplace : place ∉ plan.store.dirtyPaths) : written = plan.store.dirtyFiles := by
  cases h with
  | directory dirty saved parent refused => exact dirty.symm
  | aggregate dirty saved directories refused => exact dirty.symm
  | @source next later cause dirty saved refused =>
    apply absurd _ hplace
    rw [Store.dirtyPaths, dirty]
    simp

end StopsAfter

/-! ## What is left behind -/

/-- No source file gets written: the corpus cannot be read, none of its files is dirty, or the first
    dirty one is refused. -/
def StartsNoWriting (s : ValidSettings) (paths : RunPaths) (d : Disk) : Prop :=
  ∀ corpus, gather (m := StateM Disk) s.toSettings paths d = (.ok corpus, d) →
    ∀ f, (corpus.plan s.toSettings).store.dirtyFiles.head? = some f →
      ∃ cause, d.write f.path f.content = .error cause

theorem StopsAfter.startsNoWriting_iff {target : Path} {written : List SourceFile}
    (h : StopsAfter (corpus.plan s.toSettings) target written d d' failure)
    (hgather : gather (m := StateM Disk) s.toSettings paths d = (.ok corpus, d)) :
    StartsNoWriting s paths d ↔ written = [] := by
  constructor
  · intro hnone
    cases written with
    | nil => rfl
    | cons f rest =>
      -- the first file was written, so it was not refused
      obtain ⟨⟨tail, hdirty⟩, d₁, hwritten, -⟩ := h.exists_written
      obtain ⟨cause, hrefused⟩ := hnone corpus hgather f (by rw [← hdirty]; rfl)
      cases hwritten with
      | cons first others =>
        rw [hrefused] at first
        cases first
  · rintro rfl other hother f hhead
    rw [hgather] at hother
    cases hother
    cases h with
    | source dirty saved refused =>
      cases saved
      rw [dirty] at hhead
      cases hhead
      exact ⟨_, refused⟩
    | directory dirty saved parent refused =>
      rw [dirty] at hhead
      cases hhead
    | aggregate dirty saved directories refused =>
      rw [dirty] at hhead
      cases hhead

/-- A run that fails while it reads leaves the disk as it was. One that fails while it saves has
    written the dirty files up to some point: exactly these hold something else than before, each
    what was planned for it. So all files are as before if and only if none was written. -/
theorem contents_of_failed_run (hrun : run (m := StateM Disk) s paths d = (.error failure, d')) :
    ((gather (m := StateM Disk) s.toSettings paths d = (.error failure, d) ∧ d' = d) ∨
      ∃ corpus written, gather (m := StateM Disk) s.toSettings paths d = (.ok corpus, d) ∧
        StopsAfter (corpus.plan s.toSettings) (Aggregate.target s.emit paths.output) written d d'
          failure ∧
        (∀ here, d'.content? here ≠ d.content? here ↔ ∃ f ∈ written, f.path.location = here) ∧
        ∀ f ∈ written, ∃ g ∈ written, g.path.location = f.path.location ∧
          d'.content? f.path.location = some g.content) ∧
    ((∀ here, d'.content? here = d.content? here) ↔ StartsNoWriting s paths d) := by
  rcases run_eq_error hrun with ⟨hgather, rfl⟩ | ⟨corpus, hgather, hsave⟩
  · refine ⟨.inl ⟨hgather, rfl⟩, fun _ corpus hcorpus => ?_, fun _ _ => rfl⟩
    rw [hgather] at hcorpus
    cases hcorpus
  · obtain ⟨written, hstops⟩ := exists_stopsAfter_of_save hsave
    have hchanged := hstops.content?_ne_iff hgather
    refine ⟨.inr ⟨corpus, written, hgather, hstops, hchanged, fun f => hstops.exists_content?⟩, ?_⟩
    rw [hstops.startsNoWriting_iff hgather]
    constructor
    · -- every file that was written is a trace
      intro hsame
      rw [List.eq_nil_iff_forall_not_mem]
      intro f hf
      exact (hchanged f.path.location).mpr ⟨f, hf, rfl⟩ (hsame _)
    · rintro rfl here
      by_contra hne
      obtain ⟨f, hf, -⟩ := (hchanged here).mp hne
      cases hf

/-- A corpus with one source file, and a directory where the aggregate file is to be. -/
def blocked : Disk where
  top := .dir "corpus" (.file "a.lua" (Utf8.ofString "A = \x7b\x7d\n") .empty)
    (.dir "out" (.dir "generated" (.dir "generated.lua" .empty .empty) .empty) .empty)
  proper := by simp [Listing.Proper, Listing.names, Listing.isEntryName]

def blockedPaths : RunPaths := ⟨⟨"corpus"⟩, ⟨"out"⟩, none⟩

/-- The paths of the source files that a run is going to write. -/
def plannedPaths (s : ValidSettings) (paths : RunPaths) (d : Disk) : Except Failure (List Path) :=
  (gather (m := StateM Disk) s.toSettings paths d).1.map fun corpus =>
    (corpus.plan s.toSettings).store.dirtyPaths

theorem contents_of_failed_run_blocked :
    ∃ cause d', run (m := StateM Disk) .standard blockedPaths blocked
        = (.error (.access ⟨"out/generated/generated.lua"⟩ cause), d') ∧
      ∀ here, d'.content? here ≠ blocked.content? here ↔ here = ["corpus", "a.lua"] := by
  have hfails : (run (m := StateM Disk) .standard blockedPaths blocked).1.map (fun _ => ())
      = .error (.access ⟨"out/generated/generated.lua"⟩ .isDirectory) := by decide +kernel
  have hplanned : plannedPaths .standard blockedPaths blocked = .ok [⟨"corpus/a.lua"⟩] := by
    decide +kernel
  cases hrun : run (m := StateM Disk) .standard blockedPaths blocked with
  | mk result d' =>
    rw [hrun] at hfails
    cases result with
    | ok r => cases hfails
    | error failure =>
      obtain rfl : failure = .access ⟨"out/generated/generated.lua"⟩ .isDirectory :=
        Except.error.inj hfails
      refine ⟨.isDirectory, d', rfl, fun here => ?_⟩
      rcases (contents_of_failed_run hrun).1 with ⟨hgather, -⟩ |
        ⟨corpus, written, hgather, hstops, hchanged, -⟩
      · rw [plannedPaths, hgather] at hplanned
        cases hplanned
      · rw [plannedPaths, hgather] at hplanned
        have hpaths : (corpus.plan ValidSettings.standard.toSettings).store.dirtyPaths
            = [⟨"corpus/a.lua"⟩] := Except.ok.inj hplanned
        have hall := hstops.eq_dirtyFiles (by simp [hpaths])
        rw [Store.dirtyPaths, ← hall] at hpaths
        obtain ⟨f, rfl, hpath⟩ := List.map_eq_singleton_iff.mp hpaths
        have hlocation : f.path.location = ["corpus", "a.lua"] := by
          rw [hpath]
          decide +kernel
        rw [hchanged, ← hlocation]
        simp [eq_comm]

/-- The aggregate file is refused when the source file has its class line already. -/
theorem blocked_annotated :
    (run (m := StateM Disk) .standard blockedPaths blocked).1.map (fun _ => ())
        = .error (.access ⟨"out/generated/generated.lua"⟩ .isDirectory) ∧
      blocked.read ⟨"corpus/a.lua"⟩ = .ok (Utf8.ofString "A = \x7b\x7d\n") ∧
      (run (m := StateM Disk) .standard blockedPaths blocked).2.read ⟨"corpus/a.lua"⟩
        = .ok (Utf8.ofString "---@meta\n---@class A\nA = \x7b\x7d\n") := by
  decide +kernel

end Lineage
