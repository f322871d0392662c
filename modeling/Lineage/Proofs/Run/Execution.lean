import Lineage.Proofs.Run.Planning
import Lineage.Proofs.Run.Reading
import Lineage.Proofs.Run.Saving

/-!
# What a run does to a disk

A run reads, plans and saves. It succeeds or fails with one of the three, and the clock plays no
part in that. If a plan holds for every source file what a rule makes of its content, then this is
what the files hold once the plan is saved, whether they had to be written or not; only the
aggregate file may have taken the place of one of them.

## Main statements

- `run_eq_ok_iff`, `run_eq_error`: a run, step by step
- `changes_of_save`: what is written
- `read_of_gather`: the source files are those on the disk
- `content?_of_save`: what they hold afterwards
-/

namespace Lineage

variable {s : ValidSettings} {paths : RunPaths} {d d' : Disk} {corpus : Corpus}
  {failure : Failure} {r : Report}

/-! ## Steps -/

theorem run_eq_ok_iff :
    run (m := StateM Disk) s paths d = (.ok r, d') ↔
      ∃ corpus saved, gather (m := StateM Disk) s.toSettings paths d = (.ok corpus, d) ∧
        (corpus.plan s.toSettings).save (m := StateM Disk) s.toSettings paths.output d
          = (.ok saved, d') ∧ r = { saved with elapsedMs := 0 } := by
  have hnow : ∀ d : Disk,
      (ExceptT.lift Host.now : ExceptT Failure (StateM Disk) Nat) d = (.ok 0, d) := fun _ => rfl
  rw [run, Program.bind_eq_ok_iff]
  constructor
  · rintro ⟨started, d₁, hstarted, hrest⟩
    rw [hnow] at hstarted
    cases hstarted
    obtain ⟨corpus, d₂, hgather, hrest⟩ := Program.bind_eq_ok_iff.mp hrest
    obtain ⟨-, rfl⟩ := Disk.gather_eq_ok_iff.mp hgather
    obtain ⟨saved, d₃, hsave, hrest⟩ := Program.bind_eq_ok_iff.mp hrest
    obtain ⟨finished, d₄, hfinished, hlast⟩ := Program.bind_eq_ok_iff.mp hrest
    rw [hnow] at hfinished
    cases hfinished
    obtain ⟨rfl, rfl⟩ := Program.pure_eq_ok_iff.mp hlast
    exact ⟨corpus, saved, hgather, hsave, rfl⟩
  · rintro ⟨corpus, saved, hgather, hsave, rfl⟩
    refine ⟨0, d, hnow d, Program.bind_eq_ok_iff.mpr ⟨corpus, d, hgather, ?_⟩⟩
    refine Program.bind_eq_ok_iff.mpr ⟨saved, d', hsave, ?_⟩
    exact Program.bind_eq_ok_iff.mpr ⟨0, d', hnow d', rfl⟩

section

variable {σ : Type} [Host (StateM σ)] [Host.Quiet σ] {st st' : σ}

/-- The clock does not fail. -/
theorem exists_now (st : σ) : ∃ moment,
    (ExceptT.lift Host.now : ExceptT Failure (StateM σ) Nat) st = (.ok moment, st) := by
  obtain ⟨moment, hmoment⟩ := Host.Quiet.now st
  exact ⟨moment, Program.lift_eq_ok_iff.mpr hmoment⟩

/-- A run that cannot read its corpus fails with the same failure. -/
theorem run_eq_error_of_gather
    (h : gather (m := StateM σ) s.toSettings paths st = (.error failure, st)) :
    run (m := StateM σ) s paths st = (.error failure, st) := by
  obtain ⟨started, hstarted⟩ := exists_now st
  refine Program.bind_eq_error_iff.mpr (.inr ⟨started, st, hstarted, ?_⟩)
  exact Program.bind_eq_error_iff.mpr (.inl h)

/-- A run that fails does so while it reads, with the state of the host as it was, or while it
    saves. -/
theorem run_eq_error (h : run (m := StateM σ) s paths st = (.error failure, st')) :
    (gather (m := StateM σ) s.toSettings paths st = (.error failure, st) ∧ st' = st) ∨
      ∃ corpus, gather (m := StateM σ) s.toSettings paths st = (.ok corpus, st) ∧
        (corpus.plan s.toSettings).save (m := StateM σ) s.toSettings paths.output st
          = (.error failure, st') := by
  obtain ⟨r, hgather, -⟩ := Program.ends_gather s.toSettings paths st
  obtain ⟨started, hstarted⟩ := exists_now st
  rw [run] at h
  rcases Program.bind_eq_error_iff.mp h with hfailed | ⟨_, _, hclock, hrest⟩
  · rw [hstarted] at hfailed
    cases hfailed
  · rw [hstarted] at hclock
    cases hclock
    rcases Program.bind_eq_error_iff.mp hrest with hfailed | ⟨corpus, st₁, hfound, hsaving⟩
    · rw [hgather] at hfailed
      cases hfailed
      exact .inl ⟨hgather, rfl⟩
    · rw [hgather] at hfound
      cases hfound
      refine .inr ⟨corpus, hgather, ?_⟩
      rcases Program.bind_eq_error_iff.mp hsaving with hsave | ⟨saved, st₂, -, hlast⟩
      · exact hsave
      · obtain ⟨finished, hfinished⟩ := exists_now st₂
        rcases Program.bind_eq_error_iff.mp hlast with hfailed | ⟨_, _, -, hreport⟩
        · rw [hfinished] at hfailed
          cases hfailed
        · cases hreport

end

/-- Saving writes the dirty files and the aggregate file, and nothing else. -/
theorem changes_of_save
    (hsave : (corpus.plan s.toSettings).save (m := StateM Disk) s.toSettings paths.output d
      = (.ok r, d')) :
    d.Changes (fun here => here = (Aggregate.target s.emit paths.output).location ∨
      ∃ f ∈ (corpus.plan s.toSettings).store.dirtyFiles, f.path.location = here) d' := by
  obtain ⟨count, store, d₁, target, hpersist, hemit, -⟩ := Disk.save_eq_ok_iff.mp hsave
  have hfiles := (Disk.written_of_persist hpersist).changes
  have haggregate := Disk.changes_emitAggregate hemit
  exact (hfiles.mono fun here => .inr).trans (haggregate.mono fun here => .inl)

/-! ## Source files -/

/-- The source files of a corpus are as they are on the disk. -/
theorem read_of_gather (hgather : gather (m := StateM Disk) s.toSettings paths d = (.ok corpus, d))
    {f : SourceFile} (hf : f ∈ corpus.sources.store.files) :
    d.read f.path = .ok f.content ∧ f.dirty = false := by
  obtain ⟨⟨-, -, -, hsources⟩, -⟩ := Disk.gather_eq_ok_iff.mp hgather
  obtain ⟨⟨-, files, hindex, hfiles⟩, -⟩ := Disk.scanSources_eq_ok_iff.mp hsources
  rw [hindex, Index.store_ofFiles] at hf
  have hmem := Store.mem_of_mem_ofFiles hf
  exact ⟨(Disk.read_of_mem hfiles hmem).2, Disk.dirty_eq_false_of_mem hfiles hmem⟩

/-- What a source file holds after saving, unless it lies where the aggregate file goes. -/
theorem content?_of_save (final : Bytes → Bytes)
    (hgather : gather (m := StateM Disk) s.toSettings paths d = (.ok corpus, d))
    (hplan : (corpus.plan s.toSettings).store
      = corpus.sources.store.edit fun f => final f.content)
    (hsave : (corpus.plan s.toSettings).save (m := StateM Disk) s.toSettings paths.output d
      = (.ok r, d'))
    {f : SourceFile} (hf : f ∈ corpus.sources.store.files)
    (htarget : f.path.location ≠ (Aggregate.target s.emit paths.output).location) :
    d'.content? f.path.location = some (final f.content) := by
  obtain ⟨count, store, d₁, target, hpersist, hemit, -⟩ := Disk.save_eq_ok_iff.mp hsave
  have hwritten := Disk.written_of_persist hpersist
  have hread := (read_of_gather hgather hf).1
  -- the aggregate file is written last, but somewhere else
  rw [(Disk.changes_emitAggregate hemit).content _ htarget]
  by_cases hthere : ∃ g ∈ (corpus.plan s.toSettings).store.dirtyFiles,
      g.path.location = f.path.location
  · -- whatever was written last at this place came from the same content
    obtain ⟨g, hg, hlocation⟩ := hthere
    obtain ⟨k, hk, hsame, hcontent⟩ := hwritten.exists_content? hg
    rw [hplan] at hk
    obtain ⟨source, hsource, hpath, hfinal⟩ := Store.exists_of_mem_dirtyFiles_edit hk
    have hplace : source.path.location = f.path.location := by
      rw [← hpath, hsame, hlocation]
    have heq : source.content = f.content :=
      Disk.content_eq_of_location hread (read_of_gather hgather hsource).1 hplace
    rw [← hlocation, hcontent, hfinal, heq]
  · -- nothing was written there, so the file had nothing to change
    have hfinal : final f.content = f.content := by
      by_contra hne
      apply hthere
      rw [hplan]
      exact ⟨_, Store.mem_dirtyFiles_edit hf hne, by rw [SourceFile.path_replace]⟩
    rw [hwritten.changes.content _ hthere, hfinal]
    exact (Disk.read_eq_ok_iff.mp hread).2

end Lineage
