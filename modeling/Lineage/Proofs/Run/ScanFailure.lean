import Lineage.Proofs.Run.Execution

/-!
# Runs that cannot read their corpus

A run carries out three scans before it writes anything. It reports the first of them that fails, in
the order of declarations, markup and sources, and leaves everything as it was. Once the scans have
succeeded there is nothing left to search and no markup left to read, so all that can still go wrong
is that a file or directory cannot be made or written.

## Main definitions

- `Program.FailsWith`: all failures of a program are of a kind
- `GuardedDisk`: a disk with files that cannot be read

## Main statements

- `Program.failsWith_save`: what can go wrong while saving
- `run_of_scans`: which failure a run reports
-/

namespace Lineage

/-- A file or directory could not be read, made or written. -/
def Failure.IsAccess (failure : Failure) : Prop := ∃ place cause, failure = .access place cause

/-! ## Failures of a kind -/

namespace Program

variable {σ : Type} {α β ε : Type} {P : ε → Prop}

/-- Whenever a program fails, the failure is of a kind. -/
def FailsWith (P : ε → Prop) (x : ExceptT ε (StateM σ) α) : Prop :=
  ∀ st failure st', x st = (.error failure, st') → P failure

theorem failsWith_pure (a : α) : FailsWith P (pure a : ExceptT ε (StateM σ) α) := by
  intro st failure st' h
  cases h

theorem failsWith_throw {failure : ε} (h : P failure) :
    FailsWith P (throw failure : ExceptT ε (StateM σ) α) := by
  intro st found st' hfound
  cases hfound
  exact h

theorem failsWith_lift (x : StateM σ α) :
    FailsWith P (ExceptT.lift x : ExceptT ε (StateM σ) α) := by
  intro st failure st' h
  cases h

/-- The failures of a sequence are those of its steps. -/
theorem FailsWith.bind {x : ExceptT ε (StateM σ) α} {f : α → ExceptT ε (StateM σ) β}
    (hx : FailsWith P x)
    (hf : ∀ a st st', x st = (.ok a, st') → FailsWith P (f a)) : FailsWith P (x >>= f) := by
  intro st failure st' h
  rcases bind_eq_error_iff.mp h with hfirst | ⟨a, st₁, ha, hrest⟩
  · exact hx st failure st' hfirst
  · exact hf a st st₁ ha st₁ failure st' hrest

/-! ## Saving -/

section

variable [Host (StateM σ)]

theorem failsWith_writeContent (path : Path) (content : Bytes) :
    FailsWith Failure.IsAccess (writeContent (m := StateM σ) path content) := by
  refine (failsWith_lift _).bind fun r _ _ _ => ?_
  cases r with
  | ok => exact failsWith_pure ()
  | error cause => exact failsWith_throw ⟨path, cause, rfl⟩

theorem failsWith_emitAggregate (emit : EmitSettings) (out : Path) (text : String) :
    FailsWith Failure.IsAccess (emitAggregate (m := StateM σ) emit out text) := by
  have hwrite : FailsWith Failure.IsAccess (do
      writeContent (m := StateM σ) (Aggregate.target emit out) (Utf8.ofString text)
      return Aggregate.target emit out) :=
    (failsWith_writeContent _ _).bind fun _ _ _ _ => failsWith_pure _
  rw [emitAggregate]
  cases (Aggregate.target emit out).parent? with
  | none => exact hwrite
  | some above =>
    -- the directory comes first
    refine (failsWith_lift _).bind fun r _ _ _ => ?_
    cases r with
    | ok => exact hwrite
    | error cause => exact failsWith_throw ⟨above, cause, rfl⟩

/-- What stops the writing of files is a file that cannot be written. -/
theorem isAccess_of_writeFiles {files : List SourceFile} {st st' : σ} {count : Nat}
    {failure : Failure}
    (h : writeFiles (m := StateM σ) files st = ((count, some failure), st')) :
    failure.IsAccess := by
  induction files generalizing st count with
  | nil => cases h
  | cons file files ih =>
    obtain ⟨r, st₁, -, hrest⟩ := bind_eq_iff.mp h
    cases r with
    | error cause =>
      cases hrest
      exact ⟨file.path, cause, rfl⟩
    | ok =>
      obtain ⟨⟨others, reason⟩, st₂, hothers, hlast⟩ := bind_eq_iff.mp hrest
      cases hlast
      exact ih hothers

theorem isAccess_of_persist {store store' : Store} {st st' : σ} {failure : Failure}
    (h : persist (m := StateM σ) store st = ((.error failure, store'), st')) :
    failure.IsAccess := by
  obtain ⟨⟨count, reason⟩, st₁, hwrite, hlast⟩ := bind_eq_iff.mp h
  cases reason with
  | none => cases hlast
  | some reason =>
    cases hlast
    exact isAccess_of_writeFiles hwrite

/-- Saving fails at a file or directory. -/
theorem failsWith_save (p : Plan) (s : Settings) (output : Path) :
    FailsWith Failure.IsAccess (p.save (m := StateM σ) s output) := by
  refine (failsWith_lift _).bind fun ⟨written, store⟩ st st' hpersist => ?_
  rw [lift_eq_ok_iff] at hpersist
  cases written with
  | error failure => exact failsWith_throw (isAccess_of_persist hpersist)
  | ok count =>
    refine (failsWith_pure count).bind fun _ _ _ _ => ?_
    exact (failsWith_emitAggregate _ _ _).bind fun _ _ _ _ => failsWith_pure _

end

end Program

/-! ## Which failure is reported -/

section

variable {σ : Type} [Host (StateM σ)] [Host.Quiet σ]

/-- The declarations, the markup and the sources are scanned, each with its own failure if it has
    one. A run reports the first of these and leaves the state of the host as it was. If there is
    none the corpus is read, and then a run can only fail at a file or directory that it writes.

    The failure of a scan is its root that is not there, or else the first directory that cannot be
    listed, or else the first of its files, in the order of their paths, that cannot be used. -/
theorem run_of_scans (s : ValidSettings) (paths : RunPaths) (st : σ) :
    let first := (authoritativeFailure? s.toSettings paths st).or
      ((markupFailure? s.toSettings paths st).or (sourceFailure? s.toSettings paths st))
    (∀ failure, first = some failure → run (m := StateM σ) s paths st = (.error failure, st)) ∧
      (first = none →
        (∃ corpus, gather (m := StateM σ) s.toSettings paths st = (.ok corpus, st)) ∧
        ∀ failure st', run (m := StateM σ) s paths st = (.error failure, st') →
          ∃ place cause, failure = .access place cause) ∧
      (∀ root, paths.authoritative = some root → Program.Ends
        (scanAuthoritative root s.sites.annotationMarker s.scan.sourceExtension) st
        (authoritativeFailure? s.toSettings paths st)) ∧
      Program.Ends (scanMarkup s.scan paths.corpus) st (markupFailure? s.toSettings paths st) ∧
      Program.Ends (scanSources s.scan s.sites.composeFunction paths.corpus) st
        (sourceFailure? s.toSettings paths st) ∧
      ∀ fault root extension, match scanFailure? fault st root extension with
        | some failure => FirstFailure fault st root extension failure
        | none => ∀ failure, ¬ FirstFailure fault st root extension failure := by
  intro first
  have hgather : Program.Ends (gather s.toSettings paths) st first :=
    Program.ends_gather s.toSettings paths st
  refine ⟨?_, ?_, ?_, ?_, ?_, ?_⟩
  · intro failure hfirst
    rw [hfirst] at hgather
    exact run_eq_error_of_gather hgather.eq_error
  · intro hnone
    rw [hnone] at hgather
    obtain ⟨corpus, hcorpus⟩ := hgather.exists_eq_ok
    refine ⟨⟨corpus, hcorpus⟩, fun failure st' hrun => ?_⟩
    rcases run_eq_error hrun with ⟨hfailed, -⟩ | ⟨corpus', -, hsave⟩
    · rw [hcorpus] at hfailed
      cases hfailed
    · exact Program.failsWith_save _ _ _ st failure st' hsave
  · intro root hroot
    have hends := Program.ends_scanAuthoritative root s.sites.annotationMarker
      s.scan.sourceExtension st
    rw [authoritativeFailure?, hroot]
    exact hends
  · exact Program.ends_scanMarkup s.scan paths.corpus st
  · exact Program.ends_scanSources s.scan s.sites.composeFunction paths.corpus st
  · intro fault root extension
    cases hscan : scanFailure? fault st root extension with
    | some failure => exact firstFailure_of_scanFailure? hscan
    | none => exact not_firstFailure_of_scanFailure? hscan

end

/-- A disk with files that cannot be read. -/
structure GuardedDisk where
  disk : Disk
  guarded : List Path

/-- Apart from the files that cannot be read everything is as on the disk. -/
instance : Host (StateM GuardedDisk) where
  entry path := fun g => ((Host.entry (m := StateM Disk) path g.disk).1, g)
  read path := fun g =>
    (if path ∈ g.guarded then .error (.other "Permission denied (os error 13)")
      else g.disk.read path, g)
  write path content := fun g =>
    let (r, changed) := Host.write (m := StateM Disk) path content g.disk
    (r, { g with disk := changed })
  makeDir path := fun g =>
    let (r, changed) := Host.makeDir (m := StateM Disk) path g.disk
    (r, { g with disk := changed })
  now := pure 0

instance : Host.Quiet GuardedDisk where
  entry _ _ := ⟨_, rfl⟩
  read _ _ := ⟨_, rfl⟩
  now _ := ⟨_, rfl⟩

/-- A corpus with a markup file that is cut off and a source file that cannot be read. -/
def guardedCorpus : GuardedDisk where
  disk :=
    { top := .dir "corpus"
        (.file "a.lua" [] (.file "b.xml" (Utf8.ofString "<Ui><Frame") .empty)) .empty
      proper := by simp [Listing.Proper, Listing.names, Listing.isEntryName] }
  guarded := [⟨"corpus/a.lua"⟩]

def guardedPaths : RunPaths := ⟨⟨"corpus"⟩, ⟨"out"⟩, none⟩

/-- Markup and sources both fail, and the markup is reported. -/
theorem run_of_scans_guarded :
    sourceFailure? ({} : Settings) guardedPaths guardedCorpus
        = some (.access ⟨"corpus/a.lua"⟩ (.other "Permission denied (os error 13)")) ∧
      run (m := StateM GuardedDisk) .standard guardedPaths guardedCorpus
        = (.error (.markup ⟨"corpus/b.xml"⟩
            "syntax error: tag not closed: `>` not found before end of input at byte 10"),
          guardedCorpus) := by
  have hmarkup : markupFailure? ({} : Settings) guardedPaths guardedCorpus
      = some (.markup ⟨"corpus/b.xml"⟩
          "syntax error: tag not closed: `>` not found before end of input at byte 10") := by
    decide +kernel
  refine ⟨by decide +kernel, ?_⟩
  apply (run_of_scans .standard guardedPaths guardedCorpus).1
  -- nothing is declared elsewhere
  show (none : Option Failure).or (Option.or (markupFailure? {} guardedPaths guardedCorpus) _) = _
  rw [hmarkup]
  rfl

end Lineage
