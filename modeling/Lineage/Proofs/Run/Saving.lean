import Lineage.Proofs.Disk.Host
import Lineage.Proofs.Source.Store
import Lineage.Run.Basic

/-!
# Saving to a disk

Saving writes the dirty files at their paths and the aggregate file at its own, and changes nothing
else that is visible. Saving the same aggregate again has no effect. Where something is refused,
what was written before it stays.

## Main definitions

- `PlacedApart`: files at different places
- `Disk.Written`: files were written one after another

## Main statements

- `PlacedApart.of_insertFile`: files at different places without the last one that was added
- `Disk.written_of_writeFiles`: files are written up to the first that is refused
- `Disk.persist_of_written`, `persist_of_dirtyFiles_eq_nil`: saving where nothing is refused
- `Disk.Written.changes`, `Disk.Written.read`: what the written files hold
- `Disk.changes_emitAggregate`, `Disk.emitAggregate_of_emitAggregate`: the aggregate file
- `Disk.save_eq_ok_iff`, `Disk.save_eq_error`: one after the other
-/

namespace Lineage

/-! ## Files at different places -/

/-- No two files of a list lie at the same place. -/
def PlacedApart (files : List SourceFile) : Prop :=
  files.Pairwise fun f g => f.path.location ≠ g.path.location

theorem placedApart_iff {files : List SourceFile} :
    PlacedApart files ↔ (files.map (·.path)).Pairwise fun p q => p.location ≠ q.location := by
  rw [PlacedApart, List.pairwise_map]

theorem PlacedApart.eq_of_location {files : List SourceFile} (h : PlacedApart files)
    {f g : SourceFile} (hf : f ∈ files) (hg : g ∈ files)
    (hlocation : f.path.location = g.path.location) : f = g :=
  List.inj_on_of_nodup_map (List.pairwise_map.mpr h) hf hg hlocation

theorem PlacedApart.of_paths {files files' : List SourceFile} (h : PlacedApart files)
    (hpaths : files'.map (·.path) = files.map (·.path)) : PlacedApart files' := by
  rw [placedApart_iff] at h ⊢
  rw [hpaths]
  exact h

/-- Files at different places were so before one of them was inserted: it takes the place of one
    with the same path, if it takes any. -/
theorem PlacedApart.of_insertFile {f : SourceFile} {files : List SourceFile}
    (h : PlacedApart (insertFile f files)) : PlacedApart files := by
  induction files with
  | nil => exact .nil
  | cons g rest ih =>
    rw [insertFile] at h
    split at h
    · exact (List.pairwise_cons.mp h).2
    · rename_i heq
      rw [PlacedApart, List.pairwise_cons, Path.location_eq_of_same heq] at h
      exact List.pairwise_cons.mpr h
    · obtain ⟨hfirst, hothers⟩ := List.pairwise_cons.mp h
      refine List.pairwise_cons.mpr ⟨fun k hk => ?_, ih hothers⟩
      -- at the path of a file there is still one after the insertion
      obtain ⟨other, hother, hsame⟩ := (Store.exists_mem_insertFile f rest).2 k hk
      rw [← Path.location_eq_of_same hsame]
      exact hfirst other hother

/-! ## Nothing to save -/

/-- Without dirty files nothing is written. -/
theorem persist_of_dirtyFiles_eq_nil {m : Type → Type} [Monad m] [LawfulMonad m] [Host m]
    {store : Store} (h : store.dirtyFiles = []) :
    persist (m := m) store = pure (.ok 0, store) := by
  rw [persist, h, writeFiles, pure_bind]
  exact congrArg (fun after => pure (Except.ok 0, after)) store.settle_zero

namespace Disk

open Program (bind_eq_iff bind_eq_ok_iff bind_eq_error_iff lift_eq_ok_iff pure_eq_ok_iff)

variable {d d' : Disk} {path : Path}

theorem writeContent_eq_ok_iff {content : Bytes} :
    writeContent (m := StateM Disk) path content d = (.ok (), d') ↔
      d.write path content = .ok d' := by
  rw [writeContent, bind_eq_ok_iff]
  constructor
  · rintro ⟨r, d₁, hlift, hrest⟩
    rw [lift_eq_ok_iff] at hlift
    rcases attempt_eq_iff.mp hlift with ⟨rfl, hwrite⟩ | ⟨cause, rfl, -, -⟩
    · obtain ⟨-, rfl⟩ := pure_eq_ok_iff.mp hrest
      exact hwrite
    · cases hrest
  · intro hwrite
    exact ⟨.ok (), d', lift_eq_ok_iff.mpr (attempt_eq_iff.mpr (.inl ⟨rfl, hwrite⟩)), rfl⟩

/-! ## Source files -/

/-- Files were written one after another, from one disk to another. -/
inductive Written : Disk → List SourceFile → Disk → Prop where
  | nil (d : Disk) : Written d [] d
  | cons {d d₁ d' : Disk} {f : SourceFile} {rest : List SourceFile}
      (first : d.write f.path f.content = .ok d₁) (others : Written d₁ rest d') :
      Written d (f :: rest) d'

theorem Written.append {files files' : List SourceFile} {d'' : Disk} (h : d.Written files d')
    (h' : d'.Written files' d'') : d.Written (files ++ files') d'' := by
  induction h with
  | nil d => exact h'
  | cons first _ ih => exact .cons first (ih h')

theorem Written.changes {files : List SourceFile} (h : d.Written files d') :
    d.Changes (fun here => ∃ f ∈ files, f.path.location = here) d' := by
  induction h with
  | nil d => exact .refl _ d
  | @cons d d₁ d' f rest first _ ih =>
    refine ((put_of_write first).changes_file.mono ?_).trans (ih.mono ?_)
    · rintro here rfl
      exact ⟨f, List.mem_cons_self .., rfl⟩
    · rintro here ⟨g, hg, hlocation⟩
      exact ⟨g, List.mem_cons_of_mem _ hg, hlocation⟩

/-- Of several files at one place the last one stays, so the place holds the content of one of
    them. -/
theorem Written.exists_content? {files : List SourceFile} (h : d.Written files d')
    {f : SourceFile} (hf : f ∈ files) :
    ∃ g ∈ files, g.path.location = f.path.location ∧
      d'.content? f.path.location = some g.content := by
  induction h generalizing f with
  | nil d => cases hf
  | @cons d d₁ d' file rest first others ih =>
    -- a later file at the same place decides
    by_cases hlater : ∃ g ∈ rest, g.path.location = f.path.location
    · obtain ⟨g, hg, hlocation⟩ := hlater
      obtain ⟨k, hk, hsame, hcontent⟩ := ih hg
      rw [hlocation] at hsame hcontent
      exact ⟨k, List.mem_cons_of_mem _ hk, hsame, hcontent⟩
    · rcases List.mem_cons.mp hf with rfl | hrest
      · refine ⟨f, List.mem_cons_self .., rfl, ?_⟩
        rw [others.changes.content _ hlater]
        exact content?_eq_some_iff.mpr (put_of_write first).at?_self
      · exact absurd ⟨f, hrest, rfl⟩ hlater

/-- A file that could be read holds what was written, if the others lie at different places. -/
theorem Written.read {files : List SourceFile} (h : d.Written files d')
    (hapart : PlacedApart files) {f : SourceFile} (hf : f ∈ files) {content : Bytes}
    (hread : d.read f.path = .ok content) : d'.read f.path = .ok f.content := by
  obtain ⟨g, hg, hlocation, hcontent⟩ := h.exists_content? hf
  obtain rfl := hapart.eq_of_location hg hf hlocation
  exact h.changes.read_of_content? hread hcontent

/-- Why a list of files is written no further: it is at its end, or its first file is refused. -/
def StopsAt (d : Disk) : List SourceFile → Option Failure → Prop
  | [], failure => failure = none
  | f :: _, failure =>
    ∃ cause, d.write f.path f.content = .error cause ∧ failure = some (.access f.path cause)

/-- Files are written in order up to the first that is refused. -/
theorem written_of_writeFiles {files : List SourceFile} {count : Nat} {failure : Option Failure}
    (h : writeFiles (m := StateM Disk) files d = ((count, failure), d')) :
    ∃ written rest, files = written ++ rest ∧ written.length = count ∧ d.Written written d' ∧
      d'.StopsAt rest failure := by
  induction files generalizing d count with
  | nil =>
    cases h
    exact ⟨[], [], rfl, rfl, .nil _, rfl⟩
  | cons file files ih =>
    obtain ⟨r, d₁, hwrite, hrest⟩ := bind_eq_iff.mp h
    rcases attempt_eq_iff.mp hwrite with ⟨rfl, hwritten⟩ | ⟨cause, rfl, hrefused, rfl⟩
    · obtain ⟨⟨others, failure⟩, d₂, hothers, hlast⟩ := bind_eq_iff.mp hrest
      cases hlast
      obtain ⟨written, rest, rfl, rfl, hall, hstops⟩ := ih hothers
      exact ⟨file :: written, rest, rfl, rfl, .cons hwritten hall, hstops⟩
    · cases hrest
      exact ⟨[], file :: files, rfl, rfl, .nil _, cause, hrefused, rfl⟩

/-- Where all files can be written, they are. -/
theorem writeFiles_of_written {files : List SourceFile} (h : d.Written files d') :
    writeFiles (m := StateM Disk) files d = ((files.length, none), d') := by
  induction h with
  | nil d => rfl
  | cons first _ ih =>
    refine bind_eq_iff.mpr ⟨.ok (), _, attempt_eq_iff.mpr (.inl ⟨rfl, first⟩), ?_⟩
    exact bind_eq_iff.mpr ⟨_, _, ih, rfl⟩

theorem persist_of_written {store : Store} (h : d.Written store.dirtyFiles d') :
    persist (m := StateM Disk) store d
      = ((.ok store.dirtyFiles.length, store.settle store.dirtyFiles.length), d') :=
  bind_eq_iff.mpr ⟨_, _, writeFiles_of_written h, rfl⟩

/-- Saving succeeds if every dirty file could be written, and counts them. -/
theorem written_and_count_of_persist {store store' : Store} {count : Nat}
    (h : persist (m := StateM Disk) store d = ((.ok count, store'), d')) :
    d.Written store.dirtyFiles d' ∧ count = store.dirtyFiles.length := by
  obtain ⟨⟨count, failure⟩, d₁, hwrite, hlast⟩ := bind_eq_iff.mp h
  obtain ⟨written, rest, hfiles, rfl, hwritten, hstops⟩ := written_of_writeFiles hwrite
  cases failure with
  | some failure => cases hlast
  | none =>
    cases hlast
    cases rest with
    | nil =>
      rw [hfiles, List.append_nil]
      exact ⟨hwritten, rfl⟩
    | cons next later =>
      obtain ⟨cause, -, hfailure⟩ := hstops
      cases hfailure

theorem written_of_persist {store store' : Store} {count : Nat}
    (h : persist (m := StateM Disk) store d = ((.ok count, store'), d')) :
    d.Written store.dirtyFiles d' :=
  (written_and_count_of_persist h).1

theorem eq_length_of_persist {store store' : Store} {count : Nat}
    (h : persist (m := StateM Disk) store d = ((.ok count, store'), d')) :
    count = store.dirtyFiles.length :=
  (written_and_count_of_persist h).2

/-- Saving fails at the first dirty file that is refused. -/
theorem written_of_persist_error {store store' : Store} {failure : Failure}
    (h : persist (m := StateM Disk) store d = ((.error failure, store'), d')) :
    ∃ written next later cause, store.dirtyFiles = written ++ next :: later ∧
      d.Written written d' ∧ d'.write next.path next.content = .error cause ∧
      failure = .access next.path cause := by
  obtain ⟨⟨count, reason⟩, d₁, hwrite, hlast⟩ := bind_eq_iff.mp h
  obtain ⟨written, rest, hfiles, rfl, hwritten, hstops⟩ := written_of_writeFiles hwrite
  cases reason with
  | none => cases hlast
  | some reason =>
    cases hlast
    cases rest with
    | nil => cases hstops
    | cons next later =>
      obtain ⟨cause, hrefused, hfailure⟩ := hstops
      exact ⟨written, next, later, cause, hfiles, hwritten, hrefused, Option.some.inj hfailure⟩

/-! ## The aggregate file -/

/-- The directory is made, if the path has one, and then the file is written. -/
theorem emitAggregate_eq_ok_iff {emit : EmitSettings} {out target : Path} {text : String} :
    emitAggregate (m := StateM Disk) emit out text d = (.ok target, d') ↔
      target = Aggregate.target emit out ∧ ∃ d₁,
        (∀ above, target.parent? = some above →
          Host.makeDirs (m := StateM Disk) above d = (.ok (), d₁)) ∧
        (target.parent? = none → d = d₁) ∧ d₁.write target (Utf8.ofString text) = .ok d' := by
  -- the file and the result come after the directory, if there is one to make
  have hwrite : ∀ d₁, (do
        writeContent (Aggregate.target emit out) (Utf8.ofString text)
        return Aggregate.target emit out : ExceptT Failure (StateM Disk) Path) d₁
          = (.ok target, d') ↔
      target = Aggregate.target emit out ∧ d₁.write target (Utf8.ofString text) = .ok d' := by
    intro d₁
    rw [bind_eq_ok_iff]
    constructor
    · rintro ⟨⟨⟩, d₂, hcontent, hlast⟩
      obtain ⟨rfl, rfl⟩ := pure_eq_ok_iff.mp hlast
      exact ⟨rfl, writeContent_eq_ok_iff.mp hcontent⟩
    · rintro ⟨rfl, hcontent⟩
      exact ⟨(), d', writeContent_eq_ok_iff.mpr hcontent, rfl⟩
  rw [emitAggregate]
  cases hparent : (Aggregate.target emit out).parent? with
  | none =>
    refine (hwrite d).trans ⟨?_, ?_⟩
    · rintro ⟨rfl, hcontent⟩
      exact ⟨rfl, d, by simp [hparent], fun _ => rfl, hcontent⟩
    · rintro ⟨rfl, d₁, -, hsame, hcontent⟩
      obtain rfl := hsame hparent
      exact ⟨rfl, hcontent⟩
  | some above =>
    show (ExceptT.lift (Host.makeDirs above) >>= _ : ExceptT Failure (StateM Disk) Path) d = _ ↔ _
    rw [bind_eq_ok_iff]
    constructor
    · rintro ⟨made, d₁, hlift, hrest⟩
      rw [lift_eq_ok_iff] at hlift
      cases made with
      | error cause => cases hrest
      | ok =>
        obtain ⟨rfl, hcontent⟩ := (hwrite d₁).mp hrest
        refine ⟨rfl, d₁, fun other hother => ?_, fun hnone => ?_, hcontent⟩
        · rw [hparent] at hother
          cases hother
          exact hlift
        · rw [hparent] at hnone
          cases hnone
    · rintro ⟨rfl, d₁, hmade, -, hcontent⟩
      exact ⟨.ok (), d₁, lift_eq_ok_iff.mpr (hmade above hparent),
        (hwrite d₁).mpr ⟨rfl, hcontent⟩⟩

theorem changes_emitAggregate {emit : EmitSettings} {out target : Path} {text : String}
    (h : emitAggregate (m := StateM Disk) emit out text d = (.ok target, d')) :
    d.Changes (· = (Aggregate.target emit out).location) d' := by
  obtain ⟨rfl, d₁, hmade, hsame, hwrite⟩ := emitAggregate_eq_ok_iff.mp h
  have hfile := (put_of_write hwrite).changes_file
  cases hparent : (Aggregate.target emit out).parent? with
  | none =>
    obtain rfl := hsame hparent
    exact hfile
  | some above =>
    have hdirs := (changes_makeDirs (hmade above hparent)).1
    exact (hdirs.mono fun here hfalse => hfalse.elim).trans hfile

theorem writeContent_eq_error_iff {content : Bytes} {failure : Failure} :
    writeContent (m := StateM Disk) path content d = (.error failure, d') ↔
      ∃ cause, d.write path content = .error cause ∧ failure = .access path cause ∧ d = d' := by
  rw [writeContent, bind_eq_error_iff]
  constructor
  · rintro (hlift | ⟨r, d₁, hlift, hrest⟩)
    · cases hlift
    · rw [lift_eq_ok_iff] at hlift
      rcases attempt_eq_iff.mp hlift with ⟨rfl, -⟩ | ⟨cause, rfl, hrefused, rfl⟩
      · cases hrest
      · cases hrest
        exact ⟨cause, hrefused, rfl, rfl⟩
  · rintro ⟨cause, hrefused, rfl, rfl⟩
    refine .inr ⟨.error cause, d, lift_eq_ok_iff.mpr ?_, rfl⟩
    exact attempt_eq_iff.mpr (.inr ⟨cause, rfl, hrefused, rfl⟩)

/-- An aggregate file that is not saved leaves at most new directories: the one above it could not
    be made, or it was refused itself. -/
theorem emitAggregate_eq_error {emit : EmitSettings} {out : Path} {text : String}
    {failure : Failure}
    (h : emitAggregate (m := StateM Disk) emit out text d = (.error failure, d')) :
    (∃ above cause, (Aggregate.target emit out).parent? = some above ∧
      Host.makeDirs (m := StateM Disk) above d = (.error cause, d') ∧
      failure = .access above cause) ∨
    ∃ cause, d.Changes (fun _ => False) d' ∧
      d'.write (Aggregate.target emit out) (Utf8.ofString text) = .error cause ∧
      failure = .access (Aggregate.target emit out) cause := by
  have hwrite : ∀ d₁, (do
        writeContent (Aggregate.target emit out) (Utf8.ofString text)
        return Aggregate.target emit out : ExceptT Failure (StateM Disk) Path) d₁
          = (.error failure, d') →
      d₁ = d' ∧ ∃ cause, d'.write (Aggregate.target emit out) (Utf8.ofString text) = .error cause ∧
        failure = .access (Aggregate.target emit out) cause := by
    intro d₁ hwrite
    rcases bind_eq_error_iff.mp hwrite with hcontent | ⟨_, _, -, hlast⟩
    · obtain ⟨cause, hrefused, rfl, rfl⟩ := writeContent_eq_error_iff.mp hcontent
      exact ⟨rfl, cause, hrefused, rfl⟩
    · cases hlast
  rw [emitAggregate] at h
  cases hparent : (Aggregate.target emit out).parent? with
  | none =>
    rw [hparent] at h
    obtain ⟨rfl, cause, hrefused, hfailure⟩ := hwrite d h
    exact .inr ⟨cause, .refl _ d, hrefused, hfailure⟩
  | some above =>
    rw [hparent] at h
    rcases bind_eq_error_iff.mp h with hlift | ⟨made, d₁, hlift, hrest⟩
    · cases hlift
    · rw [lift_eq_ok_iff] at hlift
      cases made with
      | error cause =>
        cases hrest
        exact .inl ⟨above, cause, rfl, hlift, rfl⟩
      | ok =>
        obtain ⟨rfl, cause, hrefused, hfailure⟩ := hwrite d₁ hrest
        exact .inr ⟨cause, (changes_makeDirs hlift).1, hrefused, hfailure⟩

/-- Saving the same aggregate again changes nothing. -/
theorem emitAggregate_of_emitAggregate {emit : EmitSettings} {out target : Path} {text : String}
    (h : emitAggregate (m := StateM Disk) emit out text d = (.ok target, d')) :
    emitAggregate (m := StateM Disk) emit out text d' = (.ok target, d') := by
  obtain ⟨htarget, d₁, hmade, -, hwrite⟩ := emitAggregate_eq_ok_iff.mp h
  refine emitAggregate_eq_ok_iff.mpr ⟨htarget, d', ?_, fun _ => rfl, write_of_write hwrite⟩
  intro above hparent
  -- the directory was there when the file was written, and still is
  have hdir := (changes_makeDirs (hmade above hparent)).2 rfl
  exact makeDirs_of_leadsToDir (hdir.imp_right (put_of_write hwrite).changes_file.leadsToDir)

/-! ## Both -/

/-- The source files are written before the aggregate file. -/
theorem save_eq_ok_iff {p : Plan} {s : Settings} {output : Path} {r : Report} :
    p.save (m := StateM Disk) s output d = (.ok r, d') ↔
      ∃ count store d₁ target,
        persist (m := StateM Disk) p.store d = ((.ok count, store), d₁) ∧
        emitAggregate (m := StateM Disk) s.emit output p.aggregate.text d₁ = (.ok target, d') ∧
        r = { p.report with filesWritten := count, aggregatePath := target } := by
  rw [Plan.save, bind_eq_ok_iff]
  constructor
  · rintro ⟨⟨written, store⟩, d₁, hlift, hrest⟩
    rw [lift_eq_ok_iff] at hlift
    cases written with
    | error failure => cases hrest
    | ok count =>
      obtain ⟨found, d₂, hfound, hrest⟩ := bind_eq_ok_iff.mp hrest
      obtain ⟨rfl, rfl⟩ := pure_eq_ok_iff.mp hfound
      obtain ⟨target, d₃, hemit, hlast⟩ := bind_eq_ok_iff.mp hrest
      obtain ⟨rfl, rfl⟩ := pure_eq_ok_iff.mp hlast
      exact ⟨count, store, d₁, target, hlift, hemit, rfl⟩
  · rintro ⟨count, store, d₁, target, hpersist, hemit, rfl⟩
    refine ⟨(.ok count, store), d₁, lift_eq_ok_iff.mpr hpersist, ?_⟩
    refine bind_eq_ok_iff.mpr ⟨count, d₁, rfl, ?_⟩
    exact bind_eq_ok_iff.mpr ⟨target, d', hemit, rfl⟩

theorem save_eq_error {p : Plan} {s : Settings} {output : Path} {failure : Failure}
    (h : p.save (m := StateM Disk) s output d = (.error failure, d')) :
    (∃ store, persist (m := StateM Disk) p.store d = ((.error failure, store), d')) ∨
      ∃ count store d₁, persist (m := StateM Disk) p.store d = ((.ok count, store), d₁) ∧
        emitAggregate (m := StateM Disk) s.emit output p.aggregate.text d₁
          = (.error failure, d') := by
  rw [Plan.save] at h
  rcases bind_eq_error_iff.mp h with hlift | ⟨⟨written, store⟩, d₁, hlift, hrest⟩
  · cases hlift
  · rw [lift_eq_ok_iff] at hlift
    cases written with
    | error failure =>
      cases hrest
      exact .inl ⟨store, hlift⟩
    | ok count =>
      refine .inr ⟨count, store, d₁, hlift, ?_⟩
      rcases bind_eq_error_iff.mp hrest with hcount | ⟨found, d₂, hfound, hrest⟩
      · cases hcount
      · cases hfound
        rcases bind_eq_error_iff.mp hrest with hemit | ⟨target, d₃, -, hlast⟩
        · exact hemit
        · cases hlast

end Disk

end Lineage
