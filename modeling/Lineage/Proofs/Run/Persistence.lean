import Lineage.Proofs.Disk.Access
import Lineage.Proofs.Run.Reading
import Lineage.Proofs.Run.Saving
import Lineage.Proofs.Source.Store
import Mathlib.Data.List.Nodup

/-!
# Saving where writes fail

Saving takes the dirty files in order and stops at the first write that fails. What was written
until then is dirty no longer, so saving again goes on with the rest. The files that are not dirty
are on the disk as the store has them, whatever a failed write has left in the one it was for. This
needs files that lie at different places, because of two at the same place one would undo the other.

## Main definitions

- `Device`: a disk on which writes fail, and a log of those that do not
- `persistUnder`: saving again and again
- `Store.Reached`: stores of files that were read, changed and saved
- `Store.InStep`: what is not dirty is on the disk
- `Device.Saved`: what saving comes to

## Main statements

- `Device.exists_writeFiles_eq`: files are written up to the first fault
- `Device.exists_saved`: saving a store that is in step with the disk
- `Store.Reached.inStep`: every store that was reached is
- `Device.persist_resumable`: saving, and saving again
-/

namespace Lineage

/-! ## Writes that fail -/

/-- A write that fails. -/
structure Fault where
  cause : FileError
  /-- What stands in the file afterwards, if it is touched at all. -/
  left : Option Bytes
  deriving DecidableEq, Repr

/-- The disk after a write that fails. -/
def Fault.damage (fault : Fault) (path : Path) (d : Disk) : Disk :=
  match fault.left with
  | none => d
  | some content => (d.write path content).toOption.getD d

/-- A disk on which writes fail. -/
structure Device where
  disk : Disk
  /-- Which of the writes to come fail. Those that are not listed do not. -/
  faults : List (Option Fault)
  /-- The paths and contents of the writes that did not fail. -/
  log : List (Path × Bytes)

namespace Device

/-- The fault that a write meets after some others. -/
def fault? (v : Device) (before : Nat) : Option Fault := v.faults.getD before none

end Device

/-- Apart from the writes that fail everything is as on the disk. -/
instance : Host (StateM Device) where
  entry path := fun v => ((Host.entry (m := StateM Disk) path v.disk).1, v)
  read path := fun v => (v.disk.read path, v)
  write path content := fun v =>
    match v.fault? 0 with
    | some fault =>
      (.error fault.cause, { v with disk := fault.damage path v.disk, faults := v.faults.tail })
    | none =>
      match v.disk.write path content with
      | .ok disk => (.ok (), ⟨disk, v.faults.tail, v.log ++ [(path, content)]⟩)
      | .error cause => (.error cause, { v with faults := v.faults.tail })
  makeDir path := fun v =>
    let (r, disk) := Host.makeDir (m := StateM Disk) path v.disk
    (r, { v with disk })
  now := pure 0

/-- Saves a store again and again, each time with other faults. -/
def persistUnder : List (List (Option Fault)) → Store → StateM Device Store
  | [], store => pure store
  | faults :: later, store => do
    modify fun v => { v with faults }
    let (_, store) ← persist store
    persistUnder later store

/-! ## Stores and disks -/

namespace Store

/-- The files of a store can be read from a disk, and those that are not dirty hold what the store
    has. -/
structure InStep (s : Store) (d : Disk) : Prop where
  readable : ∀ f ∈ s.files, ∃ content, d.read f.path = .ok content
  synced : ∀ f ∈ s.files, f.dirty = false → d.read f.path = .ok f.content

/-- A store that came about by reading files, changing them and saving, and the disk as it is
    then. -/
inductive Reached : Store → Disk → Prop where
  | empty (d : Disk) : Reached ∅ d
  | insert {s : Store} {d : Disk} {path : Path} {content : Bytes} (before : Reached s d)
      (read : d.read path = .ok content) : Reached (s.insert (.ofContent path content)) d
  | replace {s : Store} {d : Disk} (before : Reached s d) (path : Path) (content : Bytes) :
      Reached (s.replace path content) d
  | persist {s s' : Store} {v v' : Device} {result : Except Failure Nat}
      (before : Reached s v.disk)
      (saved : Lineage.persist (m := StateM Device) s v = ((result, s'), v')) :
      Reached s' v'.disk

variable {s : Store} {d : Disk}

theorem inStep_empty (d : Disk) : InStep ∅ d := ⟨nofun, nofun⟩

theorem InStep.insert (h : s.InStep d) {path : Path} {content : Bytes}
    (hread : d.read path = .ok content) : (s.insert (.ofContent path content)).InStep d where
  readable := by
    intro f hf
    rcases eq_or_mem_of_mem_insertFile hf with rfl | hold
    · exact ⟨content, hread⟩
    · exact h.readable f hold
  synced := by
    intro f hf hclean
    rcases eq_or_mem_of_mem_insertFile hf with rfl | hold
    · exact hread
    · exact h.synced f hold hclean

/-- What an edit changes becomes dirty. -/
theorem InStep.edit (h : s.InStep d) (rule : SourceFile → Bytes) : (s.edit rule).InStep d where
  readable := by
    intro g hg
    obtain ⟨f, hf, rfl⟩ := List.mem_map.mp hg
    rw [SourceFile.path_replace]
    exact h.readable f hf
  synced := by
    intro g hg hclean
    obtain ⟨f, hf, rfl⟩ := List.mem_map.mp hg
    by_cases hsame : rule f = f.content
    · rw [hsame, SourceFile.replace_self] at hclean ⊢
      exact h.synced f hf hclean
    · rw [SourceFile.dirty_replace hsame] at hclean
      cases hclean

end Store

/-! ## Writing -/

namespace Device

variable {v v' : Device} {d d' : Disk} {path : Path} {content : Bytes}

theorem fault?_succ (v : Device) (before : Nat) (disk : Disk) (log : List (Path × Bytes)) :
    fault? ⟨disk, v.faults.tail, log⟩ before = v.fault? (before + 1) := by
  rw [fault?, fault?]
  cases v.faults <;> rfl

theorem write_of_fault {fault : Fault} (h : v.fault? 0 = some fault) (path : Path)
    (content : Bytes) :
    Host.write (m := StateM Device) path content v
      = (.error fault.cause,
          { v with disk := fault.damage path v.disk, faults := v.faults.tail }) := by
  simp only [Host.write, h]

theorem write_of_clear (h : v.fault? 0 = none) (hwrite : v.disk.write path content = .ok d') :
    Host.write (m := StateM Device) path content v
      = (.ok (), ⟨d', v.faults.tail, v.log ++ [(path, content)]⟩) := by
  simp only [Host.write, h, hwrite]

/-- A write that fails touches at most the file that it is for. -/
theorem changes_damage (fault : Fault) (path : Path) (d : Disk) :
    d.Changes (· = path.location) (fault.damage path d) := by
  rw [Fault.damage]
  split
  · exact .refl _ d
  · rename_i content _
    cases hwrite : d.write path content with
    | error cause => exact .refl _ d
    | ok changed => exact (Disk.put_of_write hwrite).changes_file

/-- How writing ends where some files are left: there are none, or the first of them meets a
    fault. -/
def EndsAt (fault : Option Fault) (d : Disk) : List SourceFile → Option Failure → Disk → Prop
  | [], failure, d' => failure = none ∧ d' = d
  | next :: _, failure, d' => ∃ met, fault = some met ∧
      failure = some (.access next.path met.cause) ∧ d' = met.damage next.path d

/-- Files that can be read are written in order, up to the first fault. -/
theorem exists_writeFiles_eq {files : List SourceFile}
    (hread : ∀ f ∈ files, ∃ content, v.disk.read f.path = .ok content) :
    ∃ written rest failure d v', files = written ++ rest ∧
      writeFiles (m := StateM Device) files v = ((written.length, failure), v') ∧
      v'.log = v.log ++ written.map SourceFile.copy ∧ (∀ i < written.length, v.fault? i = none) ∧
      v.disk.Written written d ∧ EndsAt (v.fault? written.length) d rest failure v'.disk := by
  induction files generalizing v with
  | nil =>
    exact ⟨[], [], none, v.disk, v, rfl, rfl, (List.append_nil _).symm, nofun, .nil _, rfl, rfl⟩
  | cons f files ih =>
    cases hfault : v.fault? 0 with
    | some fault =>
      -- the first write fails, so nothing is written and all files are left
      refine ⟨[], f :: files, _, v.disk, _, rfl,
        Program.bind_eq_iff.mpr ⟨_, _, write_of_fault hfault f.path f.content, rfl⟩,
        (List.append_nil _).symm, nofun, .nil _, fault, hfault, rfl, rfl⟩
    | none =>
      -- it does not, and the other files can still be read from the disk with this one written
      obtain ⟨old, hold⟩ := hread f (List.mem_cons_self ..)
      obtain ⟨d₁, hwrite⟩ := Disk.exists_write_of_read hold f.content
      have hread₁ : ∀ g ∈ files, ∃ content, d₁.read g.path = .ok content := by
        intro g hg
        obtain ⟨content, hcontent⟩ := hread g (List.mem_cons_of_mem _ hg)
        exact (Disk.put_of_write hwrite).changes_file.exists_read hcontent
      obtain ⟨written, rest, failure, d, v', rfl, hrest, hlog, hclear, hwritten, hends⟩ :=
        ih (v := ⟨d₁, v.faults.tail, v.log ++ [f.copy]⟩) hread₁
      refine ⟨f :: written, rest, failure, d, v', rfl, ?_, ?_, ?_, .cons hwrite hwritten, ?_⟩
      · refine Program.bind_eq_iff.mpr ⟨.ok (), _, write_of_clear hfault hwrite, ?_⟩
        exact Program.bind_eq_iff.mpr ⟨_, v', hrest, rfl⟩
      · rw [hlog, List.map_cons, List.append_assoc, List.singleton_append]
      · intro i hi
        cases i with
        | zero => exact hfault
        | succ i =>
          rw [← fault?_succ v i d₁ (v.log ++ [f.copy])]
          exact hclear i (Nat.lt_of_succ_lt_succ hi)
      · rw [fault?_succ] at hends
        exact hends

/-! ## Saving -/

/-- What saving a store comes to: the dirty files in front are written, and the rest is left. -/
structure Saved (store : Store) (v : Device) (written rest : List SourceFile)
    (result : Except Failure Nat) (store' : Store) (v' : Device) : Prop where
  split : store.dirtyFiles = written ++ rest
  /-- The dirty files are taken in the order of their paths. -/
  ordered : PathOrdered (written ++ rest)
  /-- Each of those in front is written once, with what the store has. -/
  log : v'.log = v.log ++ written.map SourceFile.copy
  /-- No fault is passed over. -/
  clear : ∀ i < written.length, v.fault? i = none
  /-- Saving stops at the end or at the first fault, which it reports for the file. -/
  stops : rest = [] ∧ result = .ok written.length ∨ ∃ next later fault, rest = next :: later ∧
    v.fault? written.length = some fault ∧ result = .error (.access next.path fault.cause)
  /-- What the store has stays the same. -/
  memory : store'.files.map SourceFile.copy = store.files.map SourceFile.copy
  /-- Those that were not written are still dirty, and no others. -/
  remaining : store'.dirtyFiles = rest
  /-- What is not dirty is on the disk. -/
  inStep : store'.InStep v'.disk

theorem Saved.placedApart {store store' : Store} {written rest : List SourceFile}
    {result : Except Failure Nat} (h : Saved store v written rest result store' v')
    (hapart : PlacedApart store.files) : PlacedApart store'.files := by
  have hpaths := congrArg (List.map Prod.fst) h.memory
  rw [List.map_map, List.map_map] at hpaths
  exact hapart.of_paths hpaths

theorem changes_of_endsAt {rest : List SourceFile} {fault : Option Fault}
    {failure : Option Failure} (h : EndsAt fault d rest failure d') :
    d.Changes (fun here => ∃ f ∈ rest, f.path.location = here) d' := by
  cases rest with
  | nil =>
    obtain ⟨-, rfl⟩ := h
    exact .refl _ _
  | cons next later =>
    obtain ⟨met, -, -, rfl⟩ := h
    refine (changes_damage met next.path d).mono ?_
    rintro here rfl
    exact ⟨next, List.mem_cons_self .., rfl⟩

/-- Only what was to be written has changed, whatever way writing ends. -/
theorem changes_of_written_of_endsAt {written rest : List SourceFile} {fault : Option Fault}
    {failure : Option Failure} {d₁ : Disk} (hwritten : d.Written written d₁)
    (hends : EndsAt fault d₁ rest failure d') :
    d.Changes (fun here => ∃ f ∈ written ++ rest, f.path.location = here) d' := by
  refine (hwritten.changes.mono ?_).trans ((changes_of_endsAt hends).mono ?_)
  · rintro here ⟨f, hf, hlocation⟩
    exact ⟨f, List.mem_append_left _ hf, hlocation⟩
  · rintro here ⟨f, hf, hlocation⟩
    exact ⟨f, List.mem_append_right _ hf, hlocation⟩

/-- The dirty files that were written are dirty no longer, and what is not dirty then is on the
    disk. -/
theorem inStep_settle {store : Store} {written rest : List SourceFile} {fault : Option Fault}
    {failure : Option Failure} {d₁ : Disk} (hapart : PlacedApart store.files) (hin : store.InStep d)
    (hsplit : store.dirtyFiles = written ++ rest) (hwritten : d.Written written d₁)
    (hends : EndsAt fault d₁ rest failure d') : (store.settle written.length).InStep d' := by
  have hchanges := changes_of_written_of_endsAt hwritten hends
  rw [← hsplit] at hchanges
  constructor
  · intro f hf
    have hpath : f.path ∈ store.files.map (·.path) := by
      rw [← Store.map_path_settle store written.length]
      exact List.mem_map_of_mem hf
    obtain ⟨g, hg, hpath⟩ := List.mem_map.mp hpath
    obtain ⟨content, hread⟩ := hin.readable g hg
    rw [← hpath]
    exact hchanges.exists_read hread
  · intro f hf hclean
    obtain ⟨g, hg, hcopy, hkind⟩ := Store.exists_of_mem_settle hf hclean
    obtain ⟨hpath, hcontent⟩ := Prod.mk.inj hcopy
    rw [← hpath, ← hcontent]
    rcases hkind with hclean' | htaken
    · -- no dirty file lies at the place of this one
      refine hchanges.read_of_not (hin.synced g hg hclean') ?_
      rintro ⟨k, hk, hlocation⟩
      obtain ⟨hk, hdirty⟩ := List.mem_filter.mp hk
      obtain rfl := hapart.eq_of_location hk hg hlocation
      rw [hclean'] at hdirty
      cases hdirty
    · -- it was written, and the fault was for a file at another place
      have hdirty := hapart.filter (·.dirty)
      rw [← Store.dirtyFiles, hsplit, List.pairwise_append] at hdirty
      obtain ⟨hwritten_apart, -, hbetween⟩ := hdirty
      rw [hsplit, List.take_left] at htaken
      obtain ⟨old, hold⟩ := hin.readable g hg
      refine (changes_of_endsAt hends).read_of_not (hwritten.read hwritten_apart htaken hold) ?_
      rintro ⟨next, hnext, hsame⟩
      exact hbetween g htaken next hnext hsame.symm

/-- Saving a store that is in step with the disk. -/
theorem exists_saved {store : Store} (hapart : PlacedApart store.files)
    (hin : store.InStep v.disk) :
    ∃ written rest result store' v',
      persist (m := StateM Device) store v = ((result, store'), v') ∧
        Saved store v written rest result store' v' := by
  have hread : ∀ f ∈ store.dirtyFiles, ∃ content, v.disk.read f.path = .ok content :=
    fun f hf => hin.readable f (List.mem_filter.mp hf).1
  obtain ⟨written, rest, failure, d, v', hsplit, hwrite, hlog, hclear, hwritten, hends⟩ :=
    exists_writeFiles_eq hread
  refine ⟨written, rest, _, _, v', Program.bind_eq_iff.mpr ⟨_, v', hwrite, rfl⟩, hsplit,
    hsplit ▸ store.ordered.filter _, hlog, hclear, ?_, Store.map_copy_settle store _, ?_,
    inStep_settle hapart hin hsplit hwritten hends⟩
  · cases rest with
    | nil =>
      obtain ⟨rfl, -⟩ := hends
      exact .inl ⟨rfl, rfl⟩
    | cons next later =>
      obtain ⟨met, hmet, rfl, -⟩ := hends
      exact .inr ⟨next, later, met, rfl, hmet, rfl⟩
  · rw [Store.dirtyFiles_settle, hsplit, List.drop_left]

/-- Saving where nothing fails. -/
theorem exists_saved_of_clear {store : Store} (hapart : PlacedApart store.files)
    (hin : store.InStep v.disk) (hclear : v.faults = []) :
    ∃ store' v',
      persist (m := StateM Device) store v = ((.ok store.dirtyFiles.length, store'), v') ∧
      Saved store v store.dirtyFiles [] (.ok store.dirtyFiles.length) store' v' := by
  obtain ⟨written, rest, result, store', v', hpersist, hsaved⟩ := exists_saved hapart hin
  obtain ⟨rfl, rfl⟩ | ⟨next, later, fault, -, hfault, -⟩ := hsaved.stops
  · have hsplit := hsaved.split
    rw [List.append_nil] at hsplit
    rw [hsplit]
    exact ⟨store', v', hpersist, hsaved⟩
  · rw [fault?, hclear] at hfault
    cases hfault

/-! ## Saving again -/

/-- Saving again and again: each dirty file is written once at most, and what was not written is
    still dirty. -/
theorem exists_persistUnder_eq (attempts : List (List (Option Fault))) {store : Store}
    (hapart : PlacedApart store.files) (hin : store.InStep v.disk) :
    ∃ written rest store' v', persistUnder attempts store v = (store', v') ∧
      store.dirtyFiles = written ++ rest ∧ v'.log = v.log ++ written.map SourceFile.copy ∧
      store'.files.map SourceFile.copy = store.files.map SourceFile.copy ∧
      store'.dirtyFiles = rest ∧ PlacedApart store'.files ∧ store'.InStep v'.disk := by
  induction attempts generalizing store v with
  | nil =>
    exact ⟨[], store.dirtyFiles, store, v, rfl, rfl, (List.append_nil _).symm, rfl, rfl, hapart,
      hin⟩
  | cons faults later ih =>
    -- what the first attempt leaves is what the later ones find dirty
    obtain ⟨first, rest₁, result, store₁, v₁, hpersist, hsaved⟩ :=
      exists_saved (v := { v with faults }) hapart hin
    obtain ⟨written, rest, store', v', hlater, hsplit, hlog, hmemory, hremaining, hend⟩ :=
      ih (hsaved.placedApart hapart) hsaved.inStep
    refine ⟨first ++ written, rest, store', v', ?_, ?_, ?_, hmemory.trans hsaved.memory, hremaining,
      hend⟩
    · refine Program.bind_eq_iff.mpr ⟨(), { v with faults }, rfl, ?_⟩
      exact Program.bind_eq_iff.mpr ⟨_, v₁, hpersist, hlater⟩
    · rw [hsaved.split, ← hsaved.remaining, hsplit, List.append_assoc]
    · rw [hlog, hsaved.log, List.map_append, List.append_assoc]

end Device

/-- Every store that was reached is in step with its disk, if its files lie at different places. -/
theorem Store.Reached.inStep {store : Store} {d : Disk} (h : store.Reached d)
    (hapart : PlacedApart store.files) : store.InStep d := by
  induction h with
  | empty d => exact Store.inStep_empty d
  | insert _ read ih => exact (ih hapart.of_insertFile).insert read
  | replace _ path content ih => exact (ih (hapart.of_paths (map_path_edit ..).symm)).edit _
  | @persist store store' v v' result _ saved ih =>
    -- saving keeps the paths, and where the disk is in step before, it is in step afterwards
    have hbefore : PlacedApart store.files := by
      obtain ⟨⟨count, failure⟩, v₁, -, hlast⟩ := Program.bind_eq_iff.mp saved
      cases hlast
      exact hapart.of_paths (map_path_settle store count).symm
    obtain ⟨written, rest, result', store₁, v₁, hpersist, hsaved⟩ :=
      Device.exists_saved hbefore (ih hbefore)
    rw [saved] at hpersist
    cases hpersist
    exact hsaved.inStep

namespace Device

variable {store : Store} {v : Device}

/-- Saving can be taken up again. A store that was reached from a disk is saved in the order of the
    paths, up to the first write that fails. What is not written then is still dirty and nothing
    else is, the store has what it had, and all that is not dirty is on the disk. After any number
    of attempts under any faults, one without faults writes exactly what is left, so that each file
    that was dirty at first has been written once in all. After that there is nothing to save. -/
theorem persist_resumable (hreached : store.Reached v.disk) (hapart : PlacedApart store.files) :
    (∃ written rest result store' v',
      persist (m := StateM Device) store v = ((result, store'), v') ∧
        Saved store v written rest result store' v') ∧
    ∀ attempts, ∃ written rest store' v',
      persistUnder attempts store v = (store', v') ∧
      store.dirtyFiles = written ++ rest ∧ store'.dirtyFiles = rest ∧
      v'.log = v.log ++ written.map SourceFile.copy ∧
      ∃ store'' v'',
        persist (m := StateM Device) store' { v' with faults := [] }
          = ((.ok rest.length, store''), v'') ∧
        v''.log = v'.log ++ rest.map SourceFile.copy ∧
        v''.log = v.log ++ store.dirtyFiles.map SourceFile.copy ∧
        store''.files.map SourceFile.copy = store.files.map SourceFile.copy ∧
        (∀ f ∈ store''.files, f.dirty = false ∧ v''.disk.read f.path = .ok f.content) ∧
        ∀ w, persist (m := StateM Device) store'' w = ((.ok 0, store''), w) := by
  have hin := hreached.inStep hapart
  refine ⟨exists_saved hapart hin, fun attempts => ?_⟩
  obtain ⟨written, rest, store', v', hattempts, hsplit, hlog, hmemory, rfl, hapart', hin'⟩ :=
    exists_persistUnder_eq attempts hapart hin
  obtain ⟨store'', v'', hpersist, hsaved⟩ :=
    exists_saved_of_clear (v := { v' with faults := [] }) hapart' hin' rfl
  refine ⟨written, _, store', v', hattempts, hsplit, rfl, hlog, store'', v'', hpersist, hsaved.log,
    ?_, hsaved.memory.trans hmemory, fun f hf => ?_, fun w => ?_⟩
  · rw [hsaved.log, hlog, hsplit, List.map_append, List.append_assoc]
  · have hclean : f.dirty = false :=
      Bool.eq_false_iff.mpr (List.filter_eq_nil_iff.mp hsaved.remaining f hf)
    exact ⟨hclean, hsaved.inStep.synced f hf hclean⟩
  · exact congrFun (persist_of_dirtyFiles_eq_nil hsaved.remaining) w

/-- A disk that gets full with the second write, which leaves an empty file. -/
def filling : Device where
  disk :=
    { top := .file "a.lua" (Utf8.ofString "A = {}\n") <| .file "b.lua" [] <|
        .file "c.lua" (Utf8.ofString "C = {}\n") .empty
      proper := by simp [Listing.Proper, Listing.names, Listing.isEntryName] }
  faults := [none, some ⟨.other "No space left on device (os error 28)", some []⟩]
  log := []

/-- Its files, two of them changed. -/
def fillingStore : Store :=
  ((((Store.empty.insert (.ofContent ⟨"a.lua"⟩ (Utf8.ofString "A = {}\n"))).insert
    (.ofContent ⟨"b.lua"⟩ [])).insert (.ofContent ⟨"c.lua"⟩ (Utf8.ofString "C = {}\n"))).replace
      ⟨"a.lua"⟩ (Utf8.ofString "---@class A\nA = {}\n")).replace
        ⟨"c.lua"⟩ (Utf8.ofString "---@class C\nC = {}\n")

/-- The first of them is written, and the second is left for later. -/
theorem persist_resumable_filling :
    fillingStore.Reached filling.disk ∧ PlacedApart fillingStore.files ∧
      ∃ store' v', persist (m := StateM Device) fillingStore filling
          = ((.error (.access ⟨"c.lua"⟩ (.other "No space left on device (os error 28)")), store'),
            v') ∧
        store'.dirtyPaths = [⟨"c.lua"⟩] ∧ v'.disk.read ⟨"c.lua"⟩ = .ok [] ∧
        store'.InStep v'.disk := by
  have hreached : fillingStore.Reached filling.disk := by
    refine .replace (.replace (.insert (.insert (.insert (.empty _) ?_) ?_) ?_) _ _) _ _
    · decide +kernel
    · decide +kernel
    · decide +kernel
  have hapart : PlacedApart fillingStore.files := by
    unfold PlacedApart
    decide +kernel
  obtain ⟨written, rest, result, store', v', hpersist, hsaved⟩ :=
    (persist_resumable hreached hapart).1
  have hresult : (persist (m := StateM Device) fillingStore filling).1.1
      = .error (.access ⟨"c.lua"⟩ (.other "No space left on device (os error 28)")) := by
    decide +kernel
  have hdirty : (persist (m := StateM Device) fillingStore filling).1.2.dirtyPaths
      = [⟨"c.lua"⟩] := by
    decide +kernel
  have hleft : (persist (m := StateM Device) fillingStore filling).2.disk.read ⟨"c.lua"⟩
      = .ok [] := by
    decide +kernel
  rw [hpersist] at hresult hdirty hleft
  obtain rfl : result = _ := hresult
  exact ⟨hreached, hapart, store', v', hpersist, hdirty, hleft, hsaved.inStep⟩

end Device

end Lineage
