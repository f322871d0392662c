import Lineage.Disk.Host
import Lineage.Proofs.Disk.Operations
import Lineage.Proofs.Disk.Program

/-!
# A disk as a host

What the operations of a host come to on a disk that is carried along. All that stands there can be
listed, an operation that fails leaves the disk alone, and making directories leaves the files alone.

## Main statements

- `Disk.entry_eq`, `Disk.obstacle?_eq_none`: looking things up
- `Disk.attempt_eq_iff`: changing the disk
- `Disk.changes_makeDirs`: making directories
- `Disk.makeDirs_of_leadsToDir`: making them again
-/

namespace Lineage

namespace Disk

open Program (bind_eq_iff)

variable {d d' : Disk} {path : Path}

/-! ## Operations -/

/-- What stands at a path is looked up without the contents. -/
theorem entry_eq (path : Path) (d : Disk) :
    Host.entry (m := StateM Disk) path d = ((d.entry path).map (Entry.map fun _ => .ok ()), d) :=
  rfl

/-- Every directory of a disk can be listed. -/
theorem obstacle?_eq_none (root : Path) (e : Entry Bytes) :
    (e.map fun _ => .ok ()).obstacle? root = none := by
  have hlisting : ∀ (l : Listing Bytes) (place : Path),
      (l.map fun _ => .ok ()).obstacles place = [] := by
    intro l
    induction l with
    | empty => intro place; rfl
    | file name payload rest ih => exact ih
    | dir name inside rest ih_inside ih =>
      intro place
      rw [Listing.map, Listing.obstacles, ih_inside, ih]
      split
      · rfl
      · rfl
  have hnone : (e.map fun _ => .ok ()).obstacles root = [] := by
    cases e with
    | file content => rfl
    | dir inside => exact hlisting inside root
  rw [Entry.obstacle?, hnone, List.mergeSort_nil, List.head?_nil]

/-- An operation leaves the disk alone where it fails. -/
theorem attempt_eq_iff {change : Disk → Except FileError Disk} {r : Except FileError Unit} :
    attempt change d = (r, d') ↔
      r = .ok () ∧ change d = .ok d' ∨
        ∃ cause, r = .error cause ∧ change d = .error cause ∧ d = d' := by
  rw [attempt]
  cases change d with
  | ok changed =>
    constructor
    · intro h
      cases h
      exact .inl ⟨rfl, rfl⟩
    · rintro (⟨rfl, h⟩ | ⟨_, _, h, _⟩) <;> cases h
      rfl
  | error cause =>
    constructor
    · intro h
      cases h
      exact .inr ⟨cause, rfl, rfl, rfl⟩
    · rintro (⟨_, h⟩ | ⟨_, rfl, h, rfl⟩) <;> cases h
      rfl

/-! ## Making directories -/

theorem isDir_eq (path : Path) (d : Disk) :
    ∃ found : Bool, Host.isDir (m := StateM Disk) path d = (found, d) ∧
      (found = true ↔ d.LeadsToDir path) := by
  have hentry := entry_eq path d
  unfold LeadsToDir
  cases hfound : d.entry path with
  | error cause =>
    rw [hfound] at hentry
    exact ⟨false, bind_eq_iff.mpr ⟨_, _, hentry, rfl⟩, by simp⟩
  | ok found =>
    rw [hfound] at hentry
    cases found with
    | file content => exact ⟨false, bind_eq_iff.mpr ⟨_, _, hentry, rfl⟩, by simp⟩
    | dir inside => exact ⟨true, bind_eq_iff.mpr ⟨_, _, hentry, rfl⟩, by simp⟩

/-- A directory is there after it was asked for with success. -/
theorem changes_ensureDir {r : Except FileError Unit}
    (h : Host.ensureDir (m := StateM Disk) path d = (r, d')) :
    d.Changes (fun _ => False) d' ∧ (r = .ok () → d'.LeadsToDir path) := by
  obtain ⟨made, d₁, hmake, hrest⟩ := bind_eq_iff.mp h
  rcases attempt_eq_iff.mp hmake with ⟨rfl, hchange⟩ | ⟨cause, rfl, -, rfl⟩
  · cases hrest
    exact ⟨(put_of_makeDir hchange).changes_dir, fun _ => leadsToDir_of_makeDir hchange⟩
  · -- it could not be made, so it is looked up
    obtain ⟨found, hisDir, hfound⟩ := isDir_eq path d
    obtain ⟨found', d₂, hisDir', hresult⟩ := bind_eq_iff.mp hrest
    rw [hisDir] at hisDir'
    cases hisDir'
    cases hresult
    refine ⟨.refl _ d, fun hr => hfound.mp ?_⟩
    cases found with
    | true => rfl
    | false => cases hr

theorem ensureDir_of_leadsToDir (h : d.LeadsToDir path) :
    Host.ensureDir (m := StateM Disk) path d = (.ok (), d) := by
  obtain ⟨cause, hmake⟩ := makeDir_of_leadsToDir h
  obtain ⟨found, hisDir, hfound⟩ := isDir_eq path d
  refine bind_eq_iff.mpr ⟨_, _, attempt_eq_iff.mpr (.inr ⟨cause, rfl, hmake, rfl⟩), ?_⟩
  refine bind_eq_iff.mpr ⟨_, _, hisDir, ?_⟩
  rw [hfound.mpr h]
  rfl

/-- Only directories are made, and with success the one that was asked for is there. -/
theorem changes_makeDirsUpTo {levels : Nat} {r : Except FileError Unit}
    (h : Host.makeDirsUpTo (m := StateM Disk) levels path d = (r, d')) :
    d.Changes (fun _ => False) d' ∧ (r = .ok () → path.text = "" ∨ d'.LeadsToDir path) := by
  induction levels generalizing path d d' r with
  | zero =>
    -- out of levels nothing is made
    cases h
    exact ⟨.refl _ d, nofun⟩
  | succ levels ih =>
    rw [Host.makeDirsUpTo] at h
    split at h
    · rename_i hempty
      cases h
      exact ⟨.refl _ d, fun _ => .inl hempty⟩
    · obtain ⟨first, d₁, hfirst, hrest⟩ := bind_eq_iff.mp h
      obtain ⟨hchanges, hdir⟩ := changes_ensureDir hfirst
      cases first with
      | ok =>
        cases hrest
        exact ⟨hchanges, fun hr => .inr (hdir hr)⟩
      | error cause =>
        cases cause with
        | notFound =>
          -- the directory above is missing: it is made first
          cases hparent : path.parent? with
          | none =>
            simp only [hparent] at hrest
            cases hrest
            exact ⟨hchanges, nofun⟩
          | some above =>
            simp only [hparent] at hrest
            obtain ⟨made, d₂, hmade, hlast⟩ := bind_eq_iff.mp hrest
            have habove := hchanges.trans (ih hmade).1
            cases made with
            | error cause =>
              cases hlast
              exact ⟨habove, nofun⟩
            | ok =>
              obtain ⟨hagain, hdir⟩ := changes_ensureDir hlast
              exact ⟨habove.trans hagain, fun hr => .inr (hdir hr)⟩
        | _ =>
          -- any other failure is reported
          cases hrest
          exact ⟨hchanges, nofun⟩

theorem changes_makeDirs {r : Except FileError Unit}
    (h : Host.makeDirs (m := StateM Disk) path d = (r, d')) :
    d.Changes (fun _ => False) d' ∧ (r = .ok () → path.text = "" ∨ d'.LeadsToDir path) :=
  changes_makeDirsUpTo h

/-- Making directories that are there changes nothing. -/
theorem makeDirs_of_leadsToDir (h : path.text = "" ∨ d.LeadsToDir path) :
    Host.makeDirs (m := StateM Disk) path d = (.ok (), d) := by
  rw [Host.makeDirs, Host.makeDirsUpTo]
  split
  · rfl
  · rename_i hempty
    exact bind_eq_iff.mpr ⟨_, _, ensureDir_of_leadsToDir (h.resolve_left hempty), rfl⟩

end Disk

end Lineage
