import Lineage.Proofs.Disk.Changes
import Mathlib.Data.List.TakeWhile

/-!
# Operations on a disk

Following a path, reading and writing, before and after a disk has changed. What could be followed
still can, to the same location; what was written can be written again without any effect, and a
directory that was made is there.

## Main definitions

- `Disk.LeadsToDir`: a path leads to a directory

## Main statements

- `Disk.Changes.locate`, `Disk.Changes.slot`: paths after changes
- `Disk.Changes.read_of_not`, `Disk.Changes.read_of_content?`: what is read after changes
- `Disk.put_of_write`, `Disk.write_of_write`: writing a file, and writing it again
- `Disk.put_of_makeDir`, `Disk.leadsToDir_of_makeDir`: making a directory
-/

namespace Lineage

namespace Disk

variable {d d' : Disk} {here there : Location} {path : Path} {written : Location → Prop}

/-! ## Following paths -/

theorem requireDir_eq_ok_iff : d.requireDir here = .ok () ↔ d.IsDir here := by
  rw [requireDir, IsDir]
  cases hat : d.at? here with
  | none => simp
  | some found => cases found <;> simp

/-- A piece can be followed from a directory, to something that exists if it is a name. -/
theorem follow_eq_ok_iff {piece : String} :
    d.follow here piece = .ok there ↔
      d.IsDir here ∧ there = Path.step here piece ∧
        (piece = "" ∨ piece = "." ∨ piece = ".." ∨ d.at? (here ++ [piece]) ≠ none) := by
  rw [← requireDir_eq_ok_iff, follow, Path.step]
  cases d.requireDir here with
  | error cause => simp [bind, Except.bind]
  | ok =>
    -- only a name has to exist
    by_cases hstay : piece = "" ∨ piece = "."
    · have hpiece : piece = "" ∨ piece = "." ∨ piece = ".." ∨ d.at? (here ++ [piece]) ≠ none := by
        rcases hstay with hempty | hdot
        · exact .inl hempty
        · exact .inr (.inl hdot)
      simp only [bind, Except.bind, pure, Except.pure, if_pos hstay, Except.ok.injEq, hpiece]
      simp [eq_comm]
    · by_cases hback : piece = ".."
      · simp [bind, Except.bind, pure, Except.pure, hback]
        exact eq_comm
      · cases hat : d.at? (here ++ [piece]) with
        | none =>
          simp only [not_or] at hstay
          simp [bind, Except.bind, throw, throwThe, MonadExceptOf.throw, hstay, hback]
        | some found =>
          simp [bind, Except.bind, pure, Except.pure, hstay, hback, eq_comm]

/-- What can be followed can be followed after any changes, too. -/
theorem Changes.follow (h : d.Changes written d') {piece : String}
    (hfollow : d.follow here piece = .ok there) : d'.follow here piece = .ok there := by
  rw [follow_eq_ok_iff] at hfollow ⊢
  obtain ⟨hdir, hthere, hpiece⟩ := hfollow
  refine ⟨h.isDir here hdir, hthere, ?_⟩
  rcases hpiece with hempty | hdot | hdots | hat
  · exact .inl hempty
  · exact .inr (.inl hdot)
  · exact .inr (.inr (.inl hdots))
  · exact .inr (.inr (.inr (h.at?_ne_none hat)))

theorem Changes.foldlM_follow (h : d.Changes written d') {pieces : List String}
    (hfollow : pieces.foldlM d.follow here = .ok there) :
    pieces.foldlM d'.follow here = .ok there := by
  induction pieces generalizing here with
  | nil => exact hfollow
  | cons piece rest ih =>
    rw [List.foldlM_cons] at hfollow ⊢
    cases hnext : d.follow here piece with
    | error cause =>
      rw [hnext] at hfollow
      cases hfollow
    | ok next =>
      rw [hnext] at hfollow
      rw [h.follow hnext]
      exact ih hfollow

theorem Changes.locate (h : d.Changes written d') (hlocate : d.locate path = .ok here) :
    d'.locate path = .ok here := by
  unfold Disk.locate at hlocate ⊢
  split at hlocate
  · cases hlocate
  · rename_i hempty
    rw [if_neg hempty]
    exact h.foldlM_follow hlocate

/-- What stands at a path that can be followed. -/
theorem entry_eq_ok_iff {e : Entry Bytes} :
    d.entry path = .ok e ↔ d.locate path = .ok path.location ∧ d.at? path.location = some e := by
  rw [entry]
  constructor
  · intro h
    cases hlocate : d.locate path with
    | error cause =>
      rw [hlocate] at h
      cases h
    | ok found =>
      -- a path that can be followed leads to its location
      obtain rfl := location_of_locate hlocate
      rw [hlocate] at h
      simp only [bind, Except.bind] at h
      split at h
      · rename_i found hat
        cases h
        exact ⟨rfl, hat⟩
      · cases h
  · rintro ⟨hlocate, hat⟩
    rw [hlocate]
    simp [bind, Except.bind, hat, pure, Except.pure]

theorem read_eq_ok_iff {content : Bytes} :
    d.read path = .ok content ↔
      d.locate path = .ok path.location ∧ d.content? path.location = some content := by
  rw [content?_eq_some_iff, ← entry_eq_ok_iff, read]
  cases d.entry path with
  | error cause => simp [bind, Except.bind]
  | ok found =>
    cases found <;>
      simp [bind, Except.bind, pure, Except.pure, throw, throwThe, MonadExceptOf.throw]

namespace Changes

variable (h : d.Changes written d')

include h

theorem entry_eq_ok (hentry : ∃ e, d.entry path = .ok e) : ∃ e, d'.entry path = .ok e := by
  obtain ⟨e, he⟩ := hentry
  obtain ⟨hlocate, hat⟩ := entry_eq_ok_iff.mp he
  have hne : d'.at? path.location ≠ none := h.at?_ne_none (by rw [hat]; simp)
  obtain ⟨e', he'⟩ := Option.ne_none_iff_exists'.mp hne
  exact ⟨e', entry_eq_ok_iff.mpr ⟨h.locate hlocate, he'⟩⟩

/-- A file that was not written reads as before. -/
theorem read_of_not {content : Bytes} (hread : d.read path = .ok content)
    (hnot : ¬ written path.location) : d'.read path = .ok content := by
  obtain ⟨hlocate, hcontent⟩ := read_eq_ok_iff.mp hread
  refine read_eq_ok_iff.mpr ⟨h.locate hlocate, ?_⟩
  rw [h.content _ hnot, hcontent]

/-- A file that could be read reads as what it holds now. -/
theorem read_of_content? {content content' : Bytes} (hread : d.read path = .ok content)
    (hcontent : d'.content? path.location = some content') : d'.read path = .ok content' :=
  read_eq_ok_iff.mpr ⟨h.locate (read_eq_ok_iff.mp hread).1, hcontent⟩

/-- A file that could be read still can. -/
theorem exists_read {content : Bytes} (hread : d.read path = .ok content) :
    ∃ content', d'.read path = .ok content' := by
  have hfile := h.isFile path.location (by rw [(read_eq_ok_iff.mp hread).2]; rfl)
  obtain ⟨content', hcontent'⟩ := Option.isSome_iff_exists.mp hfile
  exact ⟨content', h.read_of_content? hread hcontent'⟩

end Changes

/-- A path leads to a directory. -/
def LeadsToDir (d : Disk) (path : Path) : Prop := ∃ inside, d.entry path = .ok (.dir inside)

theorem leadsToDir_iff :
    d.LeadsToDir path ↔ d.locate path = .ok path.location ∧ d.IsDir path.location := by
  simp only [LeadsToDir, IsDir, entry_eq_ok_iff, exists_and_left]

theorem Changes.leadsToDir (h : d.Changes written d') (hdir : d.LeadsToDir path) :
    d'.LeadsToDir path := by
  rw [leadsToDir_iff] at hdir ⊢
  exact ⟨h.locate hdir.1, h.isDir _ hdir.2⟩

/-! ## Slots -/

theorem pieces_split (path : Path) {name : String} {before : List String}
    (h : path.pieces.reverse.dropWhile (· = "") = name :: before) :
    ∃ tail, path.pieces = before.reverse ++ name :: tail ∧ ∀ piece ∈ tail, piece = "" := by
  have hsplit := List.takeWhile_append_dropWhile (p := (· = "")) (l := path.pieces.reverse)
  rw [h] at hsplit
  refine ⟨(path.pieces.reverse.takeWhile (· = "")).reverse, ?_, ?_⟩
  · have hreversed := congrArg List.reverse hsplit
    rw [List.reverse_reverse, List.reverse_append, List.reverse_cons, List.append_assoc]
      at hreversed
    exact hreversed.symm
  · intro piece hpiece
    have hall := List.mem_takeWhile_imp (List.mem_reverse.mp hpiece)
    simpa using hall

/-- The slot of a name in a directory, if it can be the name of an entry. -/
def slotAt? (path : Path) (parent : Location) (name : String) : Option Slot :=
  if h : Listing.isEntryName name then
    some ⟨parent, name, h, path.pieces.getLast? = some ""⟩
  else none

/-- There is a slot, or the lack of one, where the pieces in front of the last one that is not
    empty lead to a directory. -/
theorem slot_eq_ok_iff {o : Option Slot} :
    d.slot path = .ok o ↔ path.text ≠ "" ∧
      (path.pieces.reverse.dropWhile (· = "") = [] ∧ o = none ∨
        ∃ name before parent, path.pieces.reverse.dropWhile (· = "") = name :: before ∧
          before.reverse.foldlM d.follow [] = .ok parent ∧ d.IsDir parent ∧
          slotAt? path parent name = o) := by
  rw [slot]
  by_cases hempty : path.text = ""
  · rw [if_pos hempty]
    constructor
    · intro h
      cases h
    · intro h
      exact absurd hempty h.1
  · rw [if_neg hempty]
    simp only [bind, Except.bind, pure, Except.pure]
    cases hpieces : path.pieces.reverse.dropWhile (· = "") with
    | nil => simp [hempty, eq_comm]
    | cons name before =>
      cases hparent : before.reverse.foldlM d.follow [] with
      | error cause => simp [-List.foldlM_reverse, hparent]
      | ok parent =>
        cases hdir : d.requireDir parent with
        | error cause => simp [-List.foldlM_reverse, hempty, hparent, hdir, ← requireDir_eq_ok_iff]
        | ok =>
          have hslot : (if hname : Listing.isEntryName name then
              Except.ok (some ⟨parent, name, hname, path.pieces.getLast? = some ""⟩)
              else Except.ok none : Except FileError (Option Slot))
              = .ok (slotAt? path parent name) := by
            rw [slotAt?]
            split <;> rfl
          simp [-List.foldlM_reverse, hempty, hparent, hdir, ← requireDir_eq_ok_iff, hslot]

/-- What a slot says: the pieces up to the name can be followed to its directory, and the name with
    empty pieces behind it is the rest of the path. -/
theorem slot_eq_ok_some {s : Slot} (h : d.slot path = .ok (some s)) :
    path.text ≠ "" ∧ d.IsDir s.parent ∧ path.location = s.parent ++ [s.name] ∧
      ∃ before tail, path.pieces = before ++ s.name :: tail ∧ (∀ piece ∈ tail, piece = "") ∧
        before.foldlM d.follow [] = .ok s.parent := by
  obtain ⟨hempty, ⟨-, hnone⟩ | ⟨name, before, parent, hpieces, hparent, hdir, hslot⟩⟩ :=
    slot_eq_ok_iff.mp h
  · cases hnone
  · rw [slotAt?, Option.dite_none_right_eq_some] at hslot
    obtain ⟨hname, hs⟩ := hslot
    obtain rfl := Option.some.inj hs
    obtain ⟨tail, hsplit, htail⟩ := pieces_split path hpieces
    refine ⟨hempty, hdir, ?_, before.reverse, tail, hsplit, htail, hparent⟩
    -- the pieces behind the name are empty and lead nowhere else
    rw [Path.location, hsplit, List.foldl_append, List.foldl_cons,
      ← eq_foldl_step_of_foldlM hparent, Path.step_of_isEntryName hname,
      Path.foldl_step_of_forall_empty htail]

/-- A slot says whether the path ends in a separator. -/
theorem slashed_eq_true_iff {s : Slot} (h : d.slot path = .ok (some s)) :
    s.slashed = true ↔ path.pieces.getLast? = some "" := by
  obtain ⟨-, ⟨-, hnone⟩ | ⟨name, before, parent, -, -, -, hslot⟩⟩ := slot_eq_ok_iff.mp h
  · cases hnone
  · rw [slotAt?, Option.dite_none_right_eq_some] at hslot
    obtain ⟨hname, hs⟩ := hslot
    obtain rfl := Option.some.inj hs
    exact decide_eq_true_iff

/-- A slot stays the same after any changes. -/
theorem Changes.slot (h : d.Changes written d') {o : Option Slot} (hslot : d.slot path = .ok o) :
    d'.slot path = .ok o := by
  rw [slot_eq_ok_iff] at hslot ⊢
  obtain ⟨hempty, hnone | ⟨name, before, parent, hpieces, hparent, hdir, ho⟩⟩ := hslot
  · exact ⟨hempty, .inl hnone⟩
  · exact ⟨hempty, .inr ⟨name, before, parent, hpieces, h.foldlM_follow hparent,
      h.isDir parent hdir, ho⟩⟩

/-! ## Writing -/

theorem eq_of_top (h : d.top = d'.top) : d = d' := by
  cases d
  cases d'
  cases h
  rfl

theorem mk_eq_iff {top : Listing Bytes} {proper : top.Proper} :
    (⟨top, proper⟩ : Disk) = d ↔ d.top = top := by
  constructor
  · intro h
    rw [← h]
  · intro h
    exact eq_of_top h.symm

theorem write_eq_ok_iff {content : Bytes} :
    d.write path content = .ok d' ↔
      ∃ s, d.slot path = .ok (some s) ∧ s.slashed = false ∧ ¬ d.IsDir path.location ∧
        d'.top = d.top.putAt (.file content) path.location := by
  rw [write]
  cases hslot : d.slot path with
  | error cause => simp [bind, Except.bind]
  | ok o =>
    cases o with
    | none => simp [bind, Except.bind, throw, throwThe, MonadExceptOf.throw]
    | some s =>
      obtain ⟨-, -, hlocation, -⟩ := slot_eq_ok_some hslot
      simp only [bind, Except.bind, Except.ok.injEq, Option.some.injEq, hlocation]
      -- a path that ends in a separator or leads to a directory is refused
      cases hslashed : s.slashed with
      | true => simp [throw, throwThe, MonadExceptOf.throw, hslashed]
      | false =>
        cases hat : d.at? (s.parent ++ [s.name]) with
        | none => simp [pure, Except.pure, hslashed, IsDir, hat, mk_eq_iff]
        | some found =>
          cases found <;>
            simp [pure, Except.pure, throw, throwThe, MonadExceptOf.throw, hslashed, IsDir, hat,
              mk_eq_iff]

theorem put_of_write {content : Bytes} (h : d.write path content = .ok d') :
    d.Put (.file content) path.location d' := by
  obtain ⟨s, hslot, -, hdir, htop⟩ := write_eq_ok_iff.mp h
  obtain ⟨-, habove, hlocation, -⟩ := slot_eq_ok_some hslot
  exact ⟨htop, ⟨s.parent, s.name, hlocation, habove⟩, hdir, .inl ⟨content, rfl⟩⟩

/-- Writing the same again changes nothing. -/
theorem write_of_write {content : Bytes} (h : d.write path content = .ok d') :
    d'.write path content = .ok d' := by
  have hput := put_of_write h
  obtain ⟨s, hslot, hslashed, -, -⟩ := write_eq_ok_iff.mp h
  have hat : d'.at? path.location = some (.file content) := hput.at?_self
  refine write_eq_ok_iff.mpr ⟨s, hput.changes_file.slot hslot, hslashed, ?_, ?_⟩
  · rintro ⟨inside, hinside⟩
    rw [hat] at hinside
    cases hinside
  · exact (Listing.putAt_of_entryAt hat).symm

/-- The name of a slot can be followed once something is there. -/
theorem Changes.locate_of_slot (h : d.Changes written d') {s : Slot}
    (hslot : d.slot path = .ok (some s)) (hat : d'.at? path.location ≠ none) :
    ∃ before tail, path.pieces = before ++ s.name :: tail ∧ (∀ piece ∈ tail, piece = "") ∧
      (before ++ [s.name]).foldlM d'.follow [] = .ok path.location := by
  obtain ⟨-, habove, hlocation, before, tail, hpieces, htail, hbefore⟩ := slot_eq_ok_some hslot
  have hname : d'.follow s.parent s.name = .ok path.location := by
    rw [follow_eq_ok_iff, Path.step_of_isEntryName s.proper]
    refine ⟨h.isDir _ habove, hlocation, .inr (.inr (.inr ?_))⟩
    rw [← hlocation]
    exact hat
  refine ⟨before, tail, hpieces, htail, ?_⟩
  rw [List.foldlM_append, h.foldlM_follow hbefore]
  show [s.name].foldlM d'.follow s.parent = _
  rw [List.foldlM_cons, hname]
  rfl

/-- What was written can be read. -/
theorem read_of_write {content : Bytes} (h : d.write path content = .ok d') :
    d'.read path = .ok content := by
  have hput := put_of_write h
  have hat : d'.at? path.location = some (.file content) := hput.at?_self
  obtain ⟨s, hslot, hslashed, -, -⟩ := write_eq_ok_iff.mp h
  obtain ⟨before, tail, hpieces, htail, hfollow⟩ :=
    hput.changes_file.locate_of_slot hslot (by rw [hat]; simp)
  -- the name is the last piece, because the path does not end in a separator
  obtain rfl : tail = [] := by
    by_contra hne
    have hlast : path.pieces.getLast? = some "" := by
      rw [hpieces, List.append_cons, List.getLast?_append_of_ne_nil _ hne,
        List.getLast?_eq_some_getLast hne, htail _ (List.getLast_mem hne)]
    rw [(slashed_eq_true_iff hslot).mpr hlast] at hslashed
    cases hslashed
  refine read_eq_ok_iff.mpr ⟨?_, content?_eq_some_iff.mpr hat⟩
  rw [locate, if_neg (slot_eq_ok_some hslot).1, hpieces]
  exact hfollow

/-! ## Making directories -/

theorem makeDir_eq_ok_iff :
    d.makeDir path = .ok d' ↔
      ∃ s, d.slot path = .ok (some s) ∧ d.at? path.location = none ∧
        d'.top = d.top.putAt (.dir .empty) path.location := by
  rw [makeDir]
  cases hslot : d.slot path with
  | error cause => simp [bind, Except.bind]
  | ok o =>
    cases o with
    | none => simp [bind, Except.bind, throw, throwThe, MonadExceptOf.throw]
    | some s =>
      obtain ⟨-, -, hlocation, -⟩ := slot_eq_ok_some hslot
      simp only [bind, Except.bind, Except.ok.injEq, Option.some.injEq, hlocation]
      cases hat : d.at? (s.parent ++ [s.name]) with
      | none => simp [pure, Except.pure, mk_eq_iff]
      | some found => simp [throw, throwThe, MonadExceptOf.throw]

theorem put_of_makeDir (h : d.makeDir path = .ok d') :
    d.Put (.dir .empty) path.location d' := by
  obtain ⟨s, hslot, hnone, htop⟩ := makeDir_eq_ok_iff.mp h
  obtain ⟨-, habove, hlocation, -⟩ := slot_eq_ok_some hslot
  refine ⟨htop, ⟨s.parent, s.name, hlocation, habove⟩, ?_, .inr ⟨rfl, hnone⟩⟩
  rintro ⟨inside, hinside⟩
  rw [hnone] at hinside
  cases hinside

theorem foldlM_follow_of_forall_empty (hdir : d.IsDir here) {tail : List String}
    (h : ∀ piece ∈ tail, piece = "") : tail.foldlM d.follow here = .ok here := by
  induction tail with
  | nil => rfl
  | cons piece rest ih =>
    have hpiece : piece = "" := h piece (List.mem_cons_self ..)
    have hfollow : d.follow here piece = .ok here := by
      rw [follow_eq_ok_iff, Path.step, if_pos (.inl hpiece)]
      exact ⟨hdir, rfl, .inl hpiece⟩
    rw [List.foldlM_cons, hfollow]
    exact ih fun other hother => h other (List.mem_cons_of_mem _ hother)

/-- The directory that was made is there. -/
theorem leadsToDir_of_makeDir (h : d.makeDir path = .ok d') : d'.LeadsToDir path := by
  have hput := put_of_makeDir h
  obtain ⟨s, hslot, -, -⟩ := makeDir_eq_ok_iff.mp h
  have hdir : d'.IsDir path.location := ⟨_, hput.at?_self⟩
  obtain ⟨before, tail, hpieces, htail, hfollow⟩ :=
    hput.changes_dir.locate_of_slot hslot (by rw [hput.at?_self]; simp)
  refine leadsToDir_iff.mpr ⟨?_, hdir⟩
  rw [locate, if_neg (slot_eq_ok_some hslot).1, hpieces, List.append_cons,
    List.foldlM_append, hfollow]
  exact foldlM_follow_of_forall_empty hdir htail

/-- A directory that is there cannot be made. -/
theorem makeDir_of_leadsToDir (h : d.LeadsToDir path) : ∃ cause, d.makeDir path = .error cause := by
  cases hmake : d.makeDir path with
  | error cause => exact ⟨cause, rfl⟩
  | ok changed =>
    obtain ⟨-, -, hnone, -⟩ := makeDir_eq_ok_iff.mp hmake
    obtain ⟨inside, hinside⟩ := (leadsToDir_iff.mp h).2
    rw [hnone] at hinside
    cases hinside

end Disk

end Lineage
