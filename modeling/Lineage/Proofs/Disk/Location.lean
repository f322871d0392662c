import Lineage.Disk.Basic
import Mathlib.Data.List.Basic

/-!
# Where paths lead

There are no links on a disk, so a path leads to one location whatever stands on the way: following
it either fails or arrives there. Equal paths lead to the same location, and a name joined to a
path leads one step further.

## Main definitions

- `Path.location` is the location a path leads to

## Main statements

- `Path.pieces_join`, `Path.location_join`: a name joined to a path
- `Path.location_eq_of_same`: equal paths
- `Disk.location_of_locate`: following a path
-/

namespace Lineage

namespace Path

/-- The step of a piece: nothing and a dot stay, two dots lead back, a name leads on. -/
def step (here : Location) (piece : String) : Location :=
  if piece = "" ∨ piece = "." then here
  else if piece = ".." then here.dropLast
  else here ++ [piece]

/-- The location that a path leads to. -/
def location (p : Path) : Location := p.pieces.foldl step []

theorem step_of_isEntryName {name : String} (h : Listing.isEntryName name = true)
    (here : Location) : step here name = here ++ [name] := by
  simp only [Listing.isEntryName, Bool.and_eq_true, decide_eq_true_eq] at h
  obtain ⟨⟨⟨hempty, hdot⟩, hdots⟩, -⟩ := h
  rw [step, if_neg (by simp [hempty, hdot]), if_neg hdots]

/-- Empty pieces lead nowhere else. -/
theorem foldl_step_of_forall_empty {tail : List String} (h : ∀ piece ∈ tail, piece = "")
    (here : Location) : tail.foldl step here = here := by
  induction tail with
  | nil => rfl
  | cons piece rest ih =>
    have hpiece : piece = "" := h piece (List.mem_cons_self ..)
    rw [List.foldl_cons, hpiece, step, if_pos (.inl rfl)]
    exact ih fun other hother => h other (List.mem_cons_of_mem _ hother)

/-! ## Joining -/

theorem pieces_append_slash (text : List Char) (name : List Char) (hname : '/' ∉ name) :
    (text ++ '/' :: name).splitOn '/' = text.splitOn '/' ++ [name] := by
  rw [List.splitOn_append_cons_self, List.splitOn_eq_singleton hname]

/-- The pieces of a path with a name joined to it: an empty piece at the end gives way. -/
theorem pieces_join {name : String} (h : Listing.isEntryName name = true) (dir : Path) :
    ∃ front tail, dir.pieces = front ++ tail ∧ (∀ piece ∈ tail, piece = "") ∧
      (dir.join ⟨name⟩).pieces = front ++ [name] := by
  have hslash : '/' ∉ name.toList := by
    simp only [Listing.isEntryName, Bool.and_eq_true, Bool.not_eq_true'] at h
    intro hmem
    have hcontains := List.contains_iff_mem.mpr hmem
    rw [h.2] at hcontains
    cases hcontains
  have hrelative : ¬ (⟨name⟩ : Path).isAbsolute = true := by
    intro habsolute
    obtain ⟨rest, hrest⟩ := String.startsWith_string_iff.mp habsolute
    apply hslash
    rw [← hrest]
    exact List.mem_append_left _ (by decide)
  rw [join, if_neg hrelative]
  split
  · rename_i hend
    rcases hend with hempty | hend
    · -- nothing to join to
      refine ⟨[], [""], ?_, by simp, ?_⟩
      · simp [pieces, hempty]
      · simp [pieces, hempty, List.splitOn_eq_singleton hslash]
    · -- the path ends in a separator already
      obtain ⟨front, hfront⟩ : ∃ front, dir.text.toList = front ++ ['/'] := by
        have hsuffix : dir.text.toSlice.endsWith "/" = true := hend
        obtain ⟨front, hfront⟩ := String.Slice.endsWith_string_iff.mp hsuffix
        exact ⟨front, by simpa using hfront.symm⟩
      refine ⟨(front.splitOn '/').map String.ofList, [""], ?_, by simp, ?_⟩
      · simp [pieces, hfront, pieces_append_slash front [] List.not_mem_nil]
      · simp [pieces, hfront, pieces_append_slash front name.toList hslash]
  · -- a separator is put in between
    have htext : (dir.text ++ "/" ++ name).toList = dir.text.toList ++ '/' :: name.toList := by
      simp
    refine ⟨dir.pieces, [], (List.append_nil _).symm, nofun, ?_⟩
    simp only [pieces, htext, pieces_append_slash _ _ hslash, List.map_append, List.map_cons,
      List.map_nil, String.ofList_toList]

/-- A name joined to a path leads one step further. -/
theorem location_join {name : String} (h : Listing.isEntryName name = true) (dir : Path) :
    (dir.join ⟨name⟩).location = dir.location ++ [name] := by
  obtain ⟨front, tail, hdir, htail, hjoined⟩ := pieces_join h dir
  rw [location, hjoined, location, hdir, List.foldl_append, List.foldl_append,
    foldl_step_of_forall_empty htail, List.foldl_cons, List.foldl_nil, step_of_isEntryName h]

/-! ## Components -/

/-- The step of a component. -/
def stepComponent (here : Location) : Component → Location
  | .root => here
  | .here => here
  | .up => here.dropLast
  | .name s => here ++ [s]

theorem foldl_step (pieces : List String) (here : Location) :
    pieces.foldl step here = (pieces.filterMap component?).foldl stepComponent here := by
  induction pieces generalizing here with
  | nil => rfl
  | cons piece rest ih =>
    rw [List.foldl_cons, ih, List.filterMap_cons]
    unfold step component?
    split
    · rfl
    · split <;> rfl

theorem location_eq_foldl (p : Path) : p.location = p.components.foldl stepComponent [] := by
  -- a root or a dot in front of the components is no step
  rw [location, foldl_step, components]
  split
  · rfl
  · split <;> rfl

instance : Std.LawfulEqOrd Component where
  eq_of_compare := by
    intro c c' h
    have hboth : compareOn Component.rank c c' = .eq ∧ compareOn Component.label c c' = .eq :=
      compareLex_eq_eq.mp h
    have hrank : c.rank = c'.rank := Std.LawfulEqCmp.eq_of_compare hboth.1
    have hlabel : c.label = c'.label := Std.LawfulEqCmp.eq_of_compare hboth.2
    cases c <;> cases c' <;> simp_all [Component.rank, Component.label]

/-- Equal paths lead to the same location. -/
theorem location_eq_of_same {p q : Path} (h : p.compare q = .eq) : p.location = q.location := by
  have hcomponents : p.components = q.components := Std.LawfulEqCmp.eq_of_compare h
  rw [location_eq_foldl, location_eq_foldl, hcomponents]

/-- The file name is the last name of the location. -/
theorem getLast?_location {p : Path} {name : String} (h : p.fileName? = some name) :
    p.location.getLast? = some name := by
  rw [location_eq_foldl]
  unfold fileName? at h
  split at h
  · rename_i s hlast
    obtain rfl : s = name := Option.some.inj h
    obtain ⟨front, hfront⟩ := List.getLast?_eq_some_iff.mp hlast
    rw [hfront, List.foldl_append]
    simp [stepComponent]
  · cases h

end Path

/-! ## Following -/

namespace Disk

variable {d : Disk} {here there : Location}

/-- A piece that can be followed leads to its step. -/
theorem eq_step_of_follow {piece : String} (h : d.follow here piece = .ok there) :
    there = Path.step here piece := by
  unfold follow at h
  unfold Path.step
  cases hdir : d.requireDir here with
  | error cause =>
    rw [hdir] at h
    cases h
  | ok =>
    rw [hdir] at h
    simp only [bind, Except.bind, pure, Except.pure] at h
    split at h
    · rename_i hstay
      rw [if_pos hstay]
      exact (Except.ok.inj h).symm
    · rename_i hstay
      rw [if_neg hstay]
      split at h
      · rename_i hback
        rw [if_pos hback]
        exact (Except.ok.inj h).symm
      · rename_i hback
        rw [if_neg hback]
        split at h
        · cases h
        · exact (Except.ok.inj h).symm

theorem eq_foldl_step_of_foldlM {pieces : List String}
    (h : pieces.foldlM d.follow here = .ok there) : there = pieces.foldl Path.step here := by
  induction pieces generalizing here with
  | nil => exact (Except.ok.inj h).symm
  | cons piece rest ih =>
    rw [List.foldlM_cons] at h
    cases hnext : d.follow here piece with
    | error cause =>
      rw [hnext] at h
      cases h
    | ok next =>
      rw [hnext] at h
      rw [ih h, eq_step_of_follow hnext, List.foldl_cons]

/-- Following a path arrives at its location. -/
theorem location_of_locate {p : Path} (h : d.locate p = .ok here) : here = p.location := by
  unfold locate at h
  split at h
  · cases h
  · exact eq_foldl_step_of_foldlM h

end Disk

end Lineage
