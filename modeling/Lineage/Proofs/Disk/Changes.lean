import Lineage.Proofs.Disk.Listing

/-!
# Changes of a disk

A run makes directories and writes files, and does nothing else to a disk. Directories stay
directories, files stay files, the files that were not written keep their content, and a place keeps
its visible files unless a new file was written below it.

## Main definitions

- `Disk.Put` is one change: an entry put at a location
- `Disk.Changes` is what holds after any number of them

## Main statements

- `Disk.Put.changes_file` and `Disk.Put.changes_dir`: one change
- `Disk.Changes.trans`: one after another
-/

namespace Lineage

/-- The content of an entry that is a file. -/
def Entry.content? : Entry Bytes → Option Bytes
  | .file content => some content
  | .dir _ => none

namespace Disk

variable {d d' d'' : Disk} {here there : Location} {e : Entry Bytes}

/-! ## What stands at a location -/

/-- A directory stands at a location. -/
def IsDir (d : Disk) (here : Location) : Prop := ∃ inside, d.at? here = some (.dir inside)

/-- The content of the file at a location. -/
def content? (d : Disk) (here : Location) : Option Bytes := (d.at? here).bind Entry.content?

theorem content?_eq_some_iff {content : Bytes} :
    d.content? here = some content ↔ d.at? here = some (.file content) := by
  rw [content?]
  cases hat : d.at? here with
  | none => simp
  | some found => cases found <;> simp [Entry.content?]

theorem at?_append (names : List String) :
    d.at? (here ++ names) = (d.at? here).bind (·.entryAt names) :=
  Listing.entryAt_append here names

theorem isDir_or_content? {found : Entry Bytes} (h : d.at? here = some found) :
    d.IsDir here ∨ ∃ content, d.content? here = some content := by
  cases found with
  | file content => exact .inr ⟨content, content?_eq_some_iff.mpr h⟩
  | dir inside => exact .inl ⟨inside, h⟩

theorem IsDir.content?_eq_none (h : d.IsDir here) : d.content? here = none := by
  obtain ⟨inside, hinside⟩ := h
  rw [content?, hinside]
  rfl

/-- Above a directory there are directories. -/
theorem IsDir.of_below (h : d.IsDir there) (hleads : here <+: there) : d.IsDir here := by
  obtain ⟨names, rfl⟩ := hleads
  obtain ⟨inside, hinside⟩ := h
  rw [at?_append] at hinside
  cases hat : d.at? here with
  | none =>
    rw [hat] at hinside
    cases hinside
  | some found =>
    cases found with
    | dir below => exact ⟨below, hat⟩
    | file content =>
      rw [hat, Option.bind_some] at hinside
      cases names <;> cases hinside

/-- Nothing is below what is no directory. -/
theorem at?_eq_none_of_not_isDir (h : ¬ d.IsDir here) {names : List String} (hne : names ≠ []) :
    d.at? (here ++ names) = none := by
  obtain ⟨m, rest, rfl⟩ := List.exists_cons_of_ne_nil hne
  rw [at?_append]
  cases hat : d.at? here with
  | none => rfl
  | some found =>
    cases found with
    | dir below => exact absurd ⟨below, hat⟩ h
    | file content => rfl

/-! ## One change -/

/-- A disk with an entry put at a location: a file, or an empty directory where nothing was. The
    directory above exists, and no directory gives way. -/
structure Put (d : Disk) (e : Entry Bytes) (here : Location) (d' : Disk) : Prop where
  top : d'.top = d.top.putAt e here
  above : ∃ above name, here = above ++ [name] ∧ d.IsDir above
  not_isDir : ¬ d.IsDir here
  entry : (∃ content, e = .file content) ∨ e = .dir .empty ∧ d.at? here = none

namespace Put

variable (h : d.Put e here d')

include h

theorem at?_self : d'.at? here = some e := by
  obtain ⟨above, name, rfl, inside, hinside⟩ := h.above
  rw [at?, h.top]
  exact Listing.entryAt_putAt_append hinside []

theorem entryAt_eq_none {names : List String} (hne : names ≠ []) : e.entryAt names = none := by
  obtain ⟨m, rest, rfl⟩ := List.exists_cons_of_ne_nil hne
  rcases h.entry with ⟨content, rfl⟩ | ⟨rfl, -⟩ <;> rfl

/-- Everything but the location and what is above is as it was. -/
theorem at?_elsewhere (hleads : ¬ there <+: here) : d'.at? there = d.at? there := by
  by_cases hbelow : here <+: there
  · obtain ⟨names, rfl⟩ := hbelow
    have hne : names ≠ [] := by
      rintro rfl
      rw [List.append_nil] at hleads
      exact hleads (List.prefix_refl here)
    rw [at?_append, h.at?_self, Option.bind_some, h.entryAt_eq_none hne,
      at?_eq_none_of_not_isDir h.not_isDir hne]
  · rw [at?, h.top]
    exact Listing.entryAt_putAt_elsewhere hbelow hleads

/-- What is above is a directory with the change in it. -/
theorem at?_above (hleads : there <+: here) (hne : there ≠ here) :
    ∃ names inside, here = there ++ names ∧ d.at? there = some (.dir inside) ∧
      d'.at? there = some (.dir (inside.putAt e names)) := by
  obtain ⟨names, hnames⟩ := hleads
  have hnames_ne : names ≠ [] := by
    rintro rfl
    rw [List.append_nil] at hnames
    exact hne hnames
  -- the directory right above the change is this one or below it
  obtain ⟨above, name, heq, habove⟩ := h.above
  have hbelow : there <+: above := by
    have hlast : names.dropLast ++ [names.getLast hnames_ne] = names :=
      List.dropLast_append_getLast hnames_ne
    rw [← hnames, ← hlast, ← List.append_assoc] at heq
    have hfront : there ++ names.dropLast = above := (List.append_inj' heq rfl).1
    exact ⟨names.dropLast, hfront⟩
  obtain ⟨inside, hinside⟩ := habove.of_below hbelow
  refine ⟨names, inside, hnames.symm, hinside, ?_⟩
  rw [at?, h.top, ← hnames]
  exact Listing.entryAt_putAt_above hinside hnames_ne

theorem isDir (there : Location) (hdir : d.IsDir there) : d'.IsDir there := by
  by_cases hleads : there <+: here
  · have hne : there ≠ here := by
      rintro rfl
      exact h.not_isDir hdir
    obtain ⟨names, inside, -, -, hafter⟩ := h.at?_above hleads hne
    exact ⟨_, hafter⟩
  · rw [IsDir, h.at?_elsewhere hleads]
    exact hdir

theorem content?_of_ne (hne : there ≠ here) : d'.content? there = d.content? there := by
  by_cases hleads : there <+: here
  · -- directories have no content
    obtain ⟨names, inside, -, hbefore, hafter⟩ := h.at?_above hleads hne
    rw [IsDir.content?_eq_none ⟨_, hbefore⟩, IsDir.content?_eq_none ⟨_, hafter⟩]
  · rw [content?, content?, h.at?_elsewhere hleads]

/-- The visible files of a place stay the same if the change is elsewhere, or has the files of what
    it replaces. -/
theorem filesOf_eq {place : Path}
    (hfiles : (∀ p, e.files p = filesOf p (d.at? here)) ∨ ¬ there <+: here) :
    filesOf place (d'.at? there) = filesOf place (d.at? there) := by
  by_cases hleads : there <+: here
  · have hsame := hfiles.resolve_right fun hnot => hnot hleads
    by_cases heq : there = here
    · rw [heq, h.at?_self]
      exact hsame place
    · obtain ⟨names, inside, hnames, hbefore, hafter⟩ := h.at?_above hleads heq
      rw [hbefore, hafter]
      refine Listing.visibleFiles_putAt place fun p => ?_
      rw [hsame p, hnames, at?_append, hbefore, Option.bind_some, Entry.entryAt_dir]
  · rw [h.at?_elsewhere hleads]

end Put

/-! ## Any number of changes -/

/-- What holds of a disk after directories were made and files written at some locations. -/
structure Changes (written : Location → Prop) (d d' : Disk) : Prop where
  isDir : ∀ here, d.IsDir here → d'.IsDir here
  isFile : ∀ here, (d.content? here).isSome → (d'.content? here).isSome
  content : ∀ here, ¬ written here → d'.content? here = d.content? here
  files : ∀ there, (∀ here, written here → (d.content? here).isSome ∨ ¬ there <+: here) →
    ∀ place, filesOf place (d'.at? there) = filesOf place (d.at? there)

namespace Changes

variable {written written' : Location → Prop}

theorem refl (written : Location → Prop) (d : Disk) : d.Changes written d where
  isDir := fun _ h => h
  isFile := fun _ h => h
  content := fun _ _ => rfl
  files := fun _ _ _ => rfl

theorem trans (h : d.Changes written d') (h' : d'.Changes written d'') :
    d.Changes written d'' where
  isDir := fun here hdir => h'.isDir here (h.isDir here hdir)
  isFile := fun here hfile => h'.isFile here (h.isFile here hfile)
  content := fun here hnot => (h'.content here hnot).trans (h.content here hnot)
  files := by
    intro there hold place
    have hold' : ∀ here, written here → (d'.content? here).isSome ∨ ¬ there <+: here :=
      fun here hwritten => (hold here hwritten).imp_left (h.isFile here)
    exact (h'.files there hold' place).trans (h.files there hold place)

theorem mono (h : d.Changes written d') (himp : ∀ here, written here → written' here) :
    d.Changes written' d' where
  isDir := h.isDir
  isFile := h.isFile
  content := fun here hnot => h.content here fun hwritten => hnot (himp here hwritten)
  files := fun there hold => h.files there fun here hwritten => hold here (himp here hwritten)

/-- What existed still exists. -/
theorem at?_ne_none (h : d.Changes written d') (hat : d.at? here ≠ none) :
    d'.at? here ≠ none := by
  obtain ⟨found, hfound⟩ := Option.ne_none_iff_exists'.mp hat
  rcases isDir_or_content? hfound with hdir | ⟨content, hcontent⟩
  · obtain ⟨inside, hinside⟩ := h.isDir here hdir
    rw [hinside]
    simp
  · have hsome := h.isFile here (by rw [hcontent]; rfl)
    intro hnone
    rw [content?, hnone] at hsome
    cases hsome

end Changes

/-- Writing a file. -/
theorem Put.changes_file {content : Bytes} (h : d.Put (.file content) here d') :
    d.Changes (· = here) d' where
  isDir := h.isDir
  isFile := by
    intro there hfile
    by_cases heq : there = here
    · rw [heq, content?_eq_some_iff.mpr h.at?_self]
      rfl
    · rw [h.content?_of_ne heq]
      exact hfile
  content := fun there hne => h.content?_of_ne hne
  files := by
    intro there hold place
    refine h.filesOf_eq ((hold here rfl).imp_left fun hfile p => ?_)
    obtain ⟨old, hcontent⟩ := Option.isSome_iff_exists.mp hfile
    rw [content?_eq_some_iff.mp hcontent]
    rfl

/-- Making a directory. -/
theorem Put.changes_dir (h : d.Put (.dir .empty) here d') : d.Changes (fun _ => False) d' := by
  have hnone : d.at? here = none := by
    rcases h.entry with ⟨content, hfile⟩ | ⟨-, hnone⟩
    · cases hfile
    · exact hnone
  have hcontent : ∀ there, d'.content? there = d.content? there := by
    intro there
    by_cases heq : there = here
    · rw [heq, content?, content?, h.at?_self, hnone]
      rfl
    · exact h.content?_of_ne heq
  refine ⟨h.isDir, fun there hfile => ?_, fun there _ => hcontent there, fun there _ place => ?_⟩
  · rw [hcontent]
    exact hfile
  · refine h.filesOf_eq (.inl fun p => ?_)
    rw [hnone]
    rfl

end Disk

end Lineage
