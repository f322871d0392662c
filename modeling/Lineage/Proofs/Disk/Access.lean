import Lineage.Proofs.Disk.Operations

/-!
# Files that can be used

On a disk there is nothing but the way to a file that could keep it from being read. So a file that
can be read can be written, and every file that a directory shows can be read.

## Main statements

- `Disk.locate_join`: a name joined to a path that can be followed
- `Disk.exists_write_of_read`: what can be read can be written
- `Disk.exists_read_of_mem_visibleFiles`: what is visible can be read
-/

namespace Lineage

namespace Disk

variable {d : Disk} {here there : Location} {path : Path}

/-! ## Following paths -/

/-- A name joined to a path that leads to a directory can be followed if it stands there. -/
theorem locate_join (hlocate : d.locate path = .ok here) (hdir : d.IsDir here) {name : String}
    (hname : Listing.isEntryName name = true) (hat : d.at? (here ++ [name]) ≠ none) :
    d.locate (path.join ⟨name⟩) = .ok (here ++ [name]) := by
  obtain ⟨front, tail, hpieces, htail, hjoined⟩ := Path.pieces_join hname path
  have htext : (path.join ⟨name⟩).text ≠ "" := by
    intro hempty
    have hsingle : (path.join ⟨name⟩).pieces = [""] := by simp [Path.pieces, hempty]
    rw [hjoined] at hsingle
    obtain rfl : name = "" := (List.append_inj' (hsingle.trans (List.nil_append [""]).symm) rfl).2
      |> List.singleton_inj.mp
    simp [Listing.isEntryName] at hname
  unfold locate at hlocate ⊢
  split at hlocate
  · cases hlocate
  · rw [hpieces, List.foldlM_append] at hlocate
    rw [if_neg htext, hjoined, List.foldlM_append]
    cases hfront : front.foldlM d.follow [] with
    | error cause =>
      rw [hfront] at hlocate
      cases hlocate
    | ok before =>
      -- empty pieces lead nowhere else, so the directory is reached in front of them
      rw [hfront] at hlocate
      have hthere : here = tail.foldl Path.step before := eq_foldl_step_of_foldlM hlocate
      rw [Path.foldl_step_of_forall_empty htail] at hthere
      subst hthere
      show [name].foldlM d.follow here = _
      have hfollow : d.follow here name = .ok (here ++ [name]) :=
        follow_eq_ok_iff.mpr ⟨hdir, (Path.step_of_isEntryName hname here).symm,
          .inr (.inr (.inr hat))⟩
      rw [List.foldlM_cons, hfollow]
      rfl

/-! ## Writing -/

/-- What stands in a directory has a proper name. -/
theorem isEntryName_of_at? {name : String} (h : d.at? (here ++ [name]) ≠ none) :
    Listing.isEntryName name = true := by
  obtain ⟨found, hfound⟩ := Option.ne_none_iff_exists'.mp h
  rw [at?_append] at hfound
  obtain ⟨above, habove, hname⟩ := Option.bind_eq_some_iff.mp hfound
  cases above with
  | file content => cases hname
  | dir inside =>
    have hproper : inside.Proper := Listing.proper_of_entryAt d.proper habove
    rw [Entry.entryAt_dir, Listing.entryAt_cons] at hname
    obtain ⟨e, hfind, -⟩ := Option.bind_eq_some_iff.mp hname
    exact (Listing.proper_of_find? hproper hfind).1

/-- The last piece of a path that does not lead to a directory is a name: other pieces lead from
    directories to directories. -/
theorem exists_name_of_locate (hlocate : d.locate path = .ok path.location)
    (hnot : ¬ d.IsDir path.location) :
    ∃ before name parent, path.pieces = before ++ [name] ∧ Listing.isEntryName name = true ∧
      before.foldlM d.follow [] = .ok parent ∧ d.IsDir parent := by
  have hne : path.pieces ≠ [] := by simp [Path.pieces]
  have hpieces := (List.dropLast_append_getLast hne).symm
  unfold locate at hlocate
  split at hlocate
  · cases hlocate
  · rw [hpieces, List.foldlM_append] at hlocate
    cases hparent : path.pieces.dropLast.foldlM d.follow [] with
    | error cause =>
      rw [hparent] at hlocate
      cases hlocate
    | ok parent =>
      have hlast : d.follow parent (path.pieces.getLast hne) = .ok path.location := by
        rw [hparent] at hlocate
        have hsingle : [path.pieces.getLast hne].foldlM d.follow parent = .ok path.location :=
          hlocate
        simpa only [List.foldlM_cons, List.foldlM_nil, bind_pure] using hsingle
      obtain ⟨hdir, hstep, hpiece⟩ := follow_eq_ok_iff.mp hlast
      refine ⟨_, _, parent, hpieces, ?_, hparent, hdir⟩
      rw [hstep, Path.step] at hnot
      split at hnot
      · exact absurd hdir hnot
      · rename_i hstay
        split at hnot
        · exact absurd (hdir.of_below (List.dropLast_prefix parent)) hnot
        · rename_i hback
          simp only [not_or] at hstay
          simp only [hstay, hback, false_or] at hpiece
          exact isEntryName_of_at? hpiece

/-- A file that can be read can be written. -/
theorem exists_write_of_read {content : Bytes} (hread : d.read path = .ok content)
    (new : Bytes) : ∃ d', d.write path new = .ok d' := by
  obtain ⟨hlocate, hcontent⟩ := read_eq_ok_iff.mp hread
  have hnot : ¬ d.IsDir path.location := by
    rintro ⟨inside, hinside⟩
    rw [content?_eq_some_iff.mp hcontent] at hinside
    cases hinside
  obtain ⟨before, name, parent, hpieces, hname, hparent, hdir⟩ := exists_name_of_locate hlocate hnot
  have hempty : name ≠ "" := by
    rintro rfl
    simp [Listing.isEntryName] at hname
  have htext : path.text ≠ "" := by
    intro htext
    rw [locate, if_pos htext] at hlocate
    cases hlocate
  have hslot : d.slot path = .ok (some ⟨parent, name, hname, false⟩) := by
    refine slot_eq_ok_iff.mpr ⟨htext, .inr ⟨name, before.reverse, parent, ?_, ?_, hdir, ?_⟩⟩
    · simp [hpieces, hempty]
    · rw [List.reverse_reverse]
      exact hparent
    · simp [slotAt?, hname, hpieces, hempty]
  have hlocation : path.location = parent ++ [name] := (slot_eq_ok_some hslot).2.2.1
  refine ⟨⟨d.top.putAt (.file new) path.location, ?_⟩,
    write_eq_ok_iff.mpr ⟨_, hslot, rfl, hnot, rfl⟩⟩
  rw [hlocation]
  exact Listing.proper_putAt d.proper hname trivial

/-! ## Visible files -/

/-- Every file that a directory shows can be read. -/
theorem exists_read_of_mem_visibleFiles {l : Listing Bytes} (hl : l.Proper) {place : Path}
    (hlocate : d.locate place = .ok place.location) (hdir : d.IsDir place.location)
    (hnames : ∀ n e, l.find? n = some e → d.at? (place.location ++ [n]) = some e)
    (h : path ∈ l.visibleFiles place) : ∃ content, d.read path = .ok content := by
  induction l generalizing place with
  | empty => cases h
  | file n payload rest ih =>
    obtain ⟨hn, hnot, hrest⟩ := hl
    have hat : d.at? (place.location ++ [n]) = some (.file payload) :=
      hnames n _ (by rw [Listing.find?, if_pos rfl])
    rw [Listing.visibleFiles] at h
    rcases List.mem_append.mp h with hfirst | hlater
    · split at hfirst
      · cases hfirst
      · obtain rfl := List.mem_singleton.mp hfirst
        have hjoined := locate_join hlocate hdir hn (by rw [hat]; simp)
        rw [← Path.location_join hn] at hjoined hat
        exact ⟨payload, read_eq_ok_iff.mpr ⟨hjoined, content?_eq_some_iff.mpr hat⟩⟩
    · refine ih hrest hlocate hdir (fun m found hm => hnames m found ?_) hlater
      exact Listing.find?_cons_of_find? (e := .file payload) hnot hm
  | dir n inside rest ih_inside ih =>
    obtain ⟨hn, hnot, hinside, hrest⟩ := hl
    have hat : d.at? (place.location ++ [n]) = some (.dir inside) :=
      hnames n _ (by rw [Listing.find?, if_pos rfl])
    rw [Listing.visibleFiles] at h
    rcases List.mem_append.mp h with hfirst | hlater
    · split at hfirst
      · cases hfirst
      · have hjoined := locate_join hlocate hdir hn (by rw [hat]; simp)
        rw [← Path.location_join hn] at hjoined hat
        refine ih_inside hinside hjoined ⟨inside, hat⟩ (fun m e hm => ?_) hfirst
        rw [at?_append, hat, Option.bind_some, Entry.entryAt_dir, Listing.entryAt_cons, hm]
        rfl
    · refine ih hrest hlocate hdir (fun m found hm => hnames m found ?_) hlater
      exact Listing.find?_cons_of_find? (e := .dir inside) hnot hm

end Disk

end Lineage
