import Lineage.Proofs.Disk.Location

/-!
# Changes of a listing

Putting an entry at a list of names shows at those names and below, changes the directories above,
and leaves everything else as it was. The visible files stay the same as long as the new entry has
the files of the one it replaces.

## Main statements

- `Listing.entryAt_putAt_append`, `Listing.entryAt_putAt_above` and
  `Listing.entryAt_putAt_elsewhere`: what is found after putting something
- `Listing.visibleFiles_putAt`: when the visible files stay the same
- `Listing.exists_location_of_mem_visibleFiles`, `Listing.pairwise_location_visibleFiles`: where
  visible files are
-/

namespace Lineage

variable {α β : Type}

/-- What a list of names leads to from an entry on. -/
def Entry.entryAt (e : Entry α) : List String → Option (Entry α)
  | [] => some e
  | name :: names =>
    match e with
    | .file _ => none
    | .dir inside => inside.entryAt (name :: names)

/-- The visible files at or below an entry that stands at a path. -/
def Entry.files (place : Path) : Entry α → List Path
  | .file _ => [place]
  | .dir inside => inside.visibleFiles place

/-- The visible files at or below a place, if anything stands there. -/
def filesOf (place : Path) (e : Option (Entry α)) : List Path := (e.map (·.files place)).getD []

theorem Entry.discover_eq (root : Path) (extension : String) (e : Entry α) :
    e.discover root extension
      = ((e.files root).filter (hasExtension extension)).mergeSort
          fun p q => p.compare q != .gt := by
  cases e <;> rfl

theorem Entry.entryAt_dir (inside : Listing α) (names : List String) :
    (Entry.dir inside).entryAt names = inside.entryAt names := by
  cases names <;> rfl

namespace Listing

variable {l : Listing α} {n : String} {e : Entry α}

/-! ## Names of one directory -/

/-- A listing is empty or has a name in front, whatever that name stands for. -/
@[elab_as_elim]
theorem cons_induction {motive : Listing α → Prop} (empty : motive .empty)
    (cons : ∀ n e rest, motive rest → motive (cons n e rest)) (l : Listing α) : motive l := by
  induction l with
  | empty => exact empty
  | file n payload rest ih => exact cons n (.file payload) rest ih
  | dir n inside rest _ ih => exact cons n (.dir inside) rest ih

theorem find?_cons (m : String) (rest : Listing α) :
    (cons n e rest).find? m = if n = m then some e else rest.find? m := by
  cases e <;> rfl

theorem mem_names_of_find? (h : l.find? n = some e) : n ∈ l.names := by
  induction l using cons_induction with
  | empty => cases h
  | cons m found rest ih =>
    rw [find?_cons] at h
    rw [names_cons, List.mem_cons]
    split at h
    · rename_i hmn
      exact .inl hmn.symm
    · exact .inr (ih h)

/-- Behind a name the others stand for what they stand for in the whole listing. -/
theorem find?_cons_of_find? {rest : Listing α} {m : String} {found : Entry α}
    (hn : n ∉ rest.names) (h : rest.find? m = some found) :
    (cons n e rest).find? m = some found := by
  have hne : n ≠ m := by
    rintro rfl
    exact hn (mem_names_of_find? h)
  rw [find?_cons, if_neg hne, h]

theorem put_cons (m : String) (e' : Entry α) (rest : Listing α) :
    (cons n e rest).put m e' = if n = m then cons m e' rest else cons n e (rest.put m e') := by
  cases e <;> rfl

theorem find?_put (m : String) : (l.put n e).find? m = if n = m then some e else l.find? m := by
  induction l using cons_induction with
  | empty => rw [put, find?_cons]
  | cons k found rest ih =>
    rw [put_cons]
    by_cases hk : k = n
    · rw [if_pos hk, find?_cons, find?_cons, hk]
      split
      · rfl
      · rfl
    · rw [if_neg hk, find?_cons, find?_cons, ih]
      split
      · -- the name in front is another one than the name that was put
        rename_i hm
        rw [if_neg fun h => hk (hm.trans h.symm)]
      · rfl

/-- Putting what is there already changes nothing. -/
theorem put_of_find? (h : l.find? n = some e) : l.put n e = l := by
  induction l using cons_induction with
  | empty => cases h
  | cons k found rest ih =>
    rw [find?_cons] at h
    rw [put_cons]
    by_cases hk : k = n
    · rw [if_pos hk] at h ⊢
      obtain rfl : found = e := Option.some.inj h
      rw [hk]
    · rw [if_neg hk] at h ⊢
      rw [ih h]

/-! ## Names of nested directories -/

theorem entryAt_cons (names : List String) :
    l.entryAt (n :: names) = (l.find? n).bind (·.entryAt names) := by
  rw [entryAt]
  split
  · rename_i inside hfind
    rw [hfind, Option.bind_some, Entry.entryAt_dir]
  · rename_i payload hfind
    rw [hfind, Option.bind_some]
    cases names <;> rfl
  · rename_i hfind
    rw [hfind, Option.bind_none]

/-- Names are followed one after another. -/
theorem entryAt_append (names others : List String) :
    l.entryAt (names ++ others) = (l.entryAt names).bind (·.entryAt others) := by
  induction names generalizing l with
  | nil => exact (Entry.entryAt_dir l others).symm
  | cons m names ih =>
    rw [List.cons_append, entryAt_cons, entryAt_cons]
    cases l.find? m with
    | none => rfl
    | some found =>
      rw [Option.bind_some, Option.bind_some]
      cases found with
      | file payload => cases names <;> rfl
      | dir below => rw [Entry.entryAt_dir, Entry.entryAt_dir, ih]

/-- What is found in a proper listing is proper. -/
theorem proper_of_entryAt (hl : l.Proper) {names : List String} (h : l.entryAt names = some e) :
    e.Proper := by
  induction names generalizing l with
  | nil =>
    cases h
    exact hl
  | cons m names ih =>
    rw [entryAt_cons] at h
    obtain ⟨found, hfind, hfound⟩ := Option.bind_eq_some_iff.mp h
    have hproper := (proper_of_find? hl hfind).2
    cases found with
    | file payload =>
      cases names <;> cases hfound
      exact hproper
    | dir below =>
      rw [Entry.entryAt_dir] at hfound
      exact ih hproper hfound

theorem putAt_singleton : l.putAt e [n] = l.put n e := rfl

theorem putAt_cons_of_dir {inside : Listing α} (h : l.find? n = some (.dir inside))
    {names : List String} (hne : names ≠ []) :
    l.putAt e (n :: names) = l.put n (.dir (inside.putAt e names)) := by
  obtain ⟨m, rest, rfl⟩ := List.exists_cons_of_ne_nil hne
  rw [putAt]
  · rw [h]
  · simp

theorem putAt_cons_of_not_dir (h : ∀ inside, l.find? n ≠ some (.dir inside))
    {names : List String} (hne : names ≠ []) : l.putAt e (n :: names) = l := by
  obtain ⟨m, rest, rfl⟩ := List.exists_cons_of_ne_nil hne
  rw [putAt]
  · split
    · rename_i inside hfind
      exact absurd hfind (h inside)
    · rfl
  · simp

/-- The first step to a directory leads to a directory. -/
theorem exists_dir_of_entryAt_cons {names : List String} {inside : Listing α}
    (h : l.entryAt (n :: names) = some (.dir inside)) :
    ∃ below, l.find? n = some (.dir below) ∧ below.entryAt names = some (.dir inside) := by
  rw [entryAt_cons] at h
  obtain ⟨found, hfind, hfound⟩ := Option.bind_eq_some_iff.mp h
  cases found with
  | file payload => cases names <;> cases hfound
  | dir below =>
    rw [Entry.entryAt_dir] at hfound
    exact ⟨below, hfind, hfound⟩

/-- A directory above has the change in it. -/
theorem entryAt_putAt_above {above names : List String} {inside : Listing α}
    (habove : l.entryAt above = some (.dir inside)) (hne : names ≠ []) :
    (l.putAt e (above ++ names)).entryAt above = some (.dir (inside.putAt e names)) := by
  induction above generalizing l with
  | nil =>
    obtain rfl : l = inside := by
      have hdir : some (Entry.dir l) = some (.dir inside) := habove
      simpa using hdir
    rfl
  | cons m above ih =>
    obtain ⟨below, hfind, hbelow⟩ := exists_dir_of_entryAt_cons habove
    rw [List.cons_append, putAt_cons_of_dir hfind (by simp [hne]), entryAt_cons, find?_put,
      if_pos rfl, Option.bind_some, Entry.entryAt_dir, ih hbelow]

/-- An entry that was put is found, and so is what is in it. -/
theorem entryAt_putAt_append {above : List String} {inside : Listing α}
    (habove : l.entryAt above = some (.dir inside)) (rest : List String) :
    (l.putAt e (above ++ [n])).entryAt (above ++ n :: rest) = e.entryAt rest := by
  rw [entryAt_append, entryAt_putAt_above habove (List.cons_ne_nil n []), Option.bind_some,
    Entry.entryAt_dir, putAt_singleton, entryAt_cons, find?_put, if_pos rfl, Option.bind_some]

/-- What is neither above nor below is as it was. -/
theorem entryAt_putAt_elsewhere {names other : List String} (hbelow : ¬ names <+: other)
    (habove : ¬ other <+: names) : (l.putAt e names).entryAt other = l.entryAt other := by
  induction names generalizing l other with
  | nil => exact absurd (List.nil_prefix) hbelow
  | cons m names ih =>
    cases other with
    | nil => exact absurd (List.nil_prefix) habove
    | cons k other =>
      by_cases hk : m = k
      · -- both lead through the same directory and part below it
        subst hk
        rw [List.prefix_cons_inj] at hbelow habove
        have hne : names ≠ [] := by
          rintro rfl
          exact hbelow List.nil_prefix
        by_cases hdir : ∃ inside, l.find? m = some (.dir inside)
        · obtain ⟨inside, hfind⟩ := hdir
          rw [putAt_cons_of_dir hfind hne, entryAt_cons, entryAt_cons, find?_put, if_pos rfl, hfind,
            Option.bind_some, Option.bind_some, Entry.entryAt_dir, Entry.entryAt_dir,
            ih hbelow habove]
        · rw [putAt_cons_of_not_dir (fun inside hfind => hdir ⟨inside, hfind⟩) hne]
      · -- they part right here
        by_cases hne : names = []
        · subst hne
          rw [putAt_singleton, entryAt_cons, entryAt_cons, find?_put, if_neg hk]
        · by_cases hdir : ∃ inside, l.find? m = some (.dir inside)
          · obtain ⟨inside, hfind⟩ := hdir
            rw [putAt_cons_of_dir hfind hne, entryAt_cons, entryAt_cons, find?_put, if_neg hk]
          · rw [putAt_cons_of_not_dir (fun inside hfind => hdir ⟨inside, hfind⟩) hne]

/-- Putting what is there already changes nothing. -/
theorem putAt_of_entryAt {names : List String} (h : l.entryAt names = some e) :
    l.putAt e names = l := by
  induction names generalizing l with
  | nil => rfl
  | cons m names ih =>
    rw [entryAt_cons] at h
    obtain ⟨found, hfind, hfound⟩ := Option.bind_eq_some_iff.mp h
    by_cases hne : names = []
    · subst hne
      obtain rfl : found = e := Option.some.inj hfound
      exact put_of_find? hfind
    · obtain ⟨k, rest, rfl⟩ := List.exists_cons_of_ne_nil hne
      cases found with
      | file payload => cases hfound
      | dir below =>
        rw [putAt_cons_of_dir hfind hne, ih hfound]
        exact put_of_find? hfind

/-! ## Visible files -/

theorem visibleFiles_cons (place : Path) (rest : Listing α) :
    (cons n e rest).visibleFiles place
      = (if isHidden n then [] else e.files (place.join ⟨n⟩)) ++ rest.visibleFiles place := by
  cases e <;> rfl

/-- Putting an entry with the files of the one that it replaces keeps the visible files. -/
theorem visibleFiles_put (place : Path)
    (h : ∀ p, e.files p = filesOf p (l.find? n)) :
    (l.put n e).visibleFiles place = l.visibleFiles place := by
  induction l using cons_induction with
  | empty =>
    have hnone : ∀ p, e.files p = [] := h
    rw [put, visibleFiles_cons, hnone]
    simp [visibleFiles]
  | cons k found rest ih =>
    rw [put_cons]
    by_cases hk : k = n
    · have hsame : ∀ p, e.files p = found.files p := by
        intro p
        rw [h p, find?_cons, if_pos hk]
        rfl
      rw [if_pos hk, visibleFiles_cons, visibleFiles_cons, hsame, hk]
    · rw [if_neg hk, visibleFiles_cons, visibleFiles_cons, ih]
      intro p
      rw [h p, find?_cons, if_neg hk]

theorem visibleFiles_putAt {names : List String} (place : Path)
    (h : ∀ p, e.files p = filesOf p (l.entryAt names)) :
    (l.putAt e names).visibleFiles place = l.visibleFiles place := by
  induction names generalizing l place with
  | nil => rfl
  | cons m names ih =>
    by_cases hne : names = []
    · subst hne
      rw [putAt_singleton]
      refine visibleFiles_put place fun p => ?_
      rw [h p, entryAt_cons]
      cases l.find? m <;> rfl
    · by_cases hdir : ∃ inside, l.find? m = some (.dir inside)
      · obtain ⟨inside, hfind⟩ := hdir
        rw [putAt_cons_of_dir hfind hne]
        refine visibleFiles_put place fun p => ?_
        rw [hfind]
        refine ih p fun q => ?_
        rw [h q, entryAt_cons, hfind, Option.bind_some, Entry.entryAt_dir]
      · rw [putAt_cons_of_not_dir (fun inside hfind => hdir ⟨inside, hfind⟩) hne]

/-- Contents do not matter for what is visible. -/
theorem visibleFiles_map (f : α → β) (place : Path) :
    (l.map f).visibleFiles place = l.visibleFiles place := by
  induction l generalizing place with
  | empty => rfl
  | file n payload rest ih => rw [map, visibleFiles, visibleFiles, ih]
  | dir n inside rest ih_inside ih => rw [map, visibleFiles, visibleFiles, ih_inside, ih]

/-- Visible files are at or below a name of the listing. -/
theorem exists_name_of_mem_visibleFiles (hl : l.Proper) {place p : Path}
    (h : p ∈ l.visibleFiles place) : ∃ n ∈ l.names, place.location ++ [n] <+: p.location := by
  induction l generalizing place with
  | empty => cases h
  | file n payload rest ih =>
    obtain ⟨hn, -, hrest⟩ := hl
    rw [visibleFiles] at h
    rcases List.mem_append.mp h with h | h
    · split at h
      · cases h
      · rw [List.mem_singleton.mp h, Path.location_join hn]
        exact ⟨n, List.mem_cons_self .., List.prefix_refl _⟩
    · obtain ⟨m, hm, hp⟩ := ih hrest h
      exact ⟨m, List.mem_cons_of_mem _ hm, hp⟩
  | dir n inside rest ih_inside ih =>
    obtain ⟨hn, -, hinside, hrest⟩ := hl
    rw [visibleFiles] at h
    rcases List.mem_append.mp h with h | h
    · split at h
      · cases h
      · obtain ⟨m, -, hp⟩ := ih_inside hinside h
        rw [Path.location_join hn] at hp
        exact ⟨n, List.mem_cons_self .., (List.prefix_append _ _).trans hp⟩
    · obtain ⟨m, hm, hp⟩ := ih hrest h
      exact ⟨m, List.mem_cons_of_mem _ hm, hp⟩

/-- Visible files are below the place of the listing. -/
theorem exists_location_of_mem_visibleFiles (hl : l.Proper) {place p : Path}
    (h : p ∈ l.visibleFiles place) : place.location <+: p.location := by
  obtain ⟨n, -, hp⟩ := exists_name_of_mem_visibleFiles hl h
  exact (List.prefix_append _ _).trans hp

/-- What is at or below a name is not among the files of other names. -/
theorem location_ne_of_mem_visibleFiles (hl : l.Proper) (hn : n ∉ l.names) {place p q : Path}
    (hp : place.location ++ [n] <+: p.location) (hq : q ∈ l.visibleFiles place) :
    p.location ≠ q.location := by
  intro heq
  obtain ⟨m, hm, hprefix⟩ := exists_name_of_mem_visibleFiles hl hq
  rw [heq] at hp
  have hsame := List.prefix_of_prefix_length_le hp hprefix (by simp)
  obtain rfl : n = m := by simpa using hsame
  exact hn hm

/-- Every visible file is at another location. -/
theorem pairwise_location_visibleFiles (hl : l.Proper) (place : Path) :
    (l.visibleFiles place).Pairwise fun p q => p.location ≠ q.location := by
  induction l generalizing place with
  | empty => exact .nil
  | file n payload rest ih =>
    obtain ⟨hn, hnot, hrest⟩ := hl
    rw [visibleFiles, List.pairwise_append]
    refine ⟨?_, ih hrest place, fun p hp q hq => ?_⟩
    · split
      · exact .nil
      · exact List.pairwise_singleton _ _
    · split at hp
      · cases hp
      · apply location_ne_of_mem_visibleFiles hrest hnot _ hq
        obtain rfl := List.mem_singleton.mp hp
        exact ⟨[], by rw [Path.location_join hn, List.append_nil]⟩
  | dir n inside rest ih_inside ih =>
    obtain ⟨hn, hnot, hinside, hrest⟩ := hl
    rw [visibleFiles, List.pairwise_append]
    refine ⟨?_, ih hrest place, fun p hp q hq => ?_⟩
    · split
      · exact .nil
      · exact ih_inside hinside _
    · split at hp
      · cases hp
      · apply location_ne_of_mem_visibleFiles hrest hnot _ hq
        rw [← Path.location_join hn]
        exact exists_location_of_mem_visibleFiles hinside hp

end Listing

/-- A scan does not look at contents. -/
theorem Entry.discover_map (f : α → β) (root : Path) (extension : String)
    (e : Entry α) : (e.map f).discover root extension = e.discover root extension := by
  rw [Entry.discover_eq, Entry.discover_eq]
  cases e with
  | file payload => rfl
  | dir inside =>
    have hfiles : (inside.map f).visibleFiles root = inside.visibleFiles root :=
      Listing.visibleFiles_map f root
    show ((Listing.visibleFiles root (inside.map f)).filter _).mergeSort _ = _
    rw [hfiles]
    rfl

end Lineage
