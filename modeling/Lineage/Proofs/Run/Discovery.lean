import Lineage.Proofs.Run.Reading

/-!
# Discovery of files

A scan goes down from its root, leaves hidden names out at every level, and sorts what it has found.
So the files it finds are those that visible names lead to from the root, whatever the order in
which directories list their names; the name of the root itself may be hidden.

## Main definitions

- `Path.joinAll`: a path with names joined to it
- `Entry.Shows`: visible names lead from an entry to a file
- `Path.NameEndsIn`: a name has an extension

## Main statements

- `Entry.mem_files_iff`: what the descent finds
- `Path.hasExtension_joinAll_iff`: the extension of what it finds
- `Disk.discoverFiles_exact`: what a scan finds, in which order, and when it fails
-/

namespace Lineage

/-! ## Names below a path -/

namespace Path

variable {place : Path} {name : String} {names : List String}

/-- A path with names joined to it, one below the other. -/
def joinAll (place : Path) (names : List String) : Path := names.foldl (fun p n => p.join ⟨n⟩) place

theorem joinAll_concat (place : Path) (names : List String) (name : String) :
    place.joinAll (names ++ [name]) = (place.joinAll names).join ⟨name⟩ := by
  simp only [joinAll, List.foldl_append, List.foldl_cons, List.foldl_nil]

/-- A name that was joined is the file name. -/
theorem fileName?_join (h : Listing.isEntryName name = true) (place : Path) :
    (place.join ⟨name⟩).fileName? = some name := by
  obtain ⟨front, -, -, -, hjoined⟩ := pieces_join h place
  simp only [Listing.isEntryName, Bool.and_eq_true, decide_eq_true_eq] at h
  obtain ⟨⟨⟨hempty, hdot⟩, hdots⟩, -⟩ := h
  have hcomponent : component? name = some (.name name) := by
    simp [component?, hempty, hdot, hdots]
  have hbody : ((place.join ⟨name⟩).pieces.filterMap component?)
      = front.filterMap component? ++ [.name name] := by
    simp [hjoined, hcomponent]
  -- what stands in front of the components does not change the last one
  have hlast : (place.join ⟨name⟩).components.getLast? = some (.name name) := by
    rw [components, hbody]
    split
    · rw [← List.cons_append, List.getLast?_concat]
    · split
      · rw [← List.cons_append, List.getLast?_concat]
      · rw [List.getLast?_concat]
  rw [fileName?, hlast]

/-- The file name is the last of the names that were joined, if there were any. -/
theorem fileName?_joinAll (h : ∀ n, names.getLast? = some n → Listing.isEntryName n = true)
    (place : Path) : (place.joinAll names).fileName? = names.getLast?.or place.fileName? := by
  rcases List.eq_nil_or_concat' names with rfl | ⟨front, name, rfl⟩
  · rfl
  · have hname : Listing.isEntryName name = true := h name List.getLast?_concat
    rw [joinAll_concat, fileName?_join hname, List.getLast?_concat, Option.some_or]

/-! ## Extensions -/

/-- A name ends in a dot and an extension behind at least one character, small and capital letters
    taken as equal; there is no dot in the extension. -/
def NameEndsIn (extension name : String) : Prop :=
  ∃ stem found, name.toList = stem ++ '.' :: found ∧ stem ≠ [] ∧ '.' ∉ found ∧
    found.map Char.toLower = extension.toList.map Char.toLower

/-- What stands behind the last dot is the extension, unless nothing stands in front of the dot. -/
theorem extensionOf?_of_eq_append {stem found : List Char}
    (hname : name.toList = stem ++ '.' :: found) (hdot : '.' ∉ found) :
    extensionOf? name = if stem = [] then none else some (String.ofList found) := by
  have hreverse : name.toList.reverse = found.reverse ++ '.' :: stem.reverse := by simp [hname]
  have hafter : name.toList.reverse.takeWhile (· ≠ '.') = found.reverse := by
    have hfound : ∀ c ∈ found.reverse, decide (c ≠ '.') = true := by
      intro c hc
      have hne : c ≠ '.' := fun heq => hdot (heq ▸ List.mem_reverse.mp hc)
      exact decide_eq_true hne
    rw [hreverse, List.takeWhile_append_of_pos hfound]
    simp
  rw [extensionOf?, hafter, hreverse, List.drop_left, List.reverse_reverse]
  cases hstem : stem.reverse with
  | nil => simp [List.reverse_eq_nil_iff.mp hstem]
  | cons last before =>
    have hne : stem ≠ [] := by
      rintro rfl
      cases hstem
    rw [if_neg hne]

theorem extensionOf?_eq_none (h : '.' ∉ name.toList) : extensionOf? name = none := by
  have hall : name.toList.reverse.takeWhile (· ≠ '.') = name.toList.reverse := by
    refine List.takeWhile_eq_self_iff.mpr fun c hc => ?_
    have hne : c ≠ '.' := fun heq => h (heq ▸ List.mem_reverse.mp hc)
    exact decide_eq_true hne
  rw [extensionOf?, hall, List.drop_length]

/-- Whether a path has an extension is told by its file name. -/
theorem hasExtension_iff {extension : String} {p : Path} :
    Entry.hasExtension extension p = true ↔
      ∃ name, p.fileName? = some name ∧ NameEndsIn extension name := by
  simp only [Entry.hasExtension, extension?]
  cases p.fileName? with
  | none => simp
  | some name =>
    simp only [Option.bind_some, Option.some.injEq, exists_eq_left']
    by_cases hmem : '.' ∈ name.toList
    · -- the last dot is the first one from behind
      obtain ⟨front, back, hsplit, hfront⟩ := List.eq_append_cons_of_mem (List.mem_reverse.mpr hmem)
      have hname : name.toList = back.reverse ++ '.' :: front.reverse := by
        have hreverse := congrArg List.reverse hsplit
        simpa using hreverse
      have hdot : '.' ∉ front.reverse := fun h => hfront (List.mem_reverse.mp h)
      have hext := extensionOf?_of_eq_append hname hdot
      constructor
      · intro h
        by_cases hstem : back.reverse = []
        · rw [hext, if_pos hstem] at h
          cases h
        · rw [hext, if_neg hstem] at h
          exact ⟨_, _, hname, hstem, hdot, by simpa using h⟩
      · intro ⟨stem, found, hsplit', hstem, hdot', hsame⟩
        rw [extensionOf?_of_eq_append hsplit' hdot', if_neg hstem]
        simpa using hsame
    · rw [extensionOf?_eq_none hmem]
      constructor
      · intro h
        cases h
      · intro ⟨stem, found, hsplit, _⟩
        exact absurd (by simp [hsplit]) hmem

end Path

/-! ## The descent -/

namespace Entry

variable {α : Type} {e : Entry α} {rest : Listing α} {place p : Path} {n : String}

/-- Visible names lead from an entry that stands at a path to a file, which stands at another one. -/
def Shows (place : Path) (e : Entry α) (p : Path) : Prop :=
  ∃ names payload, e.entryAt names = some (.file payload) ∧
    (∀ n ∈ names, Listing.isHidden n = false) ∧ p = place.joinAll names

/-- A directory shows what its first entry shows, unless that is hidden, and what the others do. -/
theorem shows_cons_iff (place p : Path) (hn : n ∉ rest.names) :
    (Entry.dir (Listing.cons n e rest)).Shows place p ↔
      (Listing.isHidden n = false ∧ e.Shows (place.join ⟨n⟩) p)
        ∨ (Entry.dir rest).Shows place p := by
  constructor
  · intro ⟨names, payload, hfound, hvisible, hp⟩
    cases names with
    | nil => cases hfound
    | cons m names =>
      rw [entryAt_dir, Listing.entryAt_cons, Listing.find?_cons] at hfound
      split at hfound
      · rename_i hnm
        subst hnm
        refine .inl ⟨hvisible n (List.mem_cons_self ..), names, payload, hfound, ?_, hp⟩
        exact fun k hk => hvisible k (List.mem_cons_of_mem _ hk)
      · refine .inr ⟨m :: names, payload, ?_, hvisible, hp⟩
        rw [entryAt_dir, Listing.entryAt_cons, hfound]
  · intro h
    rcases h with ⟨hvisible, h⟩ | h
    · obtain ⟨names, payload, hfound, hnames, hp⟩ := h
      refine ⟨n :: names, payload, ?_, ?_, hp⟩
      · rw [entryAt_dir, Listing.entryAt_cons, Listing.find?_cons, if_pos rfl, Option.bind_some,
          hfound]
      · intro k hk
        rcases List.mem_cons.mp hk with rfl | hk
        · exact hvisible
        · exact hnames k hk
    · obtain ⟨names, payload, hfound, hnames, hp⟩ := h
      cases names with
      | nil => cases hfound
      | cons m names =>
        rw [entryAt_dir, Listing.entryAt_cons] at hfound
        obtain ⟨found, hfind, hfound⟩ := Option.bind_eq_some_iff.mp hfound
        -- the other names are not the first one, so they keep their meaning
        refine ⟨m :: names, payload, ?_, hnames, hp⟩
        rw [entryAt_dir, Listing.entryAt_cons, Listing.find?_cons_of_find? hn hfind,
          Option.bind_some, hfound]

theorem mem_visibleFiles_iff {l : Listing α} (hl : l.Proper) :
    p ∈ l.visibleFiles place ↔ (Entry.dir l).Shows place p := by
  induction l generalizing place with
  | empty =>
    refine ⟨nofun, fun ⟨names, payload, hfound, _⟩ => ?_⟩
    cases names with
    | nil => cases hfound
    | cons m names => cases hfound
  | file n payload rest ih =>
    obtain ⟨-, hnot, hrest⟩ := hl
    have hfile : p = place.join ⟨n⟩ ↔ (Entry.file payload).Shows (place.join ⟨n⟩) p := by
      constructor
      · intro hp
        exact ⟨[], payload, rfl, nofun, hp⟩
      · intro ⟨names, _, hfound, _, hp⟩
        cases names with
        | nil => exact hp
        | cons m names => cases hfound
    have hstep := shows_cons_iff (e := .file payload) place p hnot
    rw [Listing.cons] at hstep
    rw [hstep, ← ih hrest, ← hfile, Listing.visibleFiles, List.mem_append]
    cases hhidden : Listing.isHidden n with
    | true => simp
    | false => simp
  | dir n inside rest ih_inside ih =>
    obtain ⟨-, hnot, hinside, hrest⟩ := hl
    have hstep := shows_cons_iff (e := .dir inside) place p hnot
    rw [Listing.cons] at hstep
    rw [hstep, ← ih hrest, ← ih_inside hinside, Listing.visibleFiles, List.mem_append]
    cases hhidden : Listing.isHidden n with
    | true => simp
    | false => simp

/-- The descent finds what an entry shows. -/
theorem mem_files_iff (he : e.Proper) : p ∈ e.files place ↔ e.Shows place p := by
  cases e with
  | dir inside => exact mem_visibleFiles_iff he
  | file payload =>
    constructor
    · intro hp
      exact ⟨[], payload, rfl, nofun, List.mem_singleton.mp hp⟩
    · intro ⟨names, _, hfound, _, hp⟩
      cases names with
      | nil => exact List.mem_singleton.mpr hp
      | cons m names => cases hfound

end Entry

/-! ## Scans -/

namespace Disk

/-- A scan fails where its root cannot be followed, in particular if nothing stands there. Otherwise
    it finds the files that visible names lead to from the root and whose last name ends in the
    extension, each once and in the order of their paths. Without any name that is the root itself,
    if it is a file. -/
theorem discoverFiles_exact (d : Disk) (root : Path) (extension : String) :
    (∀ cause, d.entry root = .error cause →
      discoverFiles (m := StateM Disk) root extension d = (.error (.discovery root cause), d)) ∧
    (d.at? root.location = none → ∃ cause, d.entry root = .error cause) ∧
    ∀ e, d.entry root = .ok e →
      ∃ paths, discoverFiles (m := StateM Disk) root extension d = (.ok paths, d) ∧
        paths.Pairwise (fun p q => p.compare q = .lt) ∧ (paths.map Path.location).Nodup ∧
        ∀ p, p ∈ paths ↔
          ∃ names content, d.at? (root.location ++ names) = some (.file content) ∧
            (∀ n ∈ names, Listing.isHidden n = false) ∧ p = root.joinAll names ∧
            ∃ name, names.getLast?.or root.fileName? = some name ∧ Path.NameEndsIn extension name := by
  refine ⟨fun cause hcause => ?_, fun hnone => ?_, fun e hentry => ?_⟩
  · have hends := Program.ends_discoverFiles root extension d
    rw [discoveryFailure?, entry_eq, hcause] at hends
    exact hends.eq_error
  · cases hentry : d.entry root with
    | error cause => exact ⟨cause, rfl⟩
    | ok e =>
      rw [(entry_eq_ok_iff.mp hentry).2] at hnone
      cases hnone
  · refine ⟨d.filesWith root extension, discoverFiles_eq_ok_iff.mpr ⟨⟨e, hentry⟩, rfl, rfl⟩,
      pairwise_lt_filesWith d root extension,
      List.pairwise_map.mpr (pairwise_location_filesWith d root extension), fun p => ?_⟩
    have hat : d.at? root.location = some e := (entry_eq_ok_iff.mp hentry).2
    have hproper : e.Proper := Listing.proper_of_entryAt d.proper hat
    have hbelow : ∀ names, d.at? (root.location ++ names) = e.entryAt names := by
      intro names
      rw [at?_append, hat, Option.bind_some]
    have hmem : p ∈ d.filesWith root extension ↔
        e.Shows root p ∧ Entry.hasExtension extension p = true := by
      rw [filesWith, List.mem_mergeSort, List.mem_filter, hat, filesOf, Option.map_some,
        Option.getD_some, Entry.mem_files_iff hproper]
    have hname : ∀ names content, d.at? (root.location ++ names) = some (.file content) →
        (root.joinAll names).fileName? = names.getLast?.or root.fileName? := by
      intro names content hfound
      refine Path.fileName?_joinAll (fun n hn => ?_) root
      obtain ⟨front, rfl⟩ := List.getLast?_eq_some_iff.mp hn
      rw [← List.append_assoc] at hfound
      exact isEntryName_of_at? (by rw [hfound]; simp)
    rw [hmem, Path.hasExtension_iff]
    constructor
    · intro h
      obtain ⟨⟨names, content, hfound, hvisible, hp⟩, name, hlast, hends⟩ := h
      rw [← hbelow] at hfound
      rw [hp, hname names content hfound] at hlast
      exact ⟨names, content, hfound, hvisible, hp, name, hlast, hends⟩
    · intro h
      obtain ⟨names, content, hfound, hvisible, hp, name, hlast, hends⟩ := h
      refine ⟨⟨names, content, ?_, hvisible, hp⟩, name, ?_, hends⟩
      · rw [← hbelow, hfound]
      · rw [hp, hname names content hfound, hlast]

/-- A hidden directory with files in it, some of them hidden or with other extensions. -/
def hiddenUi : Disk where
  top := .dir ".ui"
    (.file "b.LUA" [] (.dir "b" (.file "a.lua" [] .empty) (.dir ".git" (.file "x.lua" [] .empty)
      (.file "c.txt" [] (.file ".lua" [] .empty))))) .empty
  proper := by simp [Listing.Proper, Listing.names, Listing.isEntryName]

/-- The root may be hidden, and one that is missing is a failure. -/
theorem discoverFiles_exact_hiddenUi :
    (∃ e, hiddenUi.entry ⟨".ui"⟩ = .ok e) ∧
      (∃ paths, discoverFiles (m := StateM Disk) ⟨".ui"⟩ "lua" hiddenUi = (.ok paths, hiddenUi) ∧
        ⟨".ui/b/a.lua"⟩ ∈ paths) ∧
      hiddenUi.entry ⟨"ui"⟩ = .error .notFound ∧
      discoverFiles (m := StateM Disk) ⟨"ui"⟩ "lua" hiddenUi
        = (.error (.discovery ⟨"ui"⟩ .notFound), hiddenUi) := by
  have hentry : hiddenUi.entry ⟨".ui"⟩ = .ok (.dir (.file "b.LUA" [] (.dir "b"
      (.file "a.lua" [] .empty) (.dir ".git" (.file "x.lua" [] .empty)
        (.file "c.txt" [] (.file ".lua" [] .empty)))))) := by decide +kernel
  have hmissing : hiddenUi.entry ⟨"ui"⟩ = .error .notFound := by decide +kernel
  obtain ⟨-, -, hfound⟩ := discoverFiles_exact hiddenUi ⟨".ui"⟩ "lua"
  obtain ⟨paths, hpaths, -, -, hmem⟩ := hfound _ hentry
  refine ⟨⟨_, hentry⟩, ⟨paths, hpaths, (hmem _).mpr ?_⟩, hmissing, ?_⟩
  · refine ⟨["b", "a.lua"], [], by decide +kernel, by decide +kernel, by decide +kernel, "a.lua",
      by decide +kernel, ['a'], "lua".toList, ?_⟩
    decide +kernel
  · exact (discoverFiles_exact hiddenUi ⟨"ui"⟩ "lua").1 .notFound hmissing

end Disk

end Lineage
