import Lineage.Proofs.Annotation.Convergence

/-!
# Where deferred sites stand

The last pass of a run takes the lines of the sites it defers from the files as they are when it
begins. Where it puts class lines above such a site, the site has gone down by the end of the run.
So the sites reported as blocked are the constructions that are left open, each named with its
bundle and its file, but with the right line only if nothing was put in above it.

## Main definitions

- `blockedPlaces` and `gapPlaces` are the places that findings name
- `Annotator.lastDeferrals` are the constructions that the last pass of a run defers

## Main statements

- `Annotator.pass_of_run`: a run ends with what its last pass did
- `Annotator.blocked_places_of_run`: the places of blocked sites and of open constructions
-/

namespace Lineage

/-- The places of the sites that are reported as blocked: bundle, file and line. -/
def blockedPlaces (findings : List Diagnostic) : List (String × Path × Nat) :=
  findings.filterMap fun
    | .blockedSite site => some (site.bundle, site.path, site.line)
    | _ => none

/-- The places of the sites that are reported as left without annotation. -/
def gapPlaces (findings : List Diagnostic) : List (String × Path × Nat) :=
  findings.filterMap fun
    | .unannotated bundle path line => some (bundle, path, line)
    | _ => none

theorem blockedPlaces_append (ds es : List Diagnostic) :
    blockedPlaces (ds ++ es) = blockedPlaces ds ++ blockedPlaces es :=
  List.filterMap_append

/-- A list whose numbers may have grown is a reordering of what it was only if none has. -/
theorem perm_map_add_iff {α β γ : Type} (l : List α) (key : α → β) (file : α → γ)
    (line drift : α → Nat) :
    (l.map fun x => (key x, file x, line x)).Perm
        (l.map fun x => (key x, file x, line x + drift x)) ↔
      ∀ x ∈ l, drift x = 0 := by
  constructor
  · -- reordering keeps the sum of all lines
    intro hperm
    have hsum : (l.map line).sum = (l.map fun x => line x + drift x).sum := by
      have hlines := (hperm.map fun place => place.2.2).sum_eq
      simp only [List.map_map, Function.comp_def] at hlines
      exact hlines
    rw [List.sum_map_add] at hsum
    have hzero : (l.map drift).sum = 0 := by omega
    rw [List.sum_eq_zero_iff] at hzero
    exact fun x hx => hzero _ (List.mem_map_of_mem hx)
  · intro hzero
    have hsame : (l.map fun x => (key x, file x, line x + drift x))
        = l.map fun x => (key x, file x, line x) := by
      apply List.map_congr_left
      intro x hx
      rw [hzero x hx, Nat.add_zero]
    rw [hsame]

namespace Annotator

variable {a : Annotator} {store : Store}

/-! ## The sites of one pass -/

/-- A construction that a pass defers. -/
structure Deferral where
  bundle : String
  path : Path
  /-- The line of the construction when the pass begins. -/
  line : Nat
  /-- How many class lines the pass puts in above the construction, in the same file. -/
  above : Nat

/-- The construction of a content as a pass defers it. -/
def deferral (a : Annotator) (k : Knowledge) (f : SourceFile) (m : Match) : Deferral where
  bundle := m.bundle
  path := f.path
  line := lineNumber f.content m.start
  above := ((a.chosen k f.content).filter fun n => n.start ≤ m.start).length

/-- The constructions that a pass over a store defers, in the order of files and offsets. -/
def deferrals (a : Annotator) (k : Knowledge) (store : Store) : List Deferral :=
  store.files.flatMap fun f =>
    ((a.openIn f.content).filter fun m => !a.isReady k m).map (a.deferral k f)

/-- The blocked sites of a pass have the lines that they had when the pass began. -/
theorem perm_blocked_pass (corpus released : NameSet) :
    ((a.pass corpus released store).blocked.map fun site => (site.bundle, site.path, site.line)).Perm
      ((a.deferrals (a.knowledge corpus released store) store).map
        fun d => (d.bundle, d.path, d.line)) := by
  show (List.map _ (store.files.flatMap _)).Perm _
  rw [deferrals, List.map_flatMap, List.map_flatMap]
  refine List.Perm.flatMap_left _ fun f _ => ?_
  -- a pass goes through a file backwards
  rw [deferred, List.map_map, List.map_map, List.map_reverse]
  exact List.reverse_perm _

/-- A construction goes down by one line for each class line that is put in above it. -/
theorem Writable.lineNumber_moved (h : a.Writable store) {f : SourceFile} (hf : f ∈ store.files)
    (choice : Match → Bool) {m : Match} (hm : m ∈ a.openIn f.content) :
    lineNumber (a.annotate f.content ((a.openIn f.content).filter choice))
        (a.moved f.content ((a.openIn f.content).filter choice) m).start
      = lineNumber f.content m.start
        + (((a.openIn f.content).filter choice).filter fun n => n.start ≤ m.start).length := by
  rw [annotate_eq_weave (List.filter_sublist.trans openIn_sublist)]
  apply lineNumber_place
  · exact start_lt_length (mem_openIn.mp hm).1
  · intro n hn
    exact h.isLine f hf n (List.mem_of_mem_filter hn)

/-- After a pass, the open constructions are those that it deferred, below the lines that it put in
    above them. -/
theorem Writable.gapPlaces_pass (h : a.Writable store) (corpus released : NameSet) :
    gapPlaces (a.gaps (a.pass corpus released store).store)
      = (a.deferrals (a.knowledge corpus released store) store).map
          fun d => (d.bundle, d.path, d.line + d.above) := by
  rw [store_pass, gaps, Annotator.annotateWhere, Store.files_edit, List.flatMap_map, gapPlaces,
    deferrals, List.filterMap_flatMap, List.map_flatMap]
  refine List.flatMap_congr fun f hf => ?_
  rw [SourceFile.content_replace, SourceFile.path_replace, h.openIn_annotate hf, List.map_map,
    List.filterMap_map, List.map_map]
  refine List.filterMap_eq_map_iff_forall_eq_some.mpr fun m hm => ?_
  have hline := h.lineNumber_moved hf (a.isReady (a.knowledge corpus released store))
    (List.mem_of_mem_filter hm)
  simp only [Function.comp_apply, hline]
  rfl

/-! ## The last pass of a run -/

/-- How far a run has come when its last pass begins. -/
def beforeLast (a : Annotator) (store : Store) : Progress :=
  (a.passes (a.corpusBundles store) ((a.run store).2.passes - 1) (.start store)).1

/-- The constructions that the last pass of a run defers. -/
def lastDeferrals (a : Annotator) (store : Store) : List Deferral :=
  a.deferrals (a.knowledge (a.corpusBundles store) (a.beforeLast store).released
    (a.beforeLast store).store) (a.beforeLast store).store

/-- Among the findings of a run, the sites deferred at its end have their places. -/
theorem blockedPlaces_run :
    blockedPlaces (a.run store).2.diagnostics
      = (a.passes (a.corpusBundles store) a.settings.maxPasses (.start store)).1.blocked.map
          fun site => (site.bundle, site.path, site.line) := by
  show blockedPlaces (_ ++ _ ++ _ ++ _) = _
  -- unknown parents, circles and the bound are findings of another kind
  have hmissing : blockedPlaces (a.missingParents store) = [] := by
    simp [blockedPlaces, missingParents, List.filterMap_map]
  have hcycles : ∀ cycles : List (List String), blockedPlaces (cycles.map cycleFinding) = [] := by
    intro cycles
    simp [blockedPlaces, List.filterMap_map, cycleFinding]
  have hexceeded : ∀ finished : Bool, blockedPlaces
      (if finished then [] else [.passBoundExceeded a.settings.maxPasses]) = [] := by
    intro finished
    cases finished <;> rfl
  have hblocked : ∀ sites : List BlockedSite, blockedPlaces (sites.map .blockedSite)
      = sites.map fun site => (site.bundle, site.path, site.line) := by
    intro sites
    rw [blockedPlaces, List.filterMap_map]
    exact List.filterMap_eq_map_iff_forall_eq_some.mpr fun _ _ => rfl
  simp only [blockedPlaces_append, hmissing, hcycles, hexceeded, hblocked, List.nil_append]

/-- A run ends with what its last pass did. -/
theorem pass_of_run (a : Annotator) (store : Store) (hbound : 0 < a.settings.maxPasses) :
    (a.run store).1 = (a.pass (a.corpusBundles store) (a.beforeLast store).released
        (a.beforeLast store).store).store ∧
      (a.passes (a.corpusBundles store) a.settings.maxPasses (.start store)).1.blocked
        = (a.pass (a.corpusBundles store) (a.beforeLast store).released
            (a.beforeLast store).store).blocked := by
  obtain ⟨count, -, hpasses, hlast⟩ := exists_last_pass (a := a)
    (a.corpusBundles store) hbound (.start store)
  have hcount : (a.run store).2.passes - 1 = count := by
    show (a.passes _ _ _).1.passes - 1 = count
    rw [hpasses]
    exact Nat.zero_add count
  obtain ⟨hstore, hblocked, -⟩ := passes_one (a := a) (a.corpusBundles store) (a.beforeLast store)
  rw [beforeLast, hcount, ← hlast] at hstore hblocked
  rw [beforeLast, hcount]
  exact ⟨hstore, hblocked⟩

theorem writable_beforeLast (h : a.Writable store) : a.Writable (a.beforeLast store).store :=
  (hasWritten_passes h hasWritten_start _).1.writable h

/-- The blocked sites of a run are the constructions that it leaves open, in the same files. But
    each is reported on the line that it had when the last pass began, and the class lines that the
    last pass put in above it are missing in that number. So the reports name the same places if and
    only if the last pass put no line above a site that it deferred. -/
theorem blocked_places_of_run (h : a.LineSafe store) (hbound : 0 < a.settings.maxPasses) :
    ((blockedPlaces (a.run store).2.diagnostics).map fun place => (place.1, place.2.1)).Perm
        ((gapPlaces (a.gaps (a.run store).1)).map fun place => (place.1, place.2.1)) ∧
      (blockedPlaces (a.run store).2.diagnostics).Perm
        ((a.lastDeferrals store).map fun d => (d.bundle, d.path, d.line)) ∧
      gapPlaces (a.gaps (a.run store).1)
        = (a.lastDeferrals store).map (fun d => (d.bundle, d.path, d.line + d.above)) ∧
      ((blockedPlaces (a.run store).2.diagnostics).Perm (gapPlaces (a.gaps (a.run store).1)) ↔
        ∀ d ∈ a.lastDeferrals store, d.above = 0) := by
  obtain ⟨hstore, hblocked⟩ := a.pass_of_run store hbound
  have hperm : (blockedPlaces (a.run store).2.diagnostics).Perm
      ((a.lastDeferrals store).map fun d => (d.bundle, d.path, d.line)) := by
    rw [blockedPlaces_run, hblocked]
    exact perm_blocked_pass ..
  have hgaps : gapPlaces (a.gaps (a.run store).1)
      = (a.lastDeferrals store).map fun d => (d.bundle, d.path, d.line + d.above) := by
    rw [hstore]
    exact (writable_beforeLast h.writable).gapPlaces_pass ..
  refine ⟨?_, hperm, hgaps, ?_⟩
  · -- both lists are the deferred constructions, and only the lines differ
    have hnames := hperm.map fun place => (place.1, place.2.1)
    rw [List.map_map] at hnames
    rw [hgaps, List.map_map]
    exact hnames
  · rw [hgaps, hperm.congr_left]
    exact perm_map_add_iff ..

/-- A table above the construction that composes it. -/
def tableAbove : Store :=
  .ofFiles [.ofContent ⟨"a.lua"⟩ <| Utf8.ofString "B = \x7b\x7d\nA = CreateFromMixins(B)\n"]

theorem lineSafe_tableAbove : plain.LineSafe tableAbove where
  settings := SiteSettings.lineSafe_default
  staysInLine := by decide +kernel

theorem blocked_places_of_run_tableAbove :
    (plain.withBound 1).LineSafe tableAbove ∧ 0 < (plain.withBound 1).settings.maxPasses ∧
      gapPlaces ((plain.withBound 1).gaps ((plain.withBound 1).run tableAbove).1)
        = [("A", ⟨"a.lua"⟩, 3)] := by
  have hbound : 0 < (plain.withBound 1).settings.maxPasses := Nat.zero_lt_one
  obtain ⟨-, -, hgaps, -⟩ := blocked_places_of_run (lineSafe_tableAbove.withBound 1) hbound
  refine ⟨lineSafe_tableAbove.withBound 1, hbound, ?_⟩
  rw [hgaps]
  decide +kernel

/-- One pass puts the class line of the table in and reports the composition on line 2, where it
    stood before; it is left open on line 3. -/
theorem blocked_above_its_line :
    (plain.withBound 1).LineSafe tableAbove ∧ 0 < (plain.withBound 1).settings.maxPasses ∧
      ¬ (blockedPlaces ((plain.withBound 1).run tableAbove).2.diagnostics).Perm
        (gapPlaces ((plain.withBound 1).gaps ((plain.withBound 1).run tableAbove).1)) := by
  have hblocked : blockedPlaces ((plain.withBound 1).run tableAbove).2.diagnostics
      = [("A", ⟨"a.lua"⟩, 2)] := by decide +kernel
  have hgaps : gapPlaces ((plain.withBound 1).gaps ((plain.withBound 1).run tableAbove).1)
      = [("A", ⟨"a.lua"⟩, 3)] := by decide +kernel
  refine ⟨lineSafe_tableAbove.withBound 1, Nat.zero_lt_one, ?_⟩
  rw [hblocked, hgaps]
  decide

end Annotator

end Lineage
