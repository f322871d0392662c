import Lineage.Proofs.Annotation.Ranks

/-!
# Circles that a run releases

Only open constructions wait, and what is open at any moment of a run was open at first. So every
circle that a run releases is a circle of the waiting graph of the store it started with. Released
bundles wait no longer, and all members of a circle wait: no bundle is released twice. The pass
after a release finds the members of the circle ready and annotates whatever is open of them.

## Main definitions

- `Annotator.HasReleased` is the invariant of a run
- `Annotator.Releases` tells which pass releases a circle
- `circlesIn` are the circles that findings name

## Main statements

- `Annotator.hasReleased_passes`: the invariant holds after any number of passes
- `Annotator.exists_releases`: every circle of a run was released by one of its passes
- `Annotator.circles_released`: what is reported of circles, and what comes of them
-/

namespace Lineage

/-- The circles that are named in findings. -/
def circlesIn (findings : List Diagnostic) : List (List String) :=
  findings.filterMap fun
    | .cycleDetected _ chain => some chain
    | _ => none

namespace Annotator

variable {a : Annotator} {store : Store} {p : Progress} {entity b c : String}
  {chain : List String}

/-! ## Waiting, then and now -/

theorem not_waitsOn_self (b : String) : ¬ a.WaitsOn store b b := by
  rintro ⟨m, -, rfl, hparent⟩
  have hother := (List.mem_filter.mp (mem_awaited.mp hparent).2.1).2
  simp at hother

/-- What is open after some class lines were written was open before. -/
theorem Writable.exists_of_mem_openMatches (h : a.Writable store) {choice : Match → Bool}
    {m : Match} (hm : m ∈ a.openMatches (a.annotateWhere choice store)) :
    ∃ n ∈ a.openMatches store, n.bundle = m.bundle ∧ a.parentsFor n = a.parentsFor m := by
  obtain ⟨g, hg, hm⟩ := mem_openMatches.mp hm
  obtain ⟨f, hf, rfl⟩ := List.mem_map.mp hg
  rw [SourceFile.content_replace, h.openIn_annotate hf] at hm
  obtain ⟨n, hn, rfl⟩ := List.mem_map.mp hm
  exact ⟨n, mem_openMatches.mpr ⟨f, hf, List.mem_of_mem_filter hn⟩, rfl, rfl⟩

/-- Who waits at some moment of a run waited at its start. -/
theorem HasWritten.waitsOn (h : a.Writable store) (hp : a.HasWritten store p)
    (hwaits : (WaitingGraph.ofBlocked
      (a.pass (a.corpusBundles store) p.released p.store).blocked p.released).Waits b c) :
    a.WaitsOn store b c := by
  obtain ⟨choice, -, hstore, -⟩ := hp
  obtain ⟨m, hm, -, rfl, hc⟩ := waits_iff.mp hwaits
  rw [hstore] at hm
  obtain ⟨n, hn, hbundle, hparents⟩ := h.exists_of_mem_openMatches hm
  obtain ⟨hunannotated, hauthoritative⟩ := mem_openMatches_iff.mp hn
  obtain ⟨hparent, hwaiting⟩ := List.mem_filter.mp hc
  simp only [Bool.and_eq_true, Bool.not_eq_true', decide_eq_true_eq, decide_eq_false_iff_not]
    at hwaiting
  refine ⟨n, hunannotated, hbundle, mem_awaited.mpr ⟨hauthoritative, ?_, ?_, hwaiting.2⟩⟩
  · rw [hparents]
    exact hparent
  · exact hwaiting.1.1

/-! ## The invariant of a run -/

/-- A run that has released some circles: they are circles of the store it started with, their
    members were released, and no two of them share one. -/
structure HasReleased (a : Annotator) (store : Store) (p : Progress) : Prop where
  written : a.HasWritten store p
  circle : ∀ chain ∈ p.cycles, ∃ entity, IsCircle (a.WaitsOn store) entity chain
  released : ∀ chain ∈ p.cycles, ∀ b ∈ chain, b ∈ p.released
  disjoint : p.cycles.Pairwise List.Disjoint

theorem hasReleased_start : a.HasReleased store (.start store) where
  written := hasWritten_start
  circle := nofun
  released := nofun
  disjoint := .nil

/-- A release adds circles of bundles that were not released before. -/
theorem HasReleased.release (h : a.Writable store) (hp : a.HasReleased store p) :
    a.HasReleased store (a.release (a.corpusBundles store) p) where
  written := hp.written
  circle := by
    intro chain hchain
    rcases List.mem_append.mp hchain with hold | hnew
    · exact hp.circle chain hold
    · obtain ⟨entity, hcircle⟩ := WaitingGraph.isCircle_of_mem_cycles hnew
      exact ⟨entity, hcircle.imp fun _ _ => hp.written.waitsOn h⟩
  released := by
    intro chain hchain b hb
    apply NameSet.mem_foldl_insertAll.mpr
    rcases List.mem_append.mp hchain with hold | hnew
    · exact .inr (hp.released chain hold b hb)
    · exact .inl ⟨chain, hnew, hb⟩
  disjoint := by
    refine List.pairwise_append.mpr
      ⟨hp.disjoint, WaitingGraph.pairwise_disjoint_cycles _, fun old hold new hnew b hb hb' => ?_⟩
    -- the members of old circles are released, so they are not in the graph
    obtain ⟨_, _, _, hreleased⟩ :=
      WaitingGraph.mem_keys_ofBlocked.mp (WaitingGraph.mem_keys_of_mem_cycles hnew hb')
    exact hreleased (hp.released old hold b hb)

theorem hasReleased_passes (h : a.Writable store) (bound : Nat) :
    a.HasReleased store (a.passes (a.corpusBundles store) bound (.start store)).1 :=
  (passes_induction
    (fun _ hp _ => ⟨hp.written, hp.circle, hp.released, hp.disjoint⟩)
    (fun _ hp _ _ => hp.release h)
    (fun _ hp _ => ⟨hp.written.advance h, hp.circle, hp.released, hp.disjoint⟩)
    bound hasReleased_start).1

/-! ## Releases -/

/-- How far a run over a store has come after some passes. -/
def progress (a : Annotator) (store : Store) (count : Nat) : Progress :=
  (a.passes (a.corpusBundles store) count (.start store)).1

/-- After some passes a run is not over, the next pass inserts nothing, and it releases a circle. -/
structure Releases (a : Annotator) (store : Store) (count : Nat) (chain : List String) : Prop where
  unfinished : (a.passes (a.corpusBundles store) count (.start store)).2 = false
  idle : (a.pass (a.corpusBundles store) (a.progress store count).released
    (a.progress store count).store).inserted = 0
  mem : chain ∈ a.circles (a.corpusBundles store) (a.progress store count)

/-- Every circle that was released was released by one of the passes. -/
theorem exists_releases {bound : Nat} (h : chain ∈ (a.progress store bound).cycles) :
    ∃ count < bound, a.Releases store count chain := by
  induction bound with
  | zero => cases h
  | succ bound ih =>
    have hearlier : chain ∈ (a.progress store bound).cycles →
        ∃ count < bound + 1, a.Releases store count chain := by
      intro hchain
      obtain ⟨count, hcount, hreleases⟩ := ih hchain
      exact ⟨count, Nat.lt_succ_of_lt hcount, hreleases⟩
    rw [progress, passes_add] at h
    cases hfinished : (a.passes (a.corpusBundles store) bound (.start store)).2 with
    | true =>
      rw [if_pos hfinished] at h
      exact hearlier h
    | false =>
      -- the last pass ends the run, releases circles or inserts something
      rw [if_neg (by simp [hfinished]), ← progress] at h
      by_cases hinserted : (a.pass (a.corpusBundles store) (a.progress store bound).released
          (a.progress store bound).store).inserted = 0
      · by_cases hnone : a.circles (a.corpusBundles store) (a.progress store bound) = []
        · rw [passes_succ_of_finished hinserted hnone] at h
          exact hearlier h
        · rw [passes_succ_of_release hinserted hnone] at h
          rcases List.mem_append.mp h with hold | hnew
          · exact hearlier hold
          · exact ⟨bound, Nat.lt_succ_self bound, hfinished, hinserted, hnew⟩
      · rw [passes_succ_of_advance hinserted] at h
        exact hearlier h

/-- After a release the run goes on with the released bundles. -/
theorem Releases.passes_succ {count : Nat} (h : a.Releases store count chain) :
    a.passes (a.corpusBundles store) (count + 1) (.start store)
      = (a.release (a.corpusBundles store) (a.progress store count), false) := by
  rw [passes_add, if_neg (by simp [h.unfinished])]
  exact passes_succ_of_release h.idle (List.ne_nil_of_mem h.mem)

theorem Releases.mem_released {count : Nat} (h : a.Releases store count chain) (hb : b ∈ chain) :
    b ∈ (a.progress store (count + 1)).released := by
  rw [progress, h.passes_succ]
  exact NameSet.mem_foldl_insertAll.mpr (.inl ⟨chain, h.mem, hb⟩)

/-- A run that may make another pass after a release makes it. -/
theorem Releases.lt_passes {count bound : Nat} (h : a.Releases store count chain)
    (hbound : count + 1 < bound) : count + 1 < (a.progress store bound).passes := by
  obtain ⟨spare, rfl⟩ := Nat.exists_eq_add_of_lt hbound
  have hmade : (a.progress store (count + 1)).passes = 0 + (count + 1) :=
    passes_of_unfinished (by rw [h.passes_succ])
  obtain ⟨more, -, hpasses, -⟩ := exists_last_pass (a := a) (a.corpusBundles store)
    (Nat.succ_pos spare) (a.progress store (count + 1))
  rw [progress, Nat.add_assoc, passes_add, if_neg (by rw [h.passes_succ]; simp), ← progress,
    hpasses]
  omega

/-- The pass after a release starts with the released bundles. -/
theorem Releases.store_progress {count : Nat} (h : a.Releases store count chain) :
    (a.progress store (count + 2)).store
      = (a.pass (a.corpusBundles store) (a.progress store (count + 1)).released
          (a.progress store (count + 1)).store).store := by
  have hsplit := passes_add (a := a) (a.corpusBundles store) (count + 1) 1 (.start store)
  rw [if_neg (by rw [h.passes_succ]; simp)] at hsplit
  rw [progress, hsplit]
  exact (passes_one ..).1

/-! ## What comes of released bundles -/

/-- A pass annotates every construction of some bundles that is not annotated: where the construction
    stands afterwards, its class line stands right above it, with all of its parents, and is
    recognised. -/
def AnnotatesEach (a : Annotator) (corpus released : NameSet) (store : Store)
    (bundles : List String) : Prop :=
  ∀ f ∈ store.files, ∀ m ∈ a.constructionsIn f.content,
    a.annotated f.content m = false → m.bundle ∈ bundles →
    ∃ g ∈ (a.pass corpus released store).store.files, g.path = f.path ∧
      let site := a.moved f.content (a.chosen (a.knowledge corpus released store) f.content) m
      site ∈ a.constructionsIn g.content ∧ a.annotated g.content site = true ∧
        Utf8.ofString (ClassLine.render ⟨m.bundle, a.parentsFor m⟩ a.settings.annotationMarker)
          <:+ g.content.take site.start

/-- A construction stands right below its class line once that was written. -/
theorem line_suffix_take_moved {content : Bytes} {ms : List Match}
    (hms : ms.Sublist (a.constructionsIn content)) {m : Match} (hm : m ∈ ms) :
    a.line m <:+ (a.annotate content ms).take (a.moved content ms m).start := by
  have hlt := start_lt_length (hms.subset hm)
  rw [annotate_eq_weave hms, moved, Match.start_moveTo, take_place _ hlt,
    linesAt_start (pairwise_start_of_sublist hms) hm]
  exact List.suffix_append ..

/-- Whatever is open of a released bundle is ready. -/
theorem Writable.annotatesEach (h : a.Writable store) {corpus released : NameSet}
    {bundles : List String} (hreleased : ∀ b ∈ bundles, b ∈ released)
    (hauthoritative : ∀ b ∈ bundles, b ∉ a.authoritative) :
    a.AnnotatesEach corpus released store bundles := by
  intro f hf m hm hunannotated hbundle
  have hopen : m ∈ a.openIn f.content := by
    refine mem_openIn.mpr ⟨hm, ?_⟩
    simp [isOpen, hunannotated, hauthoritative _ hbundle]
  set ready := a.isReady (a.knowledge corpus released store)
  have hready : ready m = true := isReady_iff.mpr (.inr (hreleased _ hbundle))
  have hline := h.isLine f hf
  refine ⟨_, List.mem_map_of_mem hf, SourceFile.path_replace .., ?_⟩
  rw [SourceFile.content_replace]
  show a.moved f.content ((a.openIn f.content).filter ready) m
      ∈ a.constructionsIn (a.annotate f.content ((a.openIn f.content).filter ready)) ∧
    a.annotated (a.annotate f.content ((a.openIn f.content).filter ready))
      (a.moved f.content ((a.openIn f.content).filter ready) m) = true ∧
    a.line m <:+ (a.annotate f.content ((a.openIn f.content).filter ready)).take
      (a.moved f.content ((a.openIn f.content).filter ready) m).start
  refine ⟨?_, ?_, ?_⟩
  · rw [constructionsIn_annotate_filter h.settings hline]
    exact List.mem_map_of_mem hm
  · rw [annotated_annotate_filter h.settings hline _ hm, (mem_openIn.mp hopen).2, hready]
    exact Bool.or_true _
  · exact line_suffix_take_moved (List.filter_sublist.trans openIn_sublist)
      (List.mem_filter.mpr ⟨hopen, hready⟩)

/-! ## Reports -/

/-- A circle through different bundles of the corpus that nobody else declares, at least two of them.
    Each has a construction that is not annotated and composes the next one. -/
structure ComposesCircle (a : Annotator) (store : Store) (entity : String) (chain : List String) :
    Prop where
  exists_inner : ∃ inner, inner ≠ [] ∧ (entity :: inner).Nodup ∧ chain = entity :: inner ++ [entity]
  corpus : ∀ b ∈ chain, b ∈ a.corpusBundles store ∧ b ∉ a.authoritative
  composes : chain.IsChain fun b c => ∃ m ∈ a.unannotated store, m.bundle = b ∧ c ∈ a.parentsFor m

theorem composesCircle_of_isCircle (h : IsCircle (a.WaitsOn store) entity chain) :
    a.ComposesCircle store entity chain where
  exists_inner := h.exists_inner_ne_nil not_waitsOn_self
  corpus := by
    intro b hb
    obtain ⟨c, hwaits⟩ := h.exists_leads hb
    refine ⟨hwaits.mem_corpusBundles.1, ?_⟩
    obtain ⟨m, -, rfl, hc⟩ := hwaits
    exact (mem_awaited.mp hc).1
  composes := h.leads.imp fun b c ⟨m, hm, hbundle, hc⟩ => ⟨m, hm, hbundle, (mem_awaited.mp hc).2.1⟩

/-- A run reports the circles that it released. -/
theorem circlesIn_run :
    circlesIn (a.run store).2.diagnostics = (a.progress store a.settings.maxPasses).cycles := by
  show circlesIn (_ ++ _ ++ _ ++ _) = _
  -- unknown parents, the bound and blocked sites are findings of another kind
  have hmissing : circlesIn (a.missingParents store) = [] := by
    simp [circlesIn, missingParents, List.filterMap_map]
  have hexceeded : ∀ finished : Bool, circlesIn
      (if finished then [] else [.passBoundExceeded a.settings.maxPasses]) = [] := by
    intro finished
    cases finished <;> rfl
  have hblocked : ∀ sites : List BlockedSite, circlesIn (sites.map .blockedSite) = [] := by
    intro sites
    simp [circlesIn, List.filterMap_map]
  have hcycles : ∀ cycles : List (List String), circlesIn (cycles.map cycleFinding) = cycles := by
    intro cycles
    rw [circlesIn, List.filterMap_map]
    exact (List.filterMap_eq_map_iff_forall_eq_some.mpr fun _ _ => rfl).trans (List.map_id _)
  have happend : ∀ ds es : List Diagnostic, circlesIn (ds ++ es) = circlesIn ds ++ circlesIn es :=
    fun _ _ => List.filterMap_append
  simp only [happend, hmissing, hcycles, hexceeded, hblocked, List.nil_append, List.append_nil]
  rfl

/-- The circles that a run reports are circles of the store that it began with, and no bundle is on
    two of them, whichever passes released them. After the release of a circle the run makes another
    pass, if the bound allows it, and that pass annotates everything that is not annotated of the
    members of the circle, each construction with all of its parents. -/
theorem circles_released (h : a.LineSafe store) :
    (∀ entity chain, .cycleDetected entity chain ∈ (a.run store).2.diagnostics →
      a.ComposesCircle store entity chain ∧
      ∃ count < a.settings.maxPasses, a.Releases store count chain ∧
        (count + 2 ≤ a.settings.maxPasses →
          count + 2 ≤ (a.run store).2.passes ∧
          (a.progress store (count + 2)).store
            = (a.pass (a.corpusBundles store) (a.progress store (count + 1)).released
                (a.progress store (count + 1)).store).store ∧
          a.AnnotatesEach (a.corpusBundles store) (a.progress store (count + 1)).released
            (a.progress store (count + 1)).store chain)) ∧
    (circlesIn (a.run store).2.diagnostics).Pairwise List.Disjoint := by
  have hsafe := h.writable
  have hreleased : a.HasReleased store (a.progress store a.settings.maxPasses) :=
    hasReleased_passes hsafe _
  constructor
  · intro entity chain hreport
    rcases finding_of_run hreport with ⟨_, _, _, heq⟩ | ⟨_, hmem, heq⟩ | ⟨-, heq⟩ | ⟨_, -, heq⟩
    · cases heq
    · obtain ⟨start, hcircle⟩ := hreleased.circle _ hmem
      obtain ⟨hentity, rfl⟩ := Diagnostic.cycleDetected.inj heq
      rw [hcircle.head?_eq, Option.getD_some] at hentity
      subst hentity
      have hcomposes := composesCircle_of_isCircle hcircle
      obtain ⟨count, hcount, hreleases⟩ := exists_releases hmem
      refine ⟨hcomposes, count, hcount, hreleases, fun hbound => ?_⟩
      refine ⟨hreleases.lt_passes hbound, hreleases.store_progress, ?_⟩
      apply ((hasReleased_passes hsafe (count + 1)).written.writable hsafe).annotatesEach
      · exact fun b hb => hreleases.mem_released hb
      · exact fun b hb => (hcomposes.corpus b hb).2
    · cases heq
    · cases heq
  · rw [circlesIn_run]
    exact hreleased.disjoint

/-- Two circles, and `C` and `D` have shorter ways back through the first one: the second circle
    shows only when the first was released. -/
def tangled : Store :=
  .ofFiles [
    .ofContent ⟨"a.lua"⟩ <|
      Utf8.ofString "A = CreateFromMixins(B, C, D)\nB = CreateFromMixins(A)\n",
    .ofContent ⟨"c.lua"⟩ <|
      Utf8.ofString "C = CreateFromMixins(A, D)\nD = CreateFromMixins(A, C)\n"]

theorem circles_released_tangled :
    plain.LineSafe tangled ∧
      circlesIn (plain.run tangled).2.diagnostics = [["A", "B", "A"], ["C", "D", "C"]] ∧
      plain.ComposesCircle tangled "C" ["C", "D", "C"] ∧
      (∃ count < plain.settings.maxPasses, plain.Releases tangled count ["C", "D", "C"]) ∧
      (circlesIn (plain.run tangled).2.diagnostics).Pairwise List.Disjoint := by
  have hsafe : plain.LineSafe tangled :=
    ⟨SiteSettings.lineSafe_default, by decide +kernel⟩
  have hreported : .cycleDetected "C" ["C", "D", "C"] ∈ (plain.run tangled).2.diagnostics := by
    decide +kernel
  obtain ⟨hcircle, hdisjoint⟩ := circles_released hsafe
  obtain ⟨hcomposes, count, hcount, hreleases, -⟩ := hcircle _ _ hreported
  exact ⟨hsafe, by decide +kernel, hcomposes, ⟨count, hcount, hreleases⟩, hdisjoint⟩

end Annotator

end Lineage
