import Lineage.Proofs.Annotation.Circles
import Lineage.Proofs.Annotation.Passes

/-!
# Annotating to the end

A deferred construction waits for a bundle that is itself constructed and open. So if nothing is
ready, everybody waits on somebody who waits, there is a circle, and its members are ready once it
is released: at least two of them. Every pass but those in between inserts something, so a run ends
after at most one pass for each open construction and a last one.

A run that ends leaves nothing open, so it has written every class line, in whatever order.

## Main definitions

- `Annotator.unannotated` are the constructions of a store without annotation
- `Annotator.runs` annotates a store several times

## Main statements

- `Annotator.finding_of_run`: what a run may report

- `Annotator.circles_ne_nil`: an idle pass with deferred sites finds a circle
- `Annotator.two_le_inserted_of_release`: the pass after a release inserts two lines
- `Annotator.run_of_lt_maxPasses`: runs come to an end
- `Annotator.runs_eq_annotateAll`: what they come to
-/

namespace Lineage

namespace Annotator

variable {a : Annotator} {store : Store}

/-! ## Constructions by what stands above them -/

theorem mem_corpusBundles {b : String} :
    b ∈ a.corpusBundles store ↔
      ∃ f ∈ store.files, ∃ m ∈ a.constructionsIn f.content, m.bundle = b := by
  simp [corpusBundles]

theorem mem_declaredBundles {b : String} :
    b ∈ a.declaredBundles store ↔
      ∃ f ∈ store.files, ∃ m ∈ a.constructionsIn f.content,
        a.annotated f.content m = true ∧ m.bundle = b := by
  simp [declaredBundles, and_assoc]

/-- The constructions of a store without annotation, also those of bundles that are declared
    elsewhere. -/
def unannotated (a : Annotator) (store : Store) : List Match :=
  store.files.flatMap fun f => (a.constructionsIn f.content).filter fun m =>
    !a.annotated f.content m

theorem mem_openMatches_iff {m : Match} :
    m ∈ a.openMatches store ↔ m ∈ a.unannotated store ∧ m.bundle ∉ a.authoritative := by
  simp only [mem_openMatches, mem_openIn, unannotated, List.mem_flatMap, List.mem_filter, isOpen,
    Bool.and_eq_true, Bool.not_eq_true', decide_eq_false_iff_not]
  constructor
  · rintro ⟨f, hf, hm, hannotated, hauthoritative⟩
    exact ⟨⟨f, hf, hm, hannotated⟩, hauthoritative⟩
  · rintro ⟨⟨f, hf, hm, hannotated⟩, hauthoritative⟩
    exact ⟨f, hf, hm, hannotated, hauthoritative⟩

/-- A bundle of the corpus that is annotated nowhere has a construction without annotation. -/
theorem exists_mem_unannotated {b : String} (hcorpus : b ∈ a.corpusBundles store)
    (hdeclared : b ∉ a.declaredBundles store) : ∃ m ∈ a.unannotated store, m.bundle = b := by
  obtain ⟨f, hf, m, hm, rfl⟩ := mem_corpusBundles.mp hcorpus
  refine ⟨m, List.mem_flatMap.mpr ⟨f, hf, List.mem_filter.mpr ⟨hm, ?_⟩⟩, rfl⟩
  rw [Bool.not_eq_true', ← Bool.not_eq_true]
  intro hannotated
  exact hdeclared (mem_declaredBundles.mpr ⟨f, hf, m, hm, hannotated, rfl⟩)

/-! ## Waiting -/

/-- What a construction waits for is an open construction of the store. -/
theorem exists_of_mem_waitingOn {released : NameSet} {m : Match} {parent : String}
    (h : parent ∈ a.waitingOn (a.knowledge (a.corpusBundles store) released store) m) :
    ∃ n ∈ a.openMatches store, n.bundle = parent := by
  obtain ⟨-, hwaiting⟩ := List.mem_filter.mp h
  simp only [Bool.and_eq_true, Bool.not_eq_true', decide_eq_true_eq, decide_eq_false_iff_not]
    at hwaiting
  obtain ⟨⟨hcorpus, hdeclared⟩, hauthoritative⟩ := hwaiting
  obtain ⟨n, hn, rfl⟩ := exists_mem_unannotated hcorpus hdeclared
  exact ⟨n, mem_openMatches_iff.mpr ⟨hn, hauthoritative⟩, rfl⟩

theorem ne_bundle_of_mem_waitingOn {k : Knowledge} {m : Match} {parent : String}
    (h : parent ∈ a.waitingOn k m) : parent ≠ m.bundle := by
  have hparent := (List.mem_filter.mp h).1
  simpa using (List.mem_filter.mp hparent).2

theorem isReady_iff {k : Knowledge} {m : Match} :
    a.isReady k m = true ↔
      (∀ p ∈ a.parentsFor m, p ∈ k.corpus → p ∉ a.authoritative → p ∈ k.declared) ∨
        m.bundle ∈ k.released := by
  simp only [isReady, waitingOn, Bool.or_eq_true, List.isEmpty_iff, List.filter_eq_nil_iff,
    Bool.and_eq_true, Bool.not_eq_true', decide_eq_true_eq, decide_eq_false_iff_not]
  refine or_congr_left (forall₂_congr fun p _ => ?_)
  tauto

theorem isReady_eq_false_iff {k : Knowledge} {m : Match} :
    a.isReady k m = false ↔ a.waitingOn k m ≠ [] ∧ m.bundle ∉ k.released := by
  simp [isReady]

section Stalled

variable {corpus : NameSet} {p : Progress}

/-- In the graph of a pass a bundle waits on another one if an open construction of it does. -/
theorem waits_iff {b c : String} :
    (WaitingGraph.ofBlocked (a.pass corpus p.released p.store).blocked p.released).Waits b c ↔
      ∃ m ∈ a.openMatches p.store, a.isReady (a.knowledge corpus p.released p.store) m = false ∧
        m.bundle = b ∧ c ∈ a.waitingOn (a.knowledge corpus p.released p.store) m := by
  rw [WaitingGraph.waits_ofBlocked]
  constructor
  · rintro ⟨site, hsite, rfl, -, hc⟩
    obtain ⟨f, hf, m, hm, hready, rfl⟩ := mem_blocked_pass.mp hsite
    exact ⟨m, mem_openMatches.mpr ⟨f, hf, hm⟩, hready, rfl, hc⟩
  · rintro ⟨m, hm, hready, rfl, hc⟩
    obtain ⟨f, hf, hm⟩ := mem_openMatches.mp hm
    exact ⟨_, mem_blocked_pass.mpr ⟨f, hf, m, hm, hready, rfl⟩, rfl,
      (isReady_eq_false_iff.mp hready).2, hc⟩

theorem mem_keys_iff {b : String} :
    b ∈ (WaitingGraph.ofBlocked (a.pass corpus p.released p.store).blocked p.released).keys ↔
      ∃ m ∈ a.openMatches p.store, a.isReady (a.knowledge corpus p.released p.store) m = false ∧
        m.bundle = b := by
  rw [WaitingGraph.mem_keys_ofBlocked]
  constructor
  · rintro ⟨site, hsite, rfl, -⟩
    obtain ⟨f, hf, m, hm, hready, rfl⟩ := mem_blocked_pass.mp hsite
    exact ⟨m, mem_openMatches.mpr ⟨f, hf, hm⟩, hready, rfl⟩
  · rintro ⟨m, hm, hready, rfl⟩
    obtain ⟨f, hf, hm⟩ := mem_openMatches.mp hm
    exact ⟨_, mem_blocked_pass.mpr ⟨f, hf, m, hm, hready, rfl⟩, rfl,
      (isReady_eq_false_iff.mp hready).2⟩

/-- After an idle pass nothing open is ready. -/
theorem isReady_eq_false_of_idle (hidle : (a.pass corpus p.released p.store).inserted = 0)
    {m : Match} (hm : m ∈ a.openMatches p.store) :
    a.isReady (a.knowledge corpus p.released p.store) m = false := by
  rw [inserted_pass, List.countP_eq_zero] at hidle
  simpa using hidle m hm

/-- An idle pass that leaves something open finds a circle. -/
theorem circles_ne_nil (hcorpus : corpus = a.corpusBundles p.store)
    (hidle : (a.pass corpus p.released p.store).inserted = 0)
    (hopen : a.openMatches p.store ≠ []) : a.circles corpus p ≠ [] := by
  apply WaitingGraph.cycles_ne_nil
  · obtain ⟨m, hm⟩ := List.exists_mem_of_ne_nil _ hopen
    have hkey := mem_keys_iff.mpr ⟨m, hm, isReady_eq_false_of_idle hidle hm, rfl⟩
    exact List.ne_nil_of_mem hkey
  · intro b hb
    obtain ⟨m, hm, hready, rfl⟩ := mem_keys_iff.mp hb
    obtain ⟨parent, hparent⟩ :=
      List.exists_mem_of_ne_nil _ (isReady_eq_false_iff.mp hready).1
    -- the parent is open too, so it waits as well
    obtain ⟨n, hn, rfl⟩ : ∃ n ∈ a.openMatches p.store, n.bundle = parent := by
      subst hcorpus
      exact exists_of_mem_waitingOn hparent
    exact ⟨n.bundle, mem_keys_iff.mpr ⟨n, hn, isReady_eq_false_of_idle hidle hn, rfl⟩,
      waits_iff.mpr ⟨m, hm, hready, rfl, hparent⟩⟩

/-- The members of a released circle are ready, and there are two of them. -/
theorem two_le_inserted_of_release (hcircles : a.circles corpus p ≠ []) :
    2 ≤ (a.pass corpus (a.release corpus p).released (a.release corpus p).store).inserted := by
  have hself : ∀ b, ¬ (WaitingGraph.ofBlocked (a.pass corpus p.released p.store).blocked
      p.released).Waits b b := by
    intro b hb
    obtain ⟨m, -, -, rfl, hparent⟩ := waits_iff.mp hb
    exact ne_bundle_of_mem_waitingOn hparent rfl
  obtain ⟨chain, hchain⟩ := List.exists_mem_of_ne_nil _ hcircles
  obtain ⟨b, hb, c, hc, hne, hkey_b, hkey_c⟩ :=
    WaitingGraph.exists_pair_of_mem_cycles hself hchain
  obtain ⟨m, hm, -, rfl⟩ := mem_keys_iff.mp hkey_b
  obtain ⟨n, hn, -, rfl⟩ := mem_keys_iff.mp hkey_c
  rw [inserted_pass, List.countP_eq_length_filter]
  -- their bundles are released, so they no longer wait
  have hready : ∀ k ∈ [m, n], k ∈ (a.openMatches (a.release corpus p).store).filter
      (a.isReady (a.knowledge corpus (a.release corpus p).released
        (a.release corpus p).store)) := by
    intro k hk
    have hreleased : k ∈ a.openMatches p.store ∧ k.bundle ∈ chain := by
      rcases List.mem_pair.mp hk with rfl | rfl
      · exact ⟨hm, hb⟩
      · exact ⟨hn, hc⟩
    refine List.mem_filter.mpr ⟨hreleased.1, ?_⟩
    have hmem : k.bundle ∈ (a.release corpus p).released :=
      NameSet.mem_foldl_insertAll.mpr (.inl ⟨chain, hchain, hreleased.2⟩)
    simp [isReady, knowledge, hmem]
  have hnodup : [m, n].Nodup := by
    simp only [List.nodup_cons, List.mem_singleton, List.not_mem_nil, not_false_eq_true,
      List.nodup_nil, and_true]
    rintro rfl
    exact hne rfl
  exact hnodup.length_le_of_subset hready

/-- A pass that inserts nothing and finds no circle has nothing left to do. -/
theorem openMatches_eq_nil (hcorpus : corpus = a.corpusBundles p.store)
    (hidle : (a.pass corpus p.released p.store).inserted = 0)
    (hnone : a.circles corpus p = []) : a.openMatches p.store = [] := by
  by_contra hopen
  exact circles_ne_nil hcorpus hidle hopen hnone

theorem blocked_eq_nil (hopen : a.openMatches p.store = []) :
    (a.pass corpus p.released p.store).blocked = [] := by
  rw [List.eq_nil_iff_forall_not_mem]
  intro site hsite
  obtain ⟨f, hf, m, hm, -⟩ := mem_blocked_pass.mp hsite
  have hmem : m ∈ a.openMatches p.store := mem_openMatches.mpr ⟨f, hf, hm⟩
  rw [hopen] at hmem
  cases hmem

/-- Where nothing is open, nobody waits. -/
theorem circles_eq_nil (hopen : a.openMatches p.store = []) : a.circles corpus p = [] := by
  rw [circles, blocked_eq_nil hopen]
  rfl

/-- What a pass inserts and what it leaves open make up what was open. -/
theorem inserted_add_length_openMatches_advance (corpus : NameSet) (h : a.Writable p.store) :
    (a.pass corpus p.released p.store).inserted
        + (a.openMatches (a.advance corpus p).store).length
      = (a.openMatches p.store).length := by
  have hstore : (a.advance corpus p).store
      = a.annotateWhere (a.isReady (a.knowledge corpus p.released p.store)) p.store := rfl
  have hsplit := List.length_eq_countP_add_countP
    (a.isReady (a.knowledge corpus p.released p.store)) (l := a.openMatches p.store)
  rw [inserted_pass, hstore, h.length_openMatches_annotateWhere]
  simpa using hsplit.symm

end Stalled

/-! ## The number of passes -/

/-- What a run is at its end: everything open is written, and nothing is deferred. -/
structure Done (a : Annotator) (p q : Progress) : Prop where
  openMatches : a.openMatches q.store = []
  blocked : q.blocked = []
  inserted : q.inserted = p.inserted + (a.openMatches p.store).length

/-- What a run comes to that is given enough passes. It needs one for each open construction and a
    last one, or one less if the next pass inserts two lines. -/
theorem passes_of_lt {corpus : NameSet} {p : Progress} {spare : Nat} (h : a.Writable p.store)
    (hcorpus : corpus = a.corpusBundles p.store)
    (hspare : spare = 1 ∨ spare = 0 ∧ 2 ≤ (a.pass corpus p.released p.store).inserted)
    {bound : Nat} (hbound : (a.openMatches p.store).length + spare ≤ bound) :
    (a.passes corpus bound p).2 = true ∧
      (a.passes corpus bound p).1.passes ≤ p.passes + (a.openMatches p.store).length + spare ∧
      a.Done p (a.passes corpus bound p).1 := by
  induction bound generalizing p spare with
  | zero =>
    -- no passes are enough for no run: one that inserts two lines has two open constructions
    exfalso
    have hle : (a.pass corpus p.released p.store).inserted ≤ (a.openMatches p.store).length := by
      rw [inserted_pass]
      exact List.countP_le_length
    omega
  | succ bound ih =>
    by_cases hinserted : (a.pass corpus p.released p.store).inserted = 0
    · obtain rfl : spare = 1 := by omega
      by_cases hnone : a.circles corpus p = []
      · have hopen := openMatches_eq_nil hcorpus hinserted hnone
        rw [passes_succ_of_finished hinserted hnone]
        refine ⟨rfl, ?_, hopen, blocked_eq_nil hopen, ?_⟩
        · show p.passes + 1 ≤ _
          omega
        · rw [hopen]
          rfl
      · -- the release takes a pass, but the next one makes up for it
        rw [passes_succ_of_release hinserted hnone]
        have hspare : 0 = 1 ∨ 0 = 0 ∧ 2 ≤ (a.pass corpus (a.release corpus p).released
            (a.release corpus p).store).inserted :=
          .inr ⟨rfl, two_le_inserted_of_release hnone⟩
        obtain ⟨hfinished, hpasses, hdone⟩ := ih (p := a.release corpus p) h hcorpus hspare
          (Nat.le_of_succ_le_succ hbound)
        refine ⟨hfinished, ?_, hdone.openMatches, hdone.blocked, hdone.inserted⟩
        have hstep : (a.release corpus p).passes = p.passes + 1 := rfl
        have hstore : (a.release corpus p).store = p.store := rfl
        rw [hstep, hstore] at hpasses
        omega
    · rw [passes_succ_of_advance hinserted]
      have hstore : (a.advance corpus p).store
          = a.annotateWhere (a.isReady (a.knowledge corpus p.released p.store)) p.store := rfl
      have hpasses_step : (a.advance corpus p).passes = p.passes + 1 := rfl
      have hinserted_step : (a.advance corpus p).inserted
          = p.inserted + (a.pass corpus p.released p.store).inserted := rfl
      have hcount := inserted_add_length_openMatches_advance corpus h
      have hwritable : a.Writable (a.advance corpus p).store := by
        rw [hstore]
        exact h.annotateWhere _
      have hcorpus' : corpus = a.corpusBundles (a.advance corpus p).store := by
        rw [hstore, h.corpusBundles_annotateWhere]
        exact hcorpus
      have hopen : (a.openMatches (a.advance corpus p).store).length + 1 ≤ bound := by omega
      obtain ⟨hfinished, hpasses, hdone⟩ := ih hwritable hcorpus' (.inl rfl) hopen
      refine ⟨hfinished, by omega, hdone.openMatches, hdone.blocked, ?_⟩
      have hend := hdone.inserted
      omega

/-! ## Runs -/

/-- The annotator with another bound on its passes. -/
def withBound (a : Annotator) (bound : Nat) : Annotator :=
  { a with settings := { a.settings with maxPasses := bound } }

/-- Annotates a store several times, each time with a bound of its own. -/
def runs (a : Annotator) (bounds : List Nat) (store : Store) : Store :=
  bounds.foldl (fun s bound => ((a.withBound bound).run s).1) store

theorem Writable.withBound (h : a.Writable store) (bound : Nat) :
    (a.withBound bound).Writable store where
  settings := ⟨h.settings.dash, h.settings.staysInLine, h.settings.isWord⟩
  isLine := h.isLine

theorem LineSafe.withBound (h : a.LineSafe store) (bound : Nat) :
    (a.withBound bound).LineSafe store where
  settings := ⟨h.settings.dash, h.settings.staysInLine, h.settings.isWord⟩
  staysInLine := h.staysInLine

theorem store_run :
    (a.run store).1
      = (a.passes (a.corpusBundles store) a.settings.maxPasses (.start store)).1.store := rfl

/-- A run takes no byte away. -/
theorem grown_run (a : Annotator) (store : Store) : store.Grown (a.run store).1 := by
  have hadvance : ∀ p : Progress, store.Grown p.store →
      (a.pass (a.corpusBundles store) p.released p.store).inserted ≠ 0 →
      store.Grown (a.advance (a.corpusBundles store) p).store :=
    fun p hp _ => hp.edit fun f _ => sublist_annotate a f.content _
  exact (passes_induction (P := fun p => store.Grown p.store) (fun _ hp _ => hp)
    (fun _ hp _ _ => hp) hadvance a.settings.maxPasses store.grown_refl).1

theorem converged_run :
    (a.run store).2.converged
      = (a.passes (a.corpusBundles store) a.settings.maxPasses (.start store)).2 := by
  show (!!(a.passes _ _ _).2) = _
  rw [Bool.not_not]

/-- What a run may report: unknown parents, released circles, its bound and blocked sites. -/
theorem finding_of_run {d : Diagnostic} (h : d ∈ (a.run store).2.diagnostics) :
    (∃ bundle parent path, d = .missingParent bundle parent path) ∨
      (∃ chain ∈ (a.passes (a.corpusBundles store) a.settings.maxPasses (.start store)).1.cycles,
        d = cycleFinding chain) ∨
      ((a.passes (a.corpusBundles store) a.settings.maxPasses (.start store)).2 = false ∧
        d = .passBoundExceeded a.settings.maxPasses) ∨
      ∃ site ∈ (a.passes (a.corpusBundles store) a.settings.maxPasses (.start store)).1.blocked,
        d = .blockedSite site := by
  have hparts : d ∈ a.missingParents store
      ++ (a.passes (a.corpusBundles store) a.settings.maxPasses (.start store)).1.cycles.map
        cycleFinding
      ++ (if (a.passes (a.corpusBundles store) a.settings.maxPasses (.start store)).2 then []
        else [.passBoundExceeded a.settings.maxPasses])
      ++ (a.passes (a.corpusBundles store) a.settings.maxPasses (.start store)).1.blocked.map
        .blockedSite := h
  simp only [List.mem_append, List.mem_map] at hparts
  rcases hparts with ((hmissing | ⟨chain, hchain, rfl⟩) | hbound) | ⟨site, hsite, rfl⟩
  · obtain ⟨u, -, rfl⟩ := List.mem_map.mp hmissing
    exact .inl ⟨_, _, _, rfl⟩
  · exact .inr (.inl ⟨chain, hchain, rfl⟩)
  · split at hbound
    · cases hbound
    · rename_i hfinished
      exact .inr (.inr (.inl ⟨by simpa using hfinished, List.mem_singleton.mp hbound⟩))
  · exact .inr (.inr (.inr ⟨site, hsite, rfl⟩))

/-- A run that finished with nothing deferred reports missing parents and circles only. -/
theorem eq_missingParent_or_cycleDetected
    (hfinished :
      (a.passes (a.corpusBundles store) a.settings.maxPasses (.start store)).2 = true)
    (hblocked :
      (a.passes (a.corpusBundles store) a.settings.maxPasses (.start store)).1.blocked = [])
    {d : Diagnostic} (hd : d ∈ (a.run store).2.diagnostics) :
    (∃ bundle parent path, d = .missingParent bundle parent path) ∨
      ∃ entity chain, d = .cycleDetected entity chain := by
  rcases finding_of_run hd with hmissing | ⟨chain, -, rfl⟩ | ⟨hunfinished, -⟩ | ⟨site, hsite, -⟩
  · exact .inl hmissing
  · exact .inr ⟨_, _, rfl⟩
  · rw [hfinished] at hunfinished
    cases hunfinished
  · rw [hblocked] at hsite
    cases hsite

/-- A run writes the class lines of some open constructions. -/
theorem exists_choice_run (h : a.Writable store) :
    ∃ choice, IgnoresPlace choice ∧ (a.run store).1 = a.annotateWhere choice store ∧
      (a.run store).2.annotationsInserted = (a.openMatches store).countP choice :=
  (hasWritten_passes h hasWritten_start a.settings.maxPasses).1

/-- A run that converges leaves nothing open. -/
theorem openMatches_run (h : a.Writable store) (hconverged : (a.run store).2.converged = true) :
    a.openMatches (a.run store).1 = [] := by
  rw [converged_run] at hconverged
  obtain ⟨p, hp, hend, hidle, hnone⟩ :=
    (hasWritten_passes h hasWritten_start a.settings.maxPasses).2 hconverged
  rw [store_run, hend]
  exact openMatches_eq_nil (hp.corpusBundles_eq h).symm hidle hnone

/-- If nothing is left open, all class lines were written. -/
theorem Writable.annotateWhere_eq_annotateAll (h : a.Writable store) {choice : Match → Bool}
    (hopen : a.openMatches (a.annotateWhere choice store) = []) :
    a.annotateWhere choice store = store.edit fun f => a.annotateAll f.content := by
  have hcount : (a.openMatches store).countP (fun m => !choice m) = 0 := by
    rw [← h.length_openMatches_annotateWhere, hopen]
    rfl
  apply annotateWhere_of_forall
  intro m hm
  have hzero := List.countP_eq_zero.mp hcount m hm
  cases hchosen : choice m with
  | true => rfl
  | false => simp [hchosen] at hzero

/-- A run that converges writes the class line of every open construction. -/
theorem run_eq_annotateAll (h : a.Writable store) (hconverged : (a.run store).2.converged = true) :
    (a.run store).1 = store.edit fun f => a.annotateAll f.content := by
  obtain ⟨choice, -, hrun, -⟩ := exists_choice_run h
  have hopen := openMatches_run h hconverged
  rw [hrun] at hopen ⊢
  exact h.annotateWhere_eq_annotateAll hopen

/-- With nothing open a run is over after one pass. -/
theorem run_of_openMatches_eq_nil (hopen : a.openMatches store = [])
    (hbound : 0 < a.settings.maxPasses) :
    (a.run store).1 = store ∧ (a.run store).2.passes = 1 ∧
      (a.run store).2.annotationsInserted = 0 := by
  have hidle : (a.pass (a.corpusBundles store) (Progress.start store).released
      (Progress.start store).store).inserted = 0 := by
    show (a.pass (a.corpusBundles store) ∅ store).inserted = 0
    rw [inserted_pass, hopen]
    rfl
  have hnone : a.circles (a.corpusBundles store) (.start store) = [] := circles_eq_nil hopen
  obtain ⟨bound, hmax⟩ := Nat.exists_eq_succ_of_ne_zero (Nat.ne_of_gt hbound)
  have hpasses : a.passes (a.corpusBundles store) a.settings.maxPasses (.start store)
      = (a.idle (a.corpusBundles store) (.start store), true) := by
    rw [hmax]
    exact passes_succ_of_finished hidle hnone
  refine ⟨?_, ?_, ?_⟩
  · rw [store_run, hpasses]
    rfl
  · show (a.passes _ _ _).1.passes = 1
    rw [hpasses]
    rfl
  · show (a.passes _ _ _).1.inserted = 0
    rw [hpasses]
    rfl

theorem exists_choice_runs (h : a.Writable store) (bounds : List Nat) :
    ∃ choice, IgnoresPlace choice ∧ a.runs bounds store = a.annotateWhere choice store := by
  induction bounds generalizing store with
  | nil => exact ⟨fun _ => false, fun _ _ => rfl, annotateWhere_false.symm⟩
  | cons bound bounds ih =>
    -- the first run made a choice, and the others choose among what it left open
    obtain ⟨first, hfirst, hrun, -⟩ := exists_choice_run (h.withBound bound)
    obtain ⟨later, hlater, hruns⟩ := ih (h.annotateWhere first)
    have hstep : ((a.withBound bound).run store).1 = a.annotateWhere first store := hrun
    refine ⟨fun m => first m || later m, fun m p => ?_, ?_⟩
    · show (first (m.moveTo p) || later (m.moveTo p)) = (first m || later m)
      rw [hfirst, hlater]
    · rw [runs, List.foldl_cons, hstep, ← h.annotateWhere_annotateWhere hlater]
      exact hruns

/-- Runs that come to an end write the class line of every open construction and nothing else,
    whatever their bounds were and whatever was released on the way. -/
theorem runs_eq_annotateAll (h : a.LineSafe store) (bounds : List Nat) (last : Nat)
    (hconverged : ((a.withBound last).run (a.runs bounds store)).2.converged = true) :
    ((a.withBound last).run (a.runs bounds store)).1
      = store.edit fun f => a.annotateAll f.content := by
  have hsafe := h.writable
  obtain ⟨before, hbefore, hruns⟩ := exists_choice_runs hsafe bounds
  have hwritable : (a.withBound last).Writable (a.runs bounds store) := by
    rw [hruns]
    exact (hsafe.annotateWhere before).withBound last
  obtain ⟨choice, hchoice, hrun, -⟩ := exists_choice_run hwritable
  have hopen := openMatches_run hwritable hconverged
  have hstep : ((a.withBound last).run (a.runs bounds store)).1
      = a.annotateWhere (fun m => before m || choice m) store := by
    rw [hrun, ← hsafe.annotateWhere_annotateWhere hchoice, ← hruns]
    rfl
  rw [hstep] at hopen ⊢
  exact hsafe.annotateWhere_eq_annotateAll hopen

/-- The default settings, no markup, and nothing declared elsewhere. -/
def plain : Annotator := ⟨{}, ∅, ∅⟩

/-- Two bundles that compose each other, and one that composes nothing. -/
def circle : Store :=
  .ofFiles [.ofContent ⟨"a.lua"⟩ <|
    Utf8.ofString "A = CreateFromMixins(B)\nB = CreateFromMixins(A)\nC = \x7b\x7d\n"]

theorem lineSafe_circle : plain.LineSafe circle where
  settings := SiteSettings.lineSafe_default
  staysInLine := by decide +kernel

theorem runs_eq_annotateAll_circle :
    plain.LineSafe circle ∧
      ((plain.withBound 16).run (plain.runs [1, 1] circle)).2.converged = true ∧
      ((plain.withBound 16).run (plain.runs [1, 1] circle)).1
        = circle.edit fun f => plain.annotateAll f.content := by
  have hconverged : ((plain.withBound 16).run (plain.runs [1, 1] circle)).2.converged = true := by
    decide +kernel
  exact ⟨lineSafe_circle, hconverged, runs_eq_annotateAll lineSafe_circle [1, 1] 16 hconverged⟩

/-- A run with a pass for each open construction and one more comes to an end: every open
    construction gets its class line, and nothing is left to report of them. On the way, an idle
    pass that defers sites finds a circle, and the pass after its release inserts something. -/
theorem run_of_lt_maxPasses (h : a.LineSafe store)
    (hbound : (a.gaps store).length + 1 ≤ a.settings.maxPasses) :
    (a.run store).2.converged = true ∧
      (a.run store).2.passes ≤ (a.gaps store).length + 1 ∧
      (∀ site, .blockedSite site ∉ (a.run store).2.diagnostics) ∧
      (∀ bound, .passBoundExceeded bound ∉ (a.run store).2.diagnostics) ∧
      (a.run store).2.annotationsInserted = (a.gaps store).length ∧
      a.gaps (a.run store).1 = [] ∧
      ∀ count, ∀ p, p = (a.passes (a.corpusBundles store) count (.start store)).1 →
        (a.pass (a.corpusBundles store) p.released p.store).inserted = 0 →
        (a.pass (a.corpusBundles store) p.released p.store).blocked ≠ [] →
        a.circles (a.corpusBundles store) p ≠ [] ∧
        0 < (a.pass (a.corpusBundles store) (a.release (a.corpusBundles store) p).released
          (a.release (a.corpusBundles store) p).store).inserted := by
  have hsafe := h.writable
  rw [length_gaps] at hbound ⊢
  have hcorpus : a.corpusBundles store = a.corpusBundles (Progress.start store).store := rfl
  obtain ⟨hfinished, hpasses, hdone⟩ :=
    passes_of_lt (p := .start store) hsafe hcorpus (.inl rfl) hbound
  have hkinds := fun d => eq_missingParent_or_cycleDetected (d := d) hfinished hdone.blocked
  refine ⟨by rw [converged_run, hfinished], ?_, ?_, ?_, ?_, ?_, ?_⟩
  · -- a run starts with no passes
    have hzero : (Progress.start store).passes = 0 := rfl
    rw [hzero, Nat.zero_add] at hpasses
    exact hpasses
  · intro site hsite
    rcases hkinds _ hsite with ⟨_, _, _, hd⟩ | ⟨_, _, hd⟩ <;> cases hd
  · intro bound hexceeded
    rcases hkinds _ hexceeded with ⟨_, _, _, hd⟩ | ⟨_, _, hd⟩ <;> cases hd
  · exact hdone.inserted.trans (Nat.zero_add _)
  · rw [← List.length_eq_zero_iff, length_gaps, store_run, hdone.openMatches]
    rfl
  · -- the bundles of the corpus are known from the start, whatever the passes have written
    rintro count p rfl hidle hblocked
    have hwritten : a.HasWritten store (a.passes (a.corpusBundles store) count (.start store)).1 :=
      (hasWritten_passes hsafe hasWritten_start count).1
    have hcircles := circles_ne_nil (hwritten.corpusBundles_eq hsafe).symm hidle fun hopen =>
      hblocked (blocked_eq_nil hopen)
    exact ⟨hcircles, Nat.lt_of_succ_lt (two_le_inserted_of_release hcircles)⟩

theorem run_of_lt_maxPasses_circle :
    plain.LineSafe circle ∧ (plain.gaps circle).length + 1 ≤ plain.settings.maxPasses ∧
      (plain.run circle).2.annotationsInserted = (plain.gaps circle).length := by
  have hbound : (plain.gaps circle).length + 1 ≤ plain.settings.maxPasses := by decide +kernel
  obtain ⟨-, -, -, -, hinserted, -⟩ := run_of_lt_maxPasses lineSafe_circle hbound
  exact ⟨lineSafe_circle, hbound, hinserted⟩

end Annotator

end Lineage
