import Lineage.Proofs.Annotation.Ranks

/-!
# Annotation in the order of dependency

If the bundles of a store have ranks, the passes go through them one rank at a time: the pass after
`k` others annotates the open constructions of rank `k + 1`, in whatever file they stand. Every rank
up to the last one occurs, so no pass is idle before that; the next one finds nothing open, and no
circle is ever released.

## Main definitions

- `Annotator.marking` lists the constructions of a store with whether they are annotated
- `Annotator.Ranked` is the invariant of the passes

## Main statements

- `Annotator.IsRanking.isReady_eq`: what is ready after `k` passes
- `Annotator.ranked_passes`: the invariant holds up to the last rank
- `Annotator.dependency_order`: what is annotated after any number of passes, and when a run ends
-/

namespace Lineage

namespace Annotator

variable {a : Annotator} {store : Store} {rank : String → Nat} {choice : Match → Bool}

/-! ## What is annotated after some class lines were written -/

/-- The constructions of a store: the bundles in their order, file by file, each with whether it
    counts as annotated. -/
def marking (a : Annotator) (marked : Bytes → Match → Bool) (store : Store) :
    List (Path × List (String × Bool)) :=
  store.files.map fun f =>
    (f.path, (a.constructionsIn f.content).map fun m => (m.bundle, marked f.content m))

theorem Writable.marking_annotateWhere (h : a.Writable store) (choice : Match → Bool) :
    a.marking a.annotated (a.annotateWhere choice store)
      = a.marking (fun content m => a.annotated content m || (a.isOpen content m && choice m))
          store := by
  rw [marking, Annotator.annotateWhere, Store.files_edit, List.map_map, marking]
  refine List.map_congr_left fun f hf => ?_
  rw [Function.comp_apply, SourceFile.path_replace, SourceFile.content_replace,
    constructionsIn_annotate_filter h.settings (h.isLine f hf), List.map_map]
  refine congrArg (f.path, ·) (List.map_congr_left fun m hm => ?_)
  rw [Function.comp_apply, bundle_moved,
    annotated_annotate_filter h.settings (h.isLine f hf) choice hm]

/-- A marking has the marked bundles in it. -/
theorem mem_marking {marked : Bytes → Match → Bool} {b : String} :
    (∃ entry ∈ a.marking marked store, (b, true) ∈ entry.2) ↔
      ∃ f ∈ store.files, ∃ m ∈ a.constructionsIn f.content,
        marked f.content m = true ∧ m.bundle = b := by
  simp [marking, and_comm]

/-- A bundle is declared afterwards if it was, or if an open construction of it was chosen. -/
theorem Writable.mem_declaredBundles_annotateWhere (h : a.Writable store) (choice : Match → Bool)
    {b : String} :
    b ∈ a.declaredBundles (a.annotateWhere choice store) ↔ b ∈ a.declaredBundles store ∨
      ∃ m ∈ a.openMatches store, choice m = true ∧ m.bundle = b := by
  rw [mem_declaredBundles, ← mem_marking, h.marking_annotateWhere, mem_marking,
    mem_declaredBundles]
  simp only [Bool.or_eq_true, Bool.and_eq_true, mem_openMatches, mem_openIn]
  constructor
  · rintro ⟨f, hf, m, hm, hannotated | ⟨hopen, hchoice⟩, hbundle⟩
    · exact .inl ⟨f, hf, m, hm, hannotated, hbundle⟩
    · exact .inr ⟨m, ⟨f, hf, hm, hopen⟩, hchoice, hbundle⟩
  · rintro (⟨f, hf, m, hm, hannotated, hbundle⟩ | ⟨m, ⟨f, hf, hm, hopen⟩, hchoice, hbundle⟩)
    · exact ⟨f, hf, m, hm, .inl hannotated, hbundle⟩
    · exact ⟨f, hf, m, hm, .inr ⟨hopen, hchoice⟩, hbundle⟩

/-! ## Rank by rank -/

/-- The store after everything up to a rank was annotated. -/
def upTo (a : Annotator) (rank : String → Nat) (k : Nat) (store : Store) : Store :=
  a.annotateWhere (fun m => decide (a.siteRank store rank m ≤ k)) store

/-- Nothing is open after the last rank. -/
theorem Writable.openMatches_upTo_lastRank (h : a.Writable store) (rank : String → Nat) :
    a.openMatches (a.upTo rank (a.lastRank store rank) store) = [] := by
  rw [← List.length_eq_zero_iff, upTo, h.length_openMatches_annotateWhere, List.countP_eq_zero]
  intro m hm
  simpa using lastRank_le_iff.mp (Nat.le_refl (a.lastRank store rank)) m hm

/-- After everything up to a rank, the declared bundles that somebody may wait on are those up to
    that rank. -/
theorem IsRanking.mem_declaredBundles_upTo (hrank : a.IsRanking store rank) (h : a.Writable store)
    {b : String} {k : Nat} (hcorpus : b ∈ a.corpusBundles store)
    (hauthoritative : b ∉ a.authoritative) :
    b ∈ a.declaredBundles (a.upTo rank k store) ↔ rank b ≤ k := by
  rw [upTo, h.mem_declaredBundles_annotateWhere, hrank.le_iff hcorpus hauthoritative]
  simp only [decide_eq_true_eq]

/-- After everything up to a rank, the constructions of the next rank are ready and those behind are
    not. -/
theorem IsRanking.isReady_eq (hrank : a.IsRanking store rank) (h : a.Writable store) {m : Match}
    (hm : m ∈ a.openMatches store) (k : Nat) :
    a.isReady (a.knowledge (a.corpusBundles store) ∅ (a.upTo rank k store)) m
      = decide (a.siteRank store rank m ≤ k + 1) := by
  have hauthoritative := (mem_openMatches_iff.mp hm).2
  rw [Bool.eq_iff_iff, decide_eq_true_iff, siteRank_le_succ_iff, isReady_iff]
  constructor
  · rintro (hready | hreleased) p hp
    · obtain ⟨-, hparent, hcorpus, hforeign⟩ := mem_awaited.mp hp
      rw [← hrank.mem_declaredBundles_upTo h hcorpus hforeign]
      exact hready p hparent hcorpus hforeign
    · -- nothing was released so far
      exact absurd hreleased (NameSet.notMem_empty _)
  · intro hranks
    refine .inl fun p hparent hcorpus hforeign => ?_
    apply (hrank.mem_declaredBundles_upTo h hcorpus hforeign).mpr
    exact hranks p (mem_awaited.mpr ⟨hauthoritative, hparent, hcorpus, hforeign⟩)

/-! ## The passes -/

/-- The progress of a run that has annotated the constructions up to a rank, with a pass for each
    rank. -/
structure Ranked (a : Annotator) (store : Store) (rank : String → Nat) (k : Nat) (p : Progress) :
    Prop where
  store : p.store = a.upTo rank k store
  released : p.released = ∅
  cycles : p.cycles = []
  passes : p.passes = k
  productivePasses : p.productivePasses = k

theorem ranked_start : a.Ranked store rank 0 (.start store) where
  store := by
    -- every rank is at least one
    have hnone : ∀ m ∈ a.openMatches store, decide (a.siteRank store rank m ≤ 0) = false :=
      fun m _ => rfl
    rw [upTo, annotateWhere_congr hnone, annotateWhere_false]
    rfl
  released := rfl
  cycles := rfl
  passes := rfl
  productivePasses := rfl

section Ranked

variable (hrank : a.IsRanking store rank) (h : a.Writable store) {k : Nat} {p : Progress}

include hrank h

/-- A pass annotates the next rank. -/
theorem Ranked.store_pass (hp : a.Ranked store rank k p) :
    (a.pass (a.corpusBundles store) p.released p.store).store = a.upTo rank (k + 1) store := by
  rw [Annotator.store_pass, hp.released, hp.store]
  rw [upTo, h.annotateWhere_annotateWhere (ignoresPlace_isReady _)]
  -- what was annotated before and what is ready now are the ranks up to the next one
  refine annotateWhere_congr fun m hm => ?_
  rw [← upTo, hrank.isReady_eq h hm, ← Bool.decide_or, decide_eq_decide]
  omega

/-- A pass inserts something as long as there is a greater rank. -/
theorem Ranked.inserted_pass (hp : a.Ranked store rank k p) :
    (a.pass (a.corpusBundles store) p.released p.store).inserted = 0 ↔
      a.lastRank store rank ≤ k := by
  -- what is ready and not annotated yet has just the next rank
  have hcount : (a.pass (a.corpusBundles store) p.released p.store).inserted
      = (a.openMatches store).countP fun m => decide (a.siteRank store rank m = k + 1) := by
    rw [Annotator.inserted_pass, hp.released, hp.store]
    rw [upTo, h.countP_openMatches_annotateWhere (ignoresPlace_isReady _)]
    refine List.countP_congr fun m hm => ?_
    rw [← upTo, hrank.isReady_eq h hm, Bool.and_eq_true, Bool.not_eq_true', decide_eq_true_iff,
      decide_eq_false_iff_not, decide_eq_true_iff]
    omega
  rw [hcount, List.countP_eq_zero, lastRank_le_iff]
  simp only [decide_eq_true_eq]
  constructor
  · intro hnone m hm
    by_contra hlt
    obtain ⟨n, hn, hnext⟩ := hrank.exists_siteRank_eq hm (Nat.lt_of_not_le hlt)
    exact hnone n hn hnext
  · intro hall m hm hnext
    have hle := hall m hm
    omega

/-- Up to the last rank, there are as many passes as ranks, and none of them is idle. -/
theorem ranked_passes (hk : k ≤ a.lastRank store rank) :
    (a.passes (a.corpusBundles store) k (.start store)).2 = false ∧
      a.Ranked store rank k (a.passes (a.corpusBundles store) k (.start store)).1 := by
  induction k with
  | zero => exact ⟨rfl, ranked_start⟩
  | succ k ih =>
    obtain ⟨hunfinished, hp⟩ := ih (Nat.le_of_succ_le hk)
    -- there is a greater rank, so the next pass is not idle
    have hinserted : (a.pass (a.corpusBundles store)
        (a.passes (a.corpusBundles store) k (.start store)).1.released
        (a.passes (a.corpusBundles store) k (.start store)).1.store).inserted ≠ 0 := by
      rw [Ne, hp.inserted_pass hrank h]
      omega
    rw [passes_add, if_neg (by simp [hunfinished]), passes_succ_of_advance hinserted]
    refine ⟨rfl, hp.store_pass hrank h, hp.released, hp.cycles, ?_, ?_⟩
    · exact congrArg (· + 1) hp.passes
    · exact congrArg (· + 1) hp.productivePasses

/-- The pass after the last rank is idle and ends the run. -/
theorem passes_of_lastRank_lt (hk : a.lastRank store rank < k) :
    a.passes (a.corpusBundles store) k (.start store)
      = (a.idle (a.corpusBundles store)
          (a.passes (a.corpusBundles store) (a.lastRank store rank) (.start store)).1, true) := by
  obtain ⟨hunfinished, hp⟩ := ranked_passes hrank h (Nat.le_refl _)
  obtain ⟨spare, rfl⟩ := Nat.exists_eq_add_of_lt hk
  rw [Nat.add_assoc, passes_add, if_neg (by simp [hunfinished])]
  -- everything is annotated by now, so nothing is ready and nobody waits
  apply passes_succ_of_finished
  · exact (hp.inserted_pass hrank h).mpr (Nat.le_refl _)
  · apply circles_eq_nil
    rw [hp.store]
    exact h.openMatches_upTo_lastRank rank

/-- After any number of passes, the constructions up to that rank are annotated. -/
theorem store_passes (k : Nat) :
    (a.passes (a.corpusBundles store) k (.start store)).1.store = a.upTo rank k store := by
  by_cases hk : k ≤ a.lastRank store rank
  · exact (ranked_passes hrank h hk).2.store
  · have hlast := Nat.lt_of_not_le hk
    rw [passes_of_lastRank_lt hrank h hlast]
    show (a.passes _ _ _).1.store = _
    rw [(ranked_passes hrank h (Nat.le_refl _)).2.store]
    -- no construction has a greater rank than the last one
    refine annotateWhere_congr fun m hm => decide_eq_decide.mpr ?_
    have hm_le := lastRank_le_iff.mp (Nat.le_refl (a.lastRank store rank)) m hm
    omega

/-- No circle is released. -/
theorem cycles_passes (k : Nat) :
    (a.passes (a.corpusBundles store) k (.start store)).1.cycles = [] := by
  by_cases hk : k ≤ a.lastRank store rank
  · exact (ranked_passes hrank h hk).2.cycles
  · rw [passes_of_lastRank_lt hrank h (Nat.lt_of_not_le hk)]
    exact (ranked_passes hrank h (Nat.le_refl _)).2.cycles

end Ranked

/-! ## Runs -/

theorem cycleDetected_notMem_run {entity : String} {chain : List String}
    (h : (a.passes (a.corpusBundles store) a.settings.maxPasses (.start store)).1.cycles = []) :
    .cycleDetected entity chain ∉ (a.run store).2.diagnostics := by
  intro hmem
  rcases finding_of_run hmem with ⟨_, _, _, heq⟩ | ⟨_, hreleased, -⟩ | ⟨-, heq⟩ | ⟨_, -, heq⟩
  · cases heq
  · rw [h] at hreleased
    cases hreleased
  · cases heq
  · cases heq

/-- Whether a construction is annotated after some passes by its rank: it was annotated before, or
    it is open and its rank has come. -/
def markedUpTo (a : Annotator) (store : Store) (rank : String → Nat) (k : Nat) (content : Bytes)
    (m : Match) : Bool :=
  a.annotated content m
    || (!decide (m.bundle ∈ a.authoritative) && decide (a.siteRank store rank m ≤ k))

/-- If the waiting graph of a store has no circle, its bundles have ranks, and passes annotate the
    constructions in the order of these: after `k` passes exactly those are annotated that were at
    the start or have at most the rank `k`, apart from bundles that are declared elsewhere. No
    circle is reported. A run that may make more passes than there are ranks makes one productive
    pass for each rank, and a last one. -/
theorem dependency_order (h : a.LineSafe store) (hacyclic : a.IsAcyclic store) :
    (∃ rank, a.IsRanking store rank) ∧
    ∀ rank, a.IsRanking store rank →
      (∀ k, a.marking a.annotated (a.passes (a.corpusBundles store) k (.start store)).1.store
        = a.marking (a.markedUpTo store rank k) store) ∧
      (∀ entity chain, .cycleDetected entity chain ∉ (a.run store).2.diagnostics) ∧
      (a.lastRank store rank < a.settings.maxPasses →
        (a.run store).2.productivePasses = a.lastRank store rank ∧
        (a.run store).2.passes = a.lastRank store rank + 1) := by
  have hsafe := h.writable
  refine ⟨exists_isRanking hacyclic, fun rank hrank => ⟨fun k => ?_, fun _ _ => ?_, fun hlast => ?_⟩⟩
  · rw [store_passes hrank hsafe, upTo, hsafe.marking_annotateWhere]
    -- an annotated construction is not open, so only the bundle is left to ask for
    have hmarked : ∀ content m,
        (a.annotated content m || (a.isOpen content m && decide (a.siteRank store rank m ≤ k)))
          = a.markedUpTo store rank k content m := by
      intro content m
      rw [markedUpTo, isOpen]
      cases a.annotated content m <;> simp
    simp only [hmarked]
  · exact cycleDetected_notMem_run (cycles_passes hrank hsafe _)
  · have hranked := (ranked_passes hrank hsafe (Nat.le_refl _)).2
    constructor
    · show (a.passes _ _ _).1.productivePasses = _
      rw [passes_of_lastRank_lt hrank hsafe hlast]
      exact hranked.productivePasses
    · show (a.passes _ _ _).1.passes = _
      rw [passes_of_lastRank_lt hrank hsafe hlast]
      exact congrArg (· + 1) hranked.passes

/-- Two files whose bundles wait on each other across them: the last one in order comes first. -/
def backwards : Store :=
  .ofFiles [
    .ofContent ⟨"a.lua"⟩ <| Utf8.ofString "A = CreateFromMixins(B)\n",
    .ofContent ⟨"b.lua"⟩ <| Utf8.ofString "B = CreateFromMixins(C)\nC = \x7b\x7d\n"]

/-- The place of a name in a list of names, counted from one. -/
def rankIn (names : List String) (b : String) : Nat := names.idxOf b + 1

theorem dependency_order_backwards :
    plain.LineSafe backwards ∧ plain.IsAcyclic backwards ∧
      plain.IsRanking backwards (rankIn ["C", "B", "A"]) ∧
      (plain.run backwards).2.productivePasses = 3 ∧ (plain.run backwards).2.passes = 4 := by
  have hsafe : plain.LineSafe backwards :=
    ⟨SiteSettings.lineSafe_default, by decide +kernel⟩
  have hacyclic : plain.IsAcyclic backwards :=
    isAcyclic_of_lt (rankIn ["C", "B", "A"]) (by decide +kernel)
  have hrank : plain.IsRanking backwards (rankIn ["C", "B", "A"]) := by
    refine ⟨?_, ?_, by decide +kernel⟩
    · show ∀ b ∈ (plain.declaredBundles backwards).toList, _
      decide +kernel
    · show ∀ b ∈ (plain.corpusBundles backwards).toList, _
      decide +kernel
  have hlast : plain.lastRank backwards (rankIn ["C", "B", "A"]) = 3 := by decide +kernel
  have hruns := ((dependency_order hsafe hacyclic).2 _ hrank).2.2
  rw [hlast] at hruns
  exact ⟨hsafe, hacyclic, hrank, hruns (by decide)⟩

/-- Two tables, one of which is declared elsewhere. -/
def tables : Store :=
  .ofFiles [.ofContent ⟨"a.lua"⟩ <| Utf8.ofString "A = \x7b\x7d\nB = \x7b\x7d\n"]

/-- An annotator that leaves the class `A` to others. -/
def leavingA : Annotator := { plain with authoritative := .ofList ["A"] }

/-- A construction that is declared elsewhere waits on nothing, so its rank is one, but it is not
    annotated after the first pass. -/
theorem not_marked_of_authoritative :
    leavingA.LineSafe tables ∧ leavingA.IsAcyclic tables ∧
      leavingA.IsRanking tables (fun _ => 1) ∧
      leavingA.marking leavingA.annotated
          (leavingA.passes (leavingA.corpusBundles tables) 1 (.start tables)).1.store
        ≠ leavingA.marking (fun content m => leavingA.annotated content m
            || decide (leavingA.siteRank tables (fun _ => 1) m ≤ 1)) tables := by
  refine ⟨⟨SiteSettings.lineSafe_default, by decide +kernel⟩, ?_, ⟨?_, ?_, by decide +kernel⟩, ?_⟩
  · exact isAcyclic_of_lt (fun _ => 1) (by decide +kernel)
  · show ∀ b ∈ (leavingA.declaredBundles tables).toList, _
    decide +kernel
  · show ∀ b ∈ (leavingA.corpusBundles tables).toList, _
    decide +kernel
  · decide +kernel

end Annotator

end Lineage
