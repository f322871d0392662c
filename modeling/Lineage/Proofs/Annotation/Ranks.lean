import Lineage.Proofs.Annotation.Convergence
import Mathlib.Order.Lattice.Nat

/-!
# Ranks of waiting bundles

A bundle waits on the corpus bundles among the parents of its open constructions. If nobody waits
on itself through others, bundles and constructions have ranks: a bundle that is annotated
somewhere has none to wait for, a construction comes one after everything that it waits on, and a
bundle is there as soon as the first of its constructions is.

## Main definitions

- `Annotator.WaitsOn` is the waiting graph of a store, before any pass
- `Annotator.IsRanking` tells whether numbers of bundles are their ranks
- `Annotator.siteRank` is the rank of a construction
- `Annotator.lastRank` is the greatest rank of an open construction

## Main statements

- `Annotator.exists_isRanking`: without circles there are ranks
- `Annotator.IsRanking.exists_siteRank_eq`: no rank up to the last one is left out
-/

namespace Lineage

/-! ## Recursion along a relation -/

/-- A rule that computes a value from the values further along has a solution. -/
theorem exists_eq_rule {α : Type} {r : α → α → Prop} (hwf : WellFounded fun y x => r x y)
    (rule : (α → Nat) → α → Nat)
    (hrule : ∀ f g x, (∀ y, r x y → f y = g y) → rule f x = rule g x) :
    ∃ f : α → Nat, ∀ x, f x = rule f x := by
  classical
  let step : ∀ x, (∀ y, r x y → Nat) → Nat :=
    fun x before => rule (fun y => if hy : r x y then before y hy else 0) x
  refine ⟨hwf.fix step, fun x => ?_⟩
  have hunfold : hwf.fix step x = step x fun y _ => hwf.fix step y := hwf.fix_eq step x
  rw [hunfold]
  apply hrule
  intro y hy
  exact dif_pos hy

/-- The greatest of some numbers, or zero. -/
def greatest (ns : List Nat) : Nat := ns.foldr max 0

theorem greatest_le_iff {ns : List Nat} {k : Nat} : greatest ns ≤ k ↔ ∀ n ∈ ns, n ≤ k := by
  induction ns with
  | nil => simp [greatest]
  | cons n ns ih =>
    have hcons : greatest (n :: ns) = max n (greatest ns) := rfl
    rw [hcons, Nat.max_le, ih, List.forall_mem_cons]

namespace Annotator

variable {a : Annotator} {store : Store} {rank : String → Nat}

/-! ## The waiting graph -/

/-- The bundles that a construction without annotation waits on before any pass: the parents that
    the corpus itself has to annotate. A construction that nobody annotates waits on none. -/
def awaited (a : Annotator) (store : Store) (m : Match) : List String :=
  if m.bundle ∈ a.authoritative then []
  else (a.parentsFor m).filter fun p =>
    decide (p ∈ a.corpusBundles store) && !decide (p ∈ a.authoritative)

/-- One bundle waits on another one if a construction of it does. -/
def WaitsOn (a : Annotator) (store : Store) (b p : String) : Prop :=
  ∃ m ∈ a.unannotated store, m.bundle = b ∧ p ∈ a.awaited store m

/-- No bundle waits on itself, also through others. -/
def IsAcyclic (a : Annotator) (store : Store) : Prop :=
  ∀ b, ¬ Relation.TransGen (a.WaitsOn store) b b

theorem mem_awaited {m : Match} {p : String} :
    p ∈ a.awaited store m ↔ m.bundle ∉ a.authoritative ∧ p ∈ a.parentsFor m ∧
      p ∈ a.corpusBundles store ∧ p ∉ a.authoritative := by
  rw [awaited]
  split
  · rename_i hauthoritative
    simp [hauthoritative]
  · rename_i hauthoritative
    simp [hauthoritative]

theorem WaitsOn.mem_corpusBundles {b p : String} (h : a.WaitsOn store b p) :
    b ∈ a.corpusBundles store ∧ p ∈ a.corpusBundles store := by
  obtain ⟨m, hm, rfl, hp⟩ := h
  obtain ⟨f, hf, hm⟩ := List.mem_flatMap.mp hm
  exact ⟨Annotator.mem_corpusBundles.mpr ⟨f, hf, m, List.mem_of_mem_filter hm, rfl⟩,
    (mem_awaited.mp hp).2.2.1⟩

/-- Numbers that grow towards whoever waits leave no room for a circle. -/
theorem isAcyclic_of_lt (measure : String → Nat)
    (h : ∀ m ∈ a.unannotated store, ∀ p ∈ a.awaited store m, measure p < measure m.bundle) :
    a.IsAcyclic store := by
  have hlt : ∀ b c, Relation.TransGen (a.WaitsOn store) b c → measure c < measure b := by
    intro b c hchain
    induction hchain with
    | single hwaits =>
      obtain ⟨m, hm, rfl, hp⟩ := hwaits
      exact h m hm _ hp
    | tail _ hwaits ih =>
      obtain ⟨m, hm, rfl, hp⟩ := hwaits
      exact (h m hm _ hp).trans ih
  exact fun b hcircle => Nat.lt_irrefl _ (hlt b b hcircle)

/-! ## Ranks -/

/-- The rank of a construction without annotation, given the ranks of bundles: it comes one after
    the last bundle that it waits on. -/
def siteRank (a : Annotator) (store : Store) (rank : String → Nat) (m : Match) : Nat :=
  greatest ((a.awaited store m).map rank) + 1

/-- The ranks of the bundles of a corpus: zero if it is annotated somewhere, and otherwise the least
    rank of its constructions. -/
structure IsRanking (a : Annotator) (store : Store) (rank : String → Nat) : Prop where
  declared : ∀ b ∈ a.declaredBundles store, rank b = 0
  attained : ∀ b ∈ a.corpusBundles store, b ∉ a.declaredBundles store →
    ∃ m ∈ a.unannotated store, m.bundle = b ∧ a.siteRank store rank m = rank b
  least : ∀ m ∈ a.unannotated store, m.bundle ∉ a.declaredBundles store →
    rank m.bundle ≤ a.siteRank store rank m

/-- The greatest rank of an open construction, or zero. -/
def lastRank (a : Annotator) (store : Store) (rank : String → Nat) : Nat :=
  greatest ((a.openMatches store).map (a.siteRank store rank))

theorem siteRank_le_succ_iff {m : Match} {k : Nat} :
    a.siteRank store rank m ≤ k + 1 ↔ ∀ p ∈ a.awaited store m, rank p ≤ k := by
  rw [siteRank, Nat.add_le_add_iff_right, greatest_le_iff, List.forall_mem_map]

theorem lastRank_le_iff {k : Nat} :
    a.lastRank store rank ≤ k ↔ ∀ m ∈ a.openMatches store, a.siteRank store rank m ≤ k := by
  rw [lastRank, greatest_le_iff, List.forall_mem_map]

/-- A construction comes after everything that it waits on. -/
theorem rank_lt_siteRank {m : Match} {p : String} (hp : p ∈ a.awaited store m) :
    rank p < a.siteRank store rank m := by
  apply Nat.lt_succ_of_le
  exact greatest_le_iff.mp (Nat.le_refl _) _ (List.mem_map_of_mem hp)

theorem siteRank_congr {other : String → Nat} {m : Match}
    (h : ∀ p ∈ a.awaited store m, rank p = other p) :
    a.siteRank store rank m = a.siteRank store other m := by
  rw [siteRank, siteRank, List.map_congr_left h]

/-- If no bundle waits on itself, there are ranks. -/
theorem exists_isRanking (h : a.IsAcyclic store) : ∃ rank, a.IsRanking store rank := by
  have hwf : WellFounded fun p b => a.WaitsOn store b p :=
    wellFounded_of_acyclic (a.corpusBundles store).toList (fun _ _ => WaitsOn.mem_corpusBundles) h
  -- the rank of a bundle follows from the ranks of the bundles that it waits on
  obtain ⟨rank, hrank⟩ := exists_eq_rule hwf
    (fun rank b => if b ∈ a.declaredBundles store then 0
      else sInf {r | ∃ m ∈ a.unannotated store, m.bundle = b ∧ a.siteRank store rank m = r}) <| by
    intro f g b hfg
    -- its constructions wait on nothing else
    have hsites : ∀ m ∈ a.unannotated store, m.bundle = b →
        a.siteRank store f m = a.siteRank store g m := by
      intro m hm hbundle
      exact siteRank_congr fun p hp => hfg p ⟨m, hm, hbundle, hp⟩
    split
    · rfl
    · refine congrArg sInf (Set.ext fun r => ?_)
      constructor
      · rintro ⟨m, hm, hbundle, rfl⟩
        exact ⟨m, hm, hbundle, (hsites m hm hbundle).symm⟩
      · rintro ⟨m, hm, hbundle, rfl⟩
        exact ⟨m, hm, hbundle, hsites m hm hbundle⟩
  refine ⟨rank, ?_, ?_, ?_⟩
  · intro b hdeclared
    rw [hrank, if_pos hdeclared]
  · intro b hcorpus hdeclared
    obtain ⟨m, hm, rfl⟩ := exists_mem_unannotated hcorpus hdeclared
    rw [hrank m.bundle, if_neg hdeclared]
    exact Nat.sInf_mem (s := {r | ∃ n ∈ a.unannotated store, n.bundle = m.bundle ∧
      a.siteRank store rank n = r}) ⟨_, m, hm, rfl, rfl⟩
  · intro m hm hdeclared
    rw [hrank m.bundle, if_neg hdeclared]
    exact Nat.sInf_le ⟨m, hm, rfl, rfl⟩

/-- A bundle of the corpus has at most a rank if it is annotated somewhere or has a construction
    of at most that rank. -/
theorem IsRanking.le_iff (h : a.IsRanking store rank) {b : String} {k : Nat}
    (hcorpus : b ∈ a.corpusBundles store) (hauthoritative : b ∉ a.authoritative) :
    rank b ≤ k ↔ b ∈ a.declaredBundles store ∨
      ∃ m ∈ a.openMatches store, a.siteRank store rank m ≤ k ∧ m.bundle = b := by
  by_cases hdeclared : b ∈ a.declaredBundles store
  · simp [hdeclared, h.declared b hdeclared]
  · constructor
    · intro hk
      obtain ⟨m, hm, rfl, hrank⟩ := h.attained b hcorpus hdeclared
      refine .inr ⟨m, mem_openMatches_iff.mpr ⟨hm, hauthoritative⟩, ?_, rfl⟩
      rwa [hrank]
    · rintro (hmem | ⟨m, hm, hk, rfl⟩)
      · exact absurd hmem hdeclared
      · exact (h.least m (mem_openMatches_iff.mp hm).1 hdeclared).trans hk

/-- Below the rank of an open construction there is one of each rank. -/
theorem IsRanking.exists_siteRank_eq (h : a.IsRanking store rank) {m : Match} {k : Nat}
    (hm : m ∈ a.openMatches store) (hk : k < a.siteRank store rank m) :
    ∃ n ∈ a.openMatches store, a.siteRank store rank n = k + 1 := by
  -- by induction on the rank that is known to occur, going down along what waits
  induction hr : a.siteRank store rank m using Nat.strong_induction_on generalizing m with
  | _ r ih =>
    subst hr
    by_cases hlast : a.siteRank store rank m ≤ k + 1
    · exact ⟨m, hm, by omega⟩
    · -- it waits on a bundle above the rank, so on a construction in between
      obtain ⟨p, hp, hkp⟩ : ∃ p ∈ a.awaited store m, k < rank p := by
        rw [siteRank_le_succ_iff] at hlast
        simpa using hlast
      obtain ⟨-, -, hcorpus, hauthoritative⟩ := mem_awaited.mp hp
      -- a declared bundle has rank zero, and nothing is below that
      have hdeclared : p ∉ a.declaredBundles store := by
        intro hmem
        rw [h.declared p hmem] at hkp
        exact Nat.not_lt_zero k hkp
      obtain ⟨n, hn, rfl, hrank⟩ := h.attained p hcorpus hdeclared
      rw [← hrank] at hkp
      have hlt : a.siteRank store rank n < a.siteRank store rank m := by
        rw [hrank]
        exact rank_lt_siteRank hp
      exact ih _ hlt (mem_openMatches_iff.mpr ⟨hn, hauthoritative⟩) hkp rfl

end Annotator

end Lineage
