import Lineage.Proofs.Annotation.Convergence

/-!
# Keeping account of gaps

A pass writes one class line for each construction that it finds ready, and takes away no other gap
and makes no new one. So at any moment of a run the lines inserted so far and the gaps that are left
make up the gaps there were at first, whether the run ends by itself or is cut off by its bound.

## Main definitions

- `Annotator.Balanced` is the account that every pass keeps

## Main statements

- `Annotator.Balanced.advance`: what a pass inserts, it takes from the gaps
- `Annotator.gaps_accounted`: the account of a whole run
-/

namespace Lineage

namespace Annotator

variable {a : Annotator} {store : Store} {corpus : NameSet} {p : Progress} {total : Nat}

/-- A run that started with so many gaps: each one is filled and counted, or is still there. -/
structure Balanced (a : Annotator) (total : Nat) (p : Progress) : Prop where
  writable : a.Writable p.store
  gaps : p.inserted + (a.gaps p.store).length = total

/-- Before the first pass nothing is inserted. -/
theorem balanced_start (h : a.Writable store) :
    a.Balanced (a.gaps store).length (.start store) where
  writable := h
  gaps := Nat.zero_add _

theorem Balanced.idle (h : a.Balanced total p) : a.Balanced total (a.idle corpus p) :=
  ⟨h.writable, h.gaps⟩

/-- To release circles inserts nothing and fills no gap. -/
theorem Balanced.release (h : a.Balanced total p) : a.Balanced total (a.release corpus p) :=
  ⟨h.writable, h.gaps⟩

/-- What a pass inserts, it takes from the gaps. -/
theorem Balanced.advance (h : a.Balanced total p) : a.Balanced total (a.advance corpus p) where
  writable := by
    show a.Writable (a.pass corpus p.released p.store).store
    rw [store_pass]
    exact h.writable.annotateWhere _
  gaps := by
    have hpass := inserted_add_length_openMatches_advance corpus h.writable
    have htotal := h.gaps
    have hinserted : (a.advance corpus p).inserted
        = p.inserted + (a.pass corpus p.released p.store).inserted := rfl
    rw [length_gaps] at htotal ⊢
    omega

/-- The account is kept by any number of passes, wherever they are cut off. -/
theorem Balanced.passes (h : a.Balanced total p) (bound : Nat) :
    a.Balanced total (a.passes corpus bound p).1 :=
  (passes_induction (fun _ hp _ => hp.idle) (fun _ hp _ _ => hp.release)
    (fun _ hp _ => hp.advance) bound h).1

/-- The gaps before a run are as many as the lines it inserts and the gaps it leaves, whatever its
    bound is; and it leaves gaps only if the bound is exceeded. -/
theorem gaps_accounted (h : a.LineSafe store) :
    (a.gaps store).length
        = (a.run store).2.annotationsInserted + (a.gaps (a.run store).1).length ∧
      (a.gaps (a.run store).1 ≠ [] → (a.run store).2.boundExceeded = true) := by
  have hsafe := h.writable
  constructor
  · have hbalanced : a.Balanced (a.gaps store).length
        (a.passes (a.corpusBundles store) a.settings.maxPasses (.start store)).1 :=
      (balanced_start hsafe).passes _
    exact hbalanced.gaps.symm
  · intro hleft
    by_contra hbound
    have hconverged : (a.run store).2.converged = true := by
      simpa [Outcome.converged] using hbound
    apply hleft
    rw [← List.length_eq_zero_iff, length_gaps, openMatches_run hsafe hconverged]
    rfl

theorem gaps_accounted_circle :
    (plain.withBound 1).LineSafe circle ∧
      (plain.gaps circle).length
        = ((plain.withBound 1).run circle).2.annotationsInserted
          + (plain.gaps ((plain.withBound 1).run circle).1).length ∧
      plain.gaps ((plain.withBound 1).run circle).1 ≠ [] ∧
      ((plain.withBound 1).run circle).2.boundExceeded = true := by
  have hsafe := lineSafe_circle.withBound 1
  obtain ⟨haccount, hexceeded⟩ := gaps_accounted hsafe
  have hleft : plain.gaps ((plain.withBound 1).run circle).1 ≠ [] := by decide +kernel
  exact ⟨hsafe, haccount, hleft, hexceeded hleft⟩

end Annotator

end Lineage
