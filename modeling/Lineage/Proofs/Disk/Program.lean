/-!
# Programs with a state

A program that runs on a state gives a result and the state as it is afterwards. Programs are taken
apart step by step here; one that can fail goes on only where a step succeeded.

A program that only reads gives the state back as it was. All that there is to say of it is whether
it fails, and for a sequence of such programs that is settled by the first one that does.

## Main definitions

- `Program.failure?`: the failure in a result
- `Program.Ends`: a program that leaves the state alone, with the failure that it ends in

## Main statements

- `Program.bind_eq_iff`, `Program.bind_eq_ok_iff`, `Program.bind_eq_error_iff`: the steps of a
  program
- `Program.mapM_eq`: a list of programs that only read
- `Program.Ends.bind`, `Program.Ends.mapM`: the first failure is reported
-/

namespace Lineage

namespace Program

variable {σ : Type} {st st' : σ} {α β ε : Type}

/-! ## Steps -/

theorem bind_eq_iff {x : StateM σ α} {f : α → StateM σ β} {b : β} :
    (x >>= f) st = (b, st') ↔ ∃ a st₁, x st = (a, st₁) ∧ f a st₁ = (b, st') := by
  show f (x st).1 (x st).2 = (b, st') ↔ _
  constructor
  · intro h
    exact ⟨(x st).1, (x st).2, rfl, h⟩
  · rintro ⟨a, st₁, hx, hf⟩
    rw [hx]
    exact hf

/-- A program that can fail succeeds if each of its steps does. -/
theorem bind_eq_ok_iff {x : ExceptT ε (StateM σ) α} {f : α → ExceptT ε (StateM σ) β} {b : β} :
    (x >>= f) st = (.ok b, st') ↔ ∃ a st₁, x st = (.ok a, st₁) ∧ f a st₁ = (.ok b, st') := by
  show (bind (m := StateM σ) x (ExceptT.bindCont f)) st = (.ok b, st') ↔ _
  rw [bind_eq_iff]
  constructor
  · rintro ⟨r, st₁, hx, hf⟩
    cases r with
    | error failure => cases hf
    | ok a => exact ⟨a, st₁, hx, hf⟩
  · rintro ⟨a, st₁, hx, hf⟩
    exact ⟨.ok a, st₁, hx, hf⟩

/-- It fails at the first of its steps that does. -/
theorem bind_eq_error_iff {x : ExceptT ε (StateM σ) α} {f : α → ExceptT ε (StateM σ) β}
    {failure : ε} :
    (x >>= f) st = (.error failure, st') ↔ x st = (.error failure, st') ∨
      ∃ a st₁, x st = (.ok a, st₁) ∧ f a st₁ = (.error failure, st') := by
  show (bind (m := StateM σ) x (ExceptT.bindCont f)) st = (.error failure, st') ↔ _
  rw [bind_eq_iff]
  constructor
  · rintro ⟨r, st₁, hx, hf⟩
    cases r with
    | error first =>
      cases hf
      exact .inl hx
    | ok a => exact .inr ⟨a, st₁, hx, hf⟩
  · rintro (hx | ⟨a, st₁, hx, hf⟩)
    · exact ⟨.error failure, st', hx, rfl⟩
    · exact ⟨.ok a, st₁, hx, hf⟩

theorem lift_eq_ok_iff {x : StateM σ α} {a : α} :
    (ExceptT.lift x : ExceptT ε (StateM σ) α) st = (.ok a, st') ↔ x st = (a, st') := by
  show (Except.ok (x st).1, (x st).2) = (.ok a, st') ↔ _
  rw [Prod.mk.injEq, Except.ok.injEq, Prod.ext_iff]

theorem pure_eq_ok_iff {a b : α} :
    (pure a : ExceptT ε (StateM σ) α) st = (.ok b, st') ↔ a = b ∧ st = st' := by
  show (Except.ok a, st) = (.ok b, st') ↔ _
  simp

/-- A program is carried out for the first of a list and then for the rest. -/
theorem mapM_cons_eq_ok {f : α → ExceptT ε (StateM σ) β} {a : α} {as : List α} {b : β}
    {bs : List β} {st₁ : σ} (hfirst : f a st = (.ok b, st₁))
    (hrest : (as.mapM f) st₁ = (.ok bs, st')) : ((a :: as).mapM f) st = (.ok (b :: bs), st') := by
  rw [List.mapM_cons]
  exact bind_eq_ok_iff.mpr ⟨b, st₁, hfirst, bind_eq_ok_iff.mpr ⟨bs, st', hrest, rfl⟩⟩

/-! ## Programs that only read -/

/-- The failure in a result, if it is one. -/
def failure? : Except ε α → Option ε
  | .error failure => some failure
  | .ok _ => none

/-- A program leaves a state alone and ends in a failure, or in none. -/
def Ends (x : ExceptT ε (StateM σ) α) (st : σ) (failed : Option ε) : Prop :=
  ∃ r, x st = (r, st) ∧ failure? r = failed

variable {x : ExceptT ε (StateM σ) α} {failed failed' : Option ε}

theorem Ends.eq_error {failure : ε} (h : Ends x st (some failure)) : x st = (.error failure, st) := by
  obtain ⟨r, hx, hr⟩ := h
  cases r with
  | ok a => cases hr
  | error found =>
    obtain rfl : found = failure := Option.some.inj hr
    exact hx

theorem Ends.exists_eq_ok (h : Ends x st none) : ∃ a, x st = (.ok a, st) := by
  obtain ⟨r, hx, hr⟩ := h
  cases r with
  | ok a => exact ⟨a, hx⟩
  | error found => cases hr

theorem ends_pure (a : α) (st : σ) : Ends (pure a : ExceptT ε (StateM σ) α) st none :=
  ⟨.ok a, rfl, rfl⟩

theorem ends_throw (failure : ε) (st : σ) :
    Ends (throw failure : ExceptT ε (StateM σ) α) st (some failure) :=
  ⟨.error failure, rfl, rfl⟩

theorem ends_ofExcept (r : Except ε α) (st : σ) :
    Ends (MonadExcept.ofExcept r : ExceptT ε (StateM σ) α) st (failure? r) := by
  cases r with
  | ok a => exact ends_pure a st
  | error failure => exact ends_throw failure st

/-- After a step that succeeds a program ends as the next one does. -/
theorem Ends.bind_of_eq_ok {f : α → ExceptT ε (StateM σ) β} {a : α} (hx : x st = (.ok a, st))
    (hf : Ends (f a) st failed) : Ends (x >>= f) st failed := by
  obtain ⟨r, hr, rfl⟩ := hf
  refine ⟨r, ?_, rfl⟩
  cases r with
  | error failure => exact bind_eq_error_iff.mpr (.inr ⟨a, st, hx, hr⟩)
  | ok b => exact bind_eq_ok_iff.mpr ⟨a, st, hx, hr⟩

/-- An operation that gives a result does not fail, whatever the result is. -/
theorem Ends.bind_lift {x : StateM σ α} {f : α → ExceptT ε (StateM σ) β} {a : α}
    (hx : x st = (a, st)) (hf : Ends (f a) st failed) :
    Ends (ExceptT.lift x >>= f : ExceptT ε (StateM σ) β) st failed :=
  hf.bind_of_eq_ok (lift_eq_ok_iff.mpr hx)

/-- Of two programs the second is carried out if the first one does not fail. -/
theorem Ends.bind {f : α → ExceptT ε (StateM σ) β} (hx : Ends x st failed)
    (hf : ∀ a, x st = (.ok a, st) → Ends (f a) st failed') :
    Ends (x >>= f) st (failed.or failed') := by
  obtain ⟨r, hr, rfl⟩ := hx
  cases r with
  | error failure => exact ⟨.error failure, bind_eq_error_iff.mpr (.inl hr), rfl⟩
  | ok a => exact (hf a hr).bind_of_eq_ok hr

/-- Making something of a result does not fail. -/
theorem Ends.bind_pure (hx : Ends x st failed) (g : α → β) :
    Ends (x >>= fun a => pure (g a)) st failed := by
  have hboth := hx.bind fun a _ => ends_pure (g a) st
  rw [Option.or_none] at hboth
  exact hboth

/-- Going through a list ends in the first failure. -/
theorem Ends.mapM {f : α → ExceptT ε (StateM σ) β} {fails : α → Option ε}
    (h : ∀ a, Ends (f a) st (fails a)) (as : List α) :
    Ends (as.mapM f) st (as.findSome? fails) := by
  induction as with
  | nil =>
    rw [List.mapM_nil]
    exact ends_pure [] st
  | cons a as ih =>
    have hfirst : (a :: as).findSome? fails = (fails a).or (as.findSome? fails) := by
      rw [List.findSome?_cons]
      cases fails a with
      | none => rfl
      | some failure => rfl
    rw [hfirst, List.mapM_cons]
    exact (h a).bind fun b _ => ih.bind_pure (b :: ·)

/-- Going through a list with a program that leaves a state alone is going through it with the
    results. -/
theorem mapM_eq {f : α → ExceptT ε (StateM σ) β} {result : α → Except ε β} {as : List α}
    (h : ∀ a ∈ as, f a st = (result a, st)) : (as.mapM f) st = (as.mapM result, st) := by
  induction as with
  | nil => rfl
  | cons a as ih =>
    have hfirst : f a st = (result a, st) := h a (List.mem_cons_self ..)
    have hrest : (as.mapM f) st = (as.mapM result, st) :=
      ih fun b hb => h b (List.mem_cons_of_mem _ hb)
    rw [List.mapM_cons, List.mapM_cons]
    cases hresult : result a with
    | error failure =>
      rw [hresult] at hfirst
      exact bind_eq_error_iff.mpr (.inl hfirst)
    | ok b =>
      rw [hresult] at hfirst
      cases hresults : as.mapM result with
      | error failure =>
        rw [hresults] at hrest
        exact bind_eq_error_iff.mpr (.inr ⟨b, st, hfirst, bind_eq_error_iff.mpr (.inl hrest)⟩)
      | ok bs =>
        rw [hresults] at hrest
        exact bind_eq_ok_iff.mpr ⟨b, st, hfirst, bind_eq_ok_iff.mpr ⟨bs, st, hrest, rfl⟩⟩

end Program

end Lineage
