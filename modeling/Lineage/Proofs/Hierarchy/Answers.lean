import Lineage.Proofs.Hierarchy.Queries

/-!
# Answers in a session

What can be relied on in a session, whatever was asked before. Answers are sound and never change.
They are complete as long as nothing that is remembered reaches a cycle. Behind a cycle they are
only as good as the lists of its members, and those depend on where a query first met the cycle.

## Main statements

- `Session.ancestors_exact`: complete answers
- `Session.ancestors_of_not_onCycle`: what an answer for an entity on no cycle can lack
- `Session.answers_differ`: such an answer does depend on what was asked before
- `Session.answers_lasting`: all that holds of the answers in any session
-/

namespace Lineage

namespace Session

variable {g : Graph} {s : Session} {x y : String}

/-! ## Complete answers -/

/-- After any queries, the search of another one does not depend on its bound and its answer is in
    order. If nothing that is remembered and reachable reaches a cycle, the answer is all that is
    reachable, less the entity itself. That is so for the first query of a session and for an entity
    that reaches no cycle; without cycles it is so for every query. -/
theorem ancestors_exact (g : Graph) (entities : List String) (x : String) :
    let s := afterEach g ∅ entities
    (∀ bound, g.size < bound → ¬ s.Knows x → walk g bound [] x s = s.ancestors g x) ∧
      (s.ancestors g x).1.toList.Pairwise (· < ·) ∧
      ((∀ t, s.Knows t → g.Reaches x t → ¬ g.ReachesCycle t) →
        g.IsComplete x (s.ancestors g x).1) ∧
      (entities = [] ∨ ¬ g.ReachesCycle x → g.IsComplete x (s.ancestors g x).1) ∧
      ((∀ c, ¬ g.OnCycle c) → ∀ y, y ∈ (s.ancestors g x).1 ↔ g.Reaches x y) := by
  intro s
  have hs : s.Settled g := (settled_empty g).afterEach entities
  -- the list of an entity that lacks something belongs to a cycle that is reachable
  have hcomplete : (∀ t, s.Knows t → g.Reaches x t → ¬ g.ReachesCycle t) →
      g.IsComplete x (s.ancestors g x).1 := by
    intro hremembered
    apply hs.isComplete
    rintro c y hc hxc ⟨list, hlist, -⟩
    have hreach : g.Reaches x c := by
      rcases hxc with rfl | hxc
      · exact hc
      · exact hxc
    exact hremembered c ⟨list, hlist⟩ hreach hc.reachesCycle
  refine ⟨?_, (s.ancestors g x).1.ascending, hcomplete, ?_, ?_⟩
  · intro bound hbound hnew
    rw [walk_eq_of_size_lt hbound, ancestors, not_knows_iff.mp hnew]
  · rintro (rfl | hx)
    · -- nothing is remembered yet
      apply hcomplete
      rintro t ⟨list, hlist⟩
      cases hlist
    · apply hcomplete
      rintro t - hxt ⟨c, htc, hc⟩
      exact hx ⟨c, hxt.trans htc, hc⟩
  · intro hacyclic y
    have hall := hcomplete (by rintro t - - ⟨c, -, hc⟩; exact hacyclic c hc)
    rw [hall y, and_iff_left_iff_imp]
    rintro hreach rfl
    exact hacyclic y hreach

/-- An entity above a cycle of two, one of which has a parent outside. -/
def loop : Graph := Graph.addAll ∅ [("Top", "X"), ("X", "Y"), ("Y", "X"), ("Y", "Base")]

theorem not_reaches_base {y : String} : ¬ loop.Reaches "Base" y := by
  intro h
  have hmem : y ∈ ([] : List String) := h.mem_of_closed (by decide +kernel) (by simp)
  cases hmem

theorem mem_of_reaches_top {y : String} (h : loop.Reaches "Top" y) : y ∈ ["Base", "X", "Y"] :=
  h.mem_of_closed (by decide +kernel) (by decide +kernel)

/-- The cycle is below, and nothing of it is remembered. -/
theorem ancestors_exact_loop :
    (∀ t, (afterEach loop ∅ ["Base"]).Knows t → loop.Reaches "Top" t → ¬ loop.ReachesCycle t) ∧
      ((afterEach loop ∅ ["Base"]).ancestors loop "Top").1.toList = ["Base", "X", "Y"] ∧
      loop.IsComplete "Top" ((afterEach loop ∅ ["Base"]).ancestors loop "Top").1 := by
  have hremembered : ∀ t, (afterEach loop ∅ ["Base"]).Knows t → loop.Reaches "Top" t →
      ¬ loop.ReachesCycle t := by
    intro t ht _
    obtain ⟨x, hx, hreach⟩ := knows_afterEach_empty_iff.mp ht
    rw [List.mem_singleton.mp hx] at hreach
    rcases hreach with rfl | hreach
    · rintro ⟨c, hc, -⟩
      exact not_reaches_base hc
    · exact absurd hreach not_reaches_base
  obtain ⟨-, -, hcomplete, -, -⟩ := ancestors_exact loop ["Base"] "Top"
  exact ⟨hremembered, by decide +kernel, hcomplete hremembered⟩

/-! ## Entities on no cycle -/

/-- What an answer for an entity on no cycle lacks, the list of an entity on a cycle lacked. -/
theorem Settled.exists_lacks (hs : s.Settled g) (hoff : ¬ g.OnCycle x)
    (hreach : g.Reaches x y) (hmiss : y ∉ (s.ancestors g x).1) :
    ∃ c, g.OnCycle c ∧ g.Reaches x c ∧ s.Lacks g c y := by
  have hne : y ≠ x := by
    rintro rfl
    exact hoff hreach
  obtain ⟨c, hc, rfl | hxc, hlack⟩ := hs.lacks_onCycle hreach hne hmiss
  · exact absurd hc hoff
  · exact ⟨c, hc, hxc, hlack⟩

/-- If no such list lacks anything, the answer is that of a new session. -/
theorem Settled.ancestors_eq (hs : s.Settled g) (hoff : ¬ g.OnCycle x)
    (hlists : ∀ c y, g.OnCycle c → g.Reaches x c → ¬ s.Lacks g c y) :
    (∀ y, y ∈ (s.ancestors g x).1 ↔ g.Reaches x y) ∧
      (s.ancestors g x).1 = ((∅ : Session).ancestors g x).1 := by
  have hcomplete : g.IsComplete x (s.ancestors g x).1 := by
    apply hs.isComplete
    rintro c y hc (rfl | hxc)
    · exact absurd hc hoff
    · exact hlists c y hc hxc
  have hnew : g.IsComplete x ((∅ : Session).ancestors g x).1 := by
    apply (settled_empty g).isComplete
    rintro c y - - ⟨list, hlist, -⟩
    cases hlist
  refine ⟨fun y => ?_, hcomplete.unique hnew⟩
  rw [hcomplete y, and_iff_left_iff_imp]
  rintro hreach rfl
  exact hoff hreach

/-- After any queries, the answer for an entity that is on no cycle has only what is reachable, and
    it lacks only what the list lacks that was remembered for a member of a cycle that the entity
    reaches. Without such a list, as when no earlier query reached the cycles that this one
    reaches, the answer is all that is reachable, as it is in a new session. -/
theorem ancestors_of_not_onCycle (g : Graph) (entities : List String) (x : String)
    (hoff : ¬ g.OnCycle x) :
    let s := afterEach g ∅ entities
    (∀ y ∈ (s.ancestors g x).1, g.Reaches x y) ∧
      (∀ y, g.Reaches x y → y ∉ (s.ancestors g x).1 →
        ∃ c, g.OnCycle c ∧ g.Reaches x c ∧ s.Lacks g c y) ∧
      ((∀ c y, g.OnCycle c → g.Reaches x c → ¬ s.Lacks g c y) →
        (∀ y, y ∈ (s.ancestors g x).1 ↔ g.Reaches x y) ∧
          (s.ancestors g x).1 = ((∅ : Session).ancestors g x).1) ∧
      ((∀ q ∈ entities, ∀ c, g.OnCycle c → g.Reaches x c → c ≠ q ∧ ¬ g.Reaches q c) →
        (s.ancestors g x).1 = ((∅ : Session).ancestors g x).1) := by
  intro s
  have hs : s.Settled g := (settled_empty g).afterEach entities
  have hanswer : g.IsAnswer x (s.ancestors g x).1 := (hs.ancestors x).isAnswer get?_ancestors
  refine ⟨hanswer.reaches, fun y => hs.exists_lacks hoff, hs.ancestors_eq hoff, fun hqueries => ?_⟩
  -- only what was asked for or reached has a list
  refine (hs.ancestors_eq hoff ?_).2
  rintro c y hc hxc ⟨list, hlist, -⟩
  obtain ⟨q, hq, hqc⟩ := knows_afterEach_empty_iff.mp ⟨list, hlist⟩
  obtain ⟨hother, hunreached⟩ := hqueries q hq c hc hxc
  rcases hqc with rfl | hqc
  · exact hother rfl
  · exact hunreached hqc

theorem not_onCycle_top : ¬ loop.OnCycle "Top" := by
  intro h
  have hmem := mem_of_reaches_top h
  simp at hmem

/-- Where the first query enters the cycle at `X`, the lists of its members are complete. -/
theorem ancestors_of_not_onCycle_loop :
    ¬ loop.OnCycle "Top" ∧
      (∀ c y, loop.OnCycle c → loop.Reaches "Top" c → ¬ (afterEach loop ∅ ["X"]).Lacks loop c y) ∧
      ((afterEach loop ∅ ["X"]).ancestors loop "Top").1
        = ((∅ : Session).ancestors loop "Top").1 := by
  have hlists : ∀ c y, loop.OnCycle c → loop.Reaches "Top" c →
      ¬ (afterEach loop ∅ ["X"]).Lacks loop c y := by
    rintro c y hc hreach ⟨list, hlist, hcy, hne, hmiss⟩
    -- the members of the cycle are remembered with all but themselves
    have hall : ∀ c ∈ ["X", "Y"], ∀ y ∈ ["Base", "X", "Y"], y ≠ c →
        y ∈ ((afterEach loop ∅ ["X"]).known.get? c).getD ∅ := by
      decide +kernel
    have hmem : c ∈ ["Base", "X", "Y"] := mem_of_reaches_top hreach
    have hmember : c ∈ ["X", "Y"] := by
      rcases List.mem_cons.mp hmem with rfl | hmember
      · exact absurd hc not_reaches_base
      · exact hmember
    have hy := hall c hmember y (mem_of_reaches_top (hreach.trans hcy)) hne
    rw [hlist] at hy
    exact hmiss hy
  obtain ⟨-, -, hcomplete, -⟩ := ancestors_of_not_onCycle loop ["X"] "Top" not_onCycle_top
  exact ⟨not_onCycle_top, hlists, (hcomplete hlists).2⟩

/-- Where the first query enters the cycle at `Y`, the list of `X` lacks `Base`, and so does the
    answer for `Top`, which is on no cycle. A new session answers it in full. -/
theorem answers_differ :
    ¬ loop.OnCycle "Top" ∧ loop.Reaches "Top" "Base" ∧
      ((∅ : Session).ancestors loop "Top").1.toList = ["Base", "X", "Y"] ∧
      ((afterEach loop ∅ ["Y"]).ancestors loop "Top").1.toList = ["X", "Y"] := by
  have htop : loop.IsParent "Top" "X" := by decide +kernel
  have hx : loop.IsParent "X" "Y" := by decide +kernel
  have hy : loop.IsParent "Y" "Base" := by decide +kernel
  refine ⟨not_onCycle_top, htop.reaches_trans (hx.reaches_trans hy.reaches), ?_, ?_⟩
  · decide +kernel
  · decide +kernel

/-! ## Whole sessions -/

/-- Any queries for one or several entities leave a session in which every answer that was given is
    an answer for its entity and will be given again. Asking again for what was asked before changes
    nothing, so it notes no new cycle. Every entity that is remembered was expanded once, and what
    is remembered is what was asked for or is reachable from there, closed under parents. -/
theorem answers_lasting (g : Graph) (queries : List Query) :
    let s := afterAll g ∅ queries
    (∀ before q later, queries = before ++ q :: later → ∀ x,
      (x ∈ q.entities → ∃ found, ((afterAll g ∅ before).ask g q).1.get? x = some found) ∧
        ∀ found, ((afterAll g ∅ before).ask g q).1.get? x = some found →
          g.IsAnswer x found ∧
            ∀ again : Query, x ∈ again.entities → (s.ask g again).1.get? x = some found) ∧
      (∀ again : Query, (∀ x ∈ again.entities, ∃ q ∈ queries, x ∈ q.entities) →
        (s.ask g again).2 = s) ∧
      (expansionsEach g ∅ (queries.flatMap Query.entities)).Nodup ∧
      (∀ e, e ∈ expansionsEach g ∅ (queries.flatMap Query.entities) ↔ s.Knows e) ∧
      s.known.size = {e | ∃ q ∈ queries, ∃ x ∈ q.entities, e = x ∨ g.Reaches x e}.ncard ∧
      (∀ e p, s.Knows e → g.IsParent e p → s.Knows p) := by
  intro s
  have hs : s.Settled g := (settled_empty g).afterAll queries
  refine ⟨?_, ?_, nodup_expansionsEach, ?_, ?_, hs.closed⟩
  · rintro before q later rfl x
    have hbefore := (settled_empty g).afterAll before
    refine ⟨hbefore.exists_get?_ask, fun found hfound => ?_⟩
    -- what is remembered after the answer stays through the later queries
    have hlast : s.known.get? x = some found := by
      simp only [s, afterAll, List.foldl_append, List.foldl_cons]
      exact get?_afterAll_of_get? (get?_of_get?_ask hfound)
    exact ⟨hs.isAnswer hlast, fun again hx => get?_ask_of_get? hx hlast⟩
  · intro again hasked
    rw [ask_snd]
    apply afterEach_eq_self
    intro x hx
    obtain ⟨q, hq, hxq⟩ := hasked x hx
    exact knows_afterAll_empty_iff.mpr ⟨q, hq, x, hxq, .inl rfl⟩
  · intro e
    rw [mem_expansionsEach_iff, ← afterAll_eq_afterEach, and_iff_left]
    rintro ⟨list, hlist⟩
    cases hlist
  · simp only [s, size_known_eq_ncard, knows_afterAll_empty_iff]

/-- Two queries on a cycle and above it. -/
theorem answers_lasting_loop :
    let s := afterAll loop ∅ [.all ["Y", "Top"], .one "X"]
    s.known.size = 4 ∧ s.known.get? "X" = some ⟨["Y"], by decide⟩ ∧
      (s.ask loop (.all ["X", "Top"])).2 = s ∧
      (expansionsEach loop ∅ ["Y", "Top", "X"]).Nodup := by
  intro s
  obtain ⟨-, hagain, hnodup, -, -, -⟩ := answers_lasting loop [.all ["Y", "Top"], .one "X"]
  refine ⟨by decide +kernel, by decide +kernel, hagain (.all ["X", "Top"]) ?_, hnodup⟩
  simp [Query.entities]

end Session

end Lineage
