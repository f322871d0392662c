import Lineage.Proofs.Hierarchy.Cycles
import Lineage.Proofs.Hierarchy.Queries

/-!
# Reported cycles

Between its queries a session may be asked for the cycles that it noted, and then it hands them out
and forgets them. What it reports over its whole life are loops of the graph, no two of them equal,
and they are enough to tell which queries ran into a cycle.

A report cannot come back after it was handed out: the last step of its chain starts at an entity
that is remembered by then, and a later query does not expand it again.

## Main definitions

- `Session.Call`: a query, or taking the reports
- `Session.afterCalls`: the reports taken by some calls, and the session after them
- `Session.Accounted`: what holds of both between two calls

## Main statements

- `Session.Accounted.ancestors`, `Session.Accounted.takeReports`: every call keeps the account
- `Session.reports_exact`: what is reported in any session
-/

namespace Lineage

namespace Session

variable {g : Graph} {s : Session} {taken : List Diagnostic} {x e c : String}

/-! ## The account of a session -/

/-- What holds between two calls of a session and of the reports that were taken from it before. -/
structure Accounted (g : Graph) (taken : List Diagnostic) (s : Session) : Prop where
  settled : s.Settled g
  /-- Every report is a loop whose last step starts at an entity that was expanded. -/
  reports : ∀ d ∈ taken ++ s.reports, ∃ entity chain child, d = .cycleDetected entity chain ∧
    g.IsLoop entity chain ∧ Graph.lastChild? chain = some child ∧ s.Knows child
  nodup : (taken ++ s.reports).Nodup
  cycles : ∀ e chain, s.cycles.get? e = some chain →
    e ∈ chain ∧ ∃ entity, .cycleDetected entity chain ∈ taken ++ s.reports
  covered : ∀ c, s.Knows c → g.OnCycle c → ∃ e ∈ g.component c, s.inCycle e = true

theorem accounted_empty (g : Graph) : Accounted g [] ∅ where
  settled := settled_empty g
  reports := nofun
  nodup := List.nodup_nil
  cycles := fun _ _ h => nomatch h
  covered := fun _ h => nomatch h

/-- What a query notes, with the entities that it expands. -/
theorem exists_notes_ancestors (g : Graph) (s : Session) (x : String) :
    ∃ loops known, (s.ancestors g x).2 = (s.noteAll loops).withKnown known ∧
      ∀ l ∈ loops, Walk.Closes g (expansions g s x) l := by
  rcases query_cases g s x with ⟨_, -, heq, -⟩ | ⟨_, inside, s₁, -, hwalk, heq, hexpansions⟩
  · exact ⟨[], s.known, by rw [heq]; rfl, by simp⟩
  · obtain ⟨loops, known, rfl, hloops⟩ :=
      hwalk.exists_notes rfl (g.isTrail_singleton x) fun q hq => hq
    rw [heq, hexpansions]
    exact ⟨loops, _, rfl, hloops⟩

/-- A query for an entity that reaches a component for the first time notes a cycle with one of its
    members. -/
theorem Settled.inCycle_ancestors (hs : s.Settled g) (hcycle : g.OnCycle c) (hnew : ¬ s.Knows c)
    (hknows : (s.ancestors g x).2.Knows c) :
    ∃ e ∈ g.component c, (s.ancestors g x).2.inCycle e = true := by
  rcases query_cases g s x with ⟨_, -, heq, -⟩ | ⟨below, inside, s₁, hx, hwalk, heq, -⟩
  · rw [heq] at hknows
    exact absurd hknows hnew
  · -- with one member all of them would be remembered
    have hfirst : ∀ e ∈ g.component c, ¬ s.Knows e := by
      rintro e (rfl | ⟨-, hec⟩) he
      · exact hnew he
      · exact hnew (hs.knows_of_reaches he hec)
    have hinCycle : ∃ e ∈ g.component c, s₁.inCycle e = true := by
      by_cases hmember : x ∈ g.component c
      · have hcycle' := Graph.onCycle_of_mem_component hmember hcycle
        refine ⟨x, hmember, hwalk.inCycle_innermost hcycle' (by simp) fun e he => ⟨?_, by simp⟩⟩
        rw [Graph.component_eq_of_mem hmember] at he
        exact hfirst e he
      · apply hwalk.inCycle_of_entered hcycle
        · exact Graph.reaches_of_trail (by simp)
        · intro e he
          refine ⟨hfirst e he, fun hmem => ?_⟩
          rw [List.mem_singleton.mp hmem] at he
          exact hmember he
        · -- what is new is the entity of the query or was entered
          rw [heq, knows_remember, hwalk.knows_iff] at hknows
          rcases hknows with rfl | hold | hentered
          · exact absurd (g.mem_component_self c) hmember
          · exact absurd hold hnew
          · exact ⟨c, g.mem_component_self c, hentered⟩
    rw [heq]
    exact hinCycle

theorem Accounted.ancestors (h : Accounted g taken s) (x : String) :
    Accounted g taken (s.ancestors g x).2 := by
  obtain ⟨loops, known, hs', hloops⟩ := exists_notes_ancestors g s x
  have hreports : (s.ancestors g x).2.reports = (s.noteAll loops).reports := by rw [hs']; rfl
  have hcycles : (s.ancestors g x).2.cycles = (s.noteAll loops).cycles := by rw [hs']; rfl
  have hinCycle : ∀ e, (s.ancestors g x).2.inCycle e = (s.noteAll loops).inCycle e := by
    intro e
    rw [inCycle, inCycle, hcycles]
  have hkeeps : ∀ e, s.Knows e → (s.ancestors g x).2.Knows e := by
    rintro e ⟨list, hlist⟩
    exact ⟨list, get?_ancestors_of_get? hlist⟩
  have hmem : ∀ d, d ∈ taken ++ (s.ancestors g x).2.reports ↔
      d ∈ taken ++ s.reports ∨ ∃ l ∈ loops, d = .cycleDetected l.1 l.2 := by
    intro d
    rw [hreports, List.mem_append, mem_reports_noteAll, List.mem_append, or_assoc]
  refine ⟨h.settled.ancestors x, ?_, ?_, ?_, ?_⟩
  · intro d hd
    rcases (hmem d).mp hd with hold | ⟨l, hl, rfl⟩
    · obtain ⟨entity, chain, child, hd, hloop, hlast, hknows⟩ := h.reports d hold
      exact ⟨entity, chain, child, hd, hloop, hlast, hkeeps child hknows⟩
    · obtain ⟨hloop, child, hchild, hlast⟩ := hloops l hl
      exact ⟨l.1, l.2, child, rfl, hloop, hlast, (mem_expansions_iff.mp hchild).1⟩
  · obtain ⟨htaken, hpending, hdisjoint⟩ := List.nodup_append.mp h.nodup
    rw [hreports]
    refine List.nodup_append.mpr ⟨htaken, nodup_reports_noteAll hpending, ?_⟩
    rintro d hd other hother rfl
    rcases mem_reports_noteAll.mp hother with hold | ⟨l, hl, rfl⟩
    · exact hdisjoint d hd d hold rfl
    · -- the last step of an old report starts at an entity that is not expanded again
      obtain ⟨entity, chain, child, heq, -, hlast, hknows⟩ :=
        h.reports _ (List.mem_append_left _ hd)
      obtain ⟨-, rfl⟩ := Diagnostic.cycleDetected.inj heq
      obtain ⟨-, child', hchild', hlast'⟩ := hloops l hl
      obtain rfl : child = child' := Option.some.inj (hlast.symm.trans hlast')
      exact (mem_expansions_iff.mp hchild').2 hknows
  · intro e chain hchain
    rw [hcycles] at hchain
    rcases get?_cycles_noteAll hchain with hold | ⟨l, hl, rfl, he⟩
    · obtain ⟨he, entity, hentity⟩ := h.cycles e chain hold
      exact ⟨he, entity, (hmem _).mpr (.inl hentity)⟩
    · exact ⟨he, l.1, (hmem _).mpr (.inr ⟨l, hl, rfl⟩)⟩
  · intro c hc hcycle
    by_cases hold : s.Knows c
    · obtain ⟨e, he, hin⟩ := h.covered c hold hcycle
      refine ⟨e, he, ?_⟩
      rw [hinCycle, inCycle_noteAll]
      exact .inl hin
    · exact h.settled.inCycle_ancestors hcycle hold hc

theorem Accounted.afterEach (h : Accounted g taken s) (entities : List String) :
    Accounted g taken (afterEach g s entities) := by
  induction entities generalizing s with
  | nil => exact h
  | cons x rest ih => exact ih (h.ancestors x)

/-- Taking the reports moves them from one side of the account to the other. -/
theorem Accounted.takeReports (h : Accounted g taken s) :
    Accounted g (taken ++ s.takeReports.1) s.takeReports.2 := by
  have hall : taken ++ s.takeReports.1 ++ s.takeReports.2.reports = taken ++ s.reports :=
    List.append_nil _
  refine ⟨⟨⟨h.settled.faithful.sound, h.settled.faithful.notMem_self, h.settled.faithful.parents,
    h.settled.faithful.lacks⟩, h.settled.closed⟩, ?_, ?_, ?_, h.covered⟩
  · rw [hall]
    exact h.reports
  · rw [hall]
    exact h.nodup
  · rw [hall]
    exact h.cycles

/-! ## Calls -/

/-- What may be asked of a session: the ancestors of entities, or its reports. -/
inductive Call where
  | query (q : Query)
  | take
  deriving DecidableEq, Repr

/-- The entities whose ancestors are asked for. -/
def Call.entities : Call → List String
  | .query q => q.entities
  | .take => []

/-- The reports taken so far and the session, after one more call. -/
def call (g : Graph) (state : List Diagnostic × Session) : Call → List Diagnostic × Session
  | .query q => (state.1, (state.2.ask g q).2)
  | .take => (state.1 ++ state.2.takeReports.1, state.2.takeReports.2)

/-- The reports taken by the calls of a new session, and the session after them. -/
def afterCalls (g : Graph) (calls : List Call) : List Diagnostic × Session :=
  calls.foldl (call g) ([], ∅)

theorem Accounted.call {state : List Diagnostic × Session} (h : Accounted g state.1 state.2)
    (next : Call) : Accounted g (call g state next).1 (call g state next).2 := by
  cases next with
  | query q =>
    rw [Session.call, ask_snd]
    exact h.afterEach q.entities
  | take => exact h.takeReports

theorem accounted_afterCalls (g : Graph) (calls : List Call) :
    Accounted g (afterCalls g calls).1 (afterCalls g calls).2 := by
  have hfold : ∀ state : List Diagnostic × Session, Accounted g state.1 state.2 →
      Accounted g (calls.foldl (Session.call g) state).1
        (calls.foldl (Session.call g) state).2 := by
    induction calls with
    | nil => exact fun _ h => h
    | cons next rest ih => exact fun _ h => ih _ (h.call next)
  exact hfold _ (accounted_empty g)

/-- Only queries make a session remember something. -/
theorem known_afterCalls (g : Graph) (calls : List Call) :
    (afterCalls g calls).2.Knows e ↔
      ∃ next ∈ calls, ∃ x ∈ next.entities, e = x ∨ g.Reaches x e := by
  have hfold : ∀ state : List Diagnostic × Session, Accounted g state.1 state.2 →
      ((calls.foldl (Session.call g) state).2.Knows e ↔
        state.2.Knows e ∨ ∃ next ∈ calls, ∃ x ∈ next.entities, e = x ∨ g.Reaches x e) := by
    induction calls with
    | nil => simp
    | cons next rest ih =>
      intro state h
      rw [List.foldl_cons, ih _ (h.call next), List.exists_mem_cons_iff, ← or_assoc]
      refine or_congr_left ?_
      cases next with
      | query q =>
        rw [Session.call, ask_snd]
        exact h.settled.knows_afterEach_iff
      | take =>
        have hknows : (Session.call g state .take).2.Knows e ↔ state.2.Knows e := Iff.rfl
        rw [hknows]
        simp [Call.entities]
  rw [afterCalls, hfold _ (accounted_empty g), or_iff_right]
  rintro ⟨list, hlist⟩
  cases hlist

/-! ## All reports -/

/-- Over the whole life of a session, whatever is asked and whenever the reports are taken: every
    report is a loop of the graph, and none is issued twice. An entity that was seen on a cycle is
    on one, and what it was seen on is a reported loop through it. Each strongly connected component
    with several members that a queried entity belongs to or reaches has a member that was seen on
    a cycle. So none was seen if and only if no queried entity reaches a cycle. -/
theorem reports_exact (g : Graph) (calls : List Call) :
    let taken := (afterCalls g calls).1
    let s := (afterCalls g calls).2
    (∀ d ∈ taken ++ s.reports, ∃ entity chain, d = .cycleDetected entity chain ∧
        g.IsLoop entity chain) ∧
      (taken ++ s.reports).Nodup ∧
      (∀ e, s.inCycle e = true → g.OnCycle e ∧ ∃ entity chain, s.cycles.get? e = some chain ∧
        g.IsLoop entity chain ∧ e ∈ chain ∧ .cycleDetected entity chain ∈ taken ++ s.reports) ∧
      (∀ next ∈ calls, ∀ x ∈ next.entities, ∀ c, c = x ∨ g.Reaches x c →
        (g.component c).Nontrivial → ∃ e ∈ g.component c, s.inCycle e = true) ∧
      (s.cycles.isEmpty = true ↔
        ∀ next ∈ calls, ∀ x ∈ next.entities, ¬ g.ReachesCycle x) := by
  intro taken s
  have h : Accounted g taken s := accounted_afterCalls g calls
  have hloops : ∀ e, s.inCycle e = true → ∃ entity chain, s.cycles.get? e = some chain ∧
      g.IsLoop entity chain ∧ e ∈ chain ∧ .cycleDetected entity chain ∈ taken ++ s.reports := by
    intro e he
    obtain ⟨chain, hchain⟩ := Option.isSome_iff_exists.mp he
    obtain ⟨hmem, entity, hreport⟩ := h.cycles e chain hchain
    obtain ⟨entity', chain', -, heq, hloop, -⟩ := h.reports _ hreport
    obtain ⟨rfl, rfl⟩ := Diagnostic.cycleDetected.inj heq
    exact ⟨entity, chain, hchain, hloop, hmem, hreport⟩
  have hcovered : ∀ next ∈ calls, ∀ x ∈ next.entities, ∀ c, c = x ∨ g.Reaches x c →
      (g.component c).Nontrivial → ∃ e ∈ g.component c, s.inCycle e = true := by
    intro next hnext x hx c hc hnontrivial
    apply h.covered c
    · exact (known_afterCalls g calls).mpr ⟨next, hnext, x, hx, hc⟩
    · exact Graph.nontrivial_component_iff.mp hnontrivial
  refine ⟨?_, h.nodup, ?_, hcovered, ?_⟩
  · intro d hd
    obtain ⟨entity, chain, -, hd, hloop, -⟩ := h.reports d hd
    exact ⟨entity, chain, hd, hloop⟩
  · intro e he
    obtain ⟨entity, chain, hchain, hloop, hmem, hreport⟩ := hloops e he
    exact ⟨hloop.onCycle hmem, entity, chain, hchain, hloop, hmem, hreport⟩
  · constructor
    · rintro hempty next hnext x hx ⟨c, hxc, hc⟩
      obtain ⟨e, -, he⟩ := hcovered next hnext x hx c (.inr hxc)
        (Graph.nontrivial_component_iff.mpr hc)
      obtain ⟨chain, hchain⟩ := Option.isSome_iff_exists.mp he
      have hentry := NameMap.mem_entries_of_get? hchain
      rw [List.isEmpty_iff.mp hempty] at hentry
      cases hentry
    · intro hnone
      by_contra hsome
      -- the last step of what was seen starts at an entity that a query has reached
      have hne : s.cycles.entries ≠ [] := fun hnil => hsome (List.isEmpty_iff.mpr hnil)
      obtain ⟨entry, hentry⟩ := List.exists_mem_of_ne_nil _ hne
      obtain ⟨chain, hchain⟩ := NameMap.mem_keys_iff.mp (List.mem_map_of_mem hentry)
      obtain ⟨-, entity, hreport⟩ := h.cycles _ chain hchain
      obtain ⟨entity', chain', child, heq, hloop, hlast, hknows⟩ := h.reports _ hreport
      have hcycle := hloop.onCycle (Graph.mem_of_lastChild? hlast)
      obtain ⟨next, hnext, x, hx, rfl | hreach⟩ := (known_afterCalls g calls).mp hknows
      · exact hnone next hnext child hx hcycle.reachesCycle
      · exact hnone next hnext x hx ⟨child, hreach, hcycle⟩

end Session

end Lineage
