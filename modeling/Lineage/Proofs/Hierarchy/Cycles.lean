import Lineage.Proofs.Hierarchy.Memory
import Mathlib.Data.List.Chain
import Mathlib.Data.Set.Subsingleton

/-!
# Cycles on the way

A walk notes a cycle where a parent is on the trail. The trail is a path of the graph, so what is
noted is a loop: it leads over parent edges from an entity back to it. The last step of a loop
starts at an entity that the walk itself expands, and that tells loops of different walks apart.

No cycle is missed. Of a strongly connected component of which nothing is remembered, some member is
entered first. All the others are reached from there while it is on the trail, and the one that has
it for a parent closes a cycle.

## Main definitions

- `Graph.IsLoop`: a chain of edges from an entity back to it
- `Graph.component`: the strongly connected component of an entity
- `Session.noteAll`: the cycles that a walk notes

## Main statements

- `Session.isLoop_cycleAt`: a parent on the trail closes a loop
- `Session.Walk.exists_notes`: all that a walk notes are loops that it closes itself
- `Session.Walk.inCycle_of_entered`: entering a component, a walk notes a cycle with a member of it
-/

namespace Lineage

namespace Graph

variable {g : Graph} {x y entity e : String} {chain trail : List String}

/-! ## Loops -/

/-- A chain that leads over parent edges from an entity back to it, through at least one other
    entity and through none twice. -/
structure IsLoop (g : Graph) (entity : String) (chain : List String) : Prop where
  exists_inner : ∃ inner, inner ≠ [] ∧ (entity :: inner).Nodup ∧
    chain = entity :: inner ++ [entity]
  edges : chain.IsChain g.IsParent

/-- Every entity on a loop is on a cycle. -/
theorem IsLoop.onCycle (h : g.IsLoop entity chain) (he : e ∈ chain) : g.OnCycle e := by
  obtain ⟨inner, -, -, rfl⟩ := h.exists_inner
  have htrans : Trans g.Reaches g.Reaches g.Reaches := ⟨Reaches.trans⟩
  -- each entity of the chain reaches all that come behind it
  have hreaches : (entity :: (inner ++ [entity])).Pairwise g.Reaches :=
    List.isChain_iff_pairwise.mp (h.edges.imp fun _ _ => IsParent.reaches)
  obtain ⟨hfirst, hrest⟩ := List.pairwise_cons.mp hreaches
  obtain ⟨-, -, hback⟩ := List.pairwise_append.mp hrest
  have hentity : g.OnCycle entity := hfirst entity (by simp)
  rcases List.mem_cons.mp he with rfl | he
  · exact hentity
  · rcases List.mem_append.mp he with hinner | hlast
    · exact (hback e hinner entity (List.mem_singleton.mpr rfl)).trans
        (hfirst e (List.mem_append_left _ hinner))
    · rw [List.mem_singleton.mp hlast]
      exact hentity

/-- The entity from which the last step of a chain starts. -/
def lastChild? (chain : List String) : Option String := chain.dropLast.getLast?

theorem mem_of_lastChild? (h : lastChild? chain = some e) : e ∈ chain :=
  List.dropLast_subset chain (List.mem_of_getLast? h)

/-! ## Trails -/

/-- The entities of a trail are different, and each is a parent of the one behind it. -/
structure IsTrail (g : Graph) (trail : List String) : Prop where
  nodup : trail.Nodup
  edges : trail.IsChain fun inner outer => g.IsParent outer inner

theorem isTrail_singleton (g : Graph) (x : String) : g.IsTrail [x] where
  nodup := List.nodup_singleton x
  edges := List.isChain_singleton x

theorem IsTrail.cons (h : g.IsTrail (x :: trail)) (hparent : g.IsParent x y)
    (hoff : y ∉ x :: trail) : g.IsTrail (y :: x :: trail) where
  nodup := List.nodup_cons.mpr ⟨hoff, h.nodup⟩
  edges := List.isChain_cons_cons.mpr ⟨hparent, h.edges⟩

/-! ## Components -/

/-- The strongly connected component of an entity. -/
def component (g : Graph) (x : String) : Set String := {y | y = x ∨ g.Reaches x y ∧ g.Reaches y x}

theorem mem_component_self (g : Graph) (x : String) : x ∈ g.component x := .inl rfl

/-- A component has several members if and only if they are on a cycle. -/
theorem nontrivial_component_iff : (g.component x).Nontrivial ↔ g.OnCycle x := by
  constructor
  · intro h
    obtain ⟨y, rfl | ⟨hxy, hyx⟩, hne⟩ := h.exists_ne x
    · exact absurd rfl hne
    · exact hxy.trans hyx
  · intro h
    -- the first step of the cycle leads to another member
    obtain ⟨y, hstep, hback⟩ := Relation.TransGen.head'_iff.mp h
    have hne : y ≠ x := hstep.ne
    refine ⟨x, g.mem_component_self x, y, .inr ⟨hstep.reaches, ?_⟩, hne.symm⟩
    rcases Relation.reflTransGen_iff_eq_or_transGen.mp hback with heq | hreach
    · exact absurd heq.symm hne
    · exact hreach

/-- The members of a component have the same component. -/
theorem component_eq_of_mem (h : y ∈ g.component x) : g.component y = g.component x := by
  have hsubset : ∀ {x y}, g.Reaches x y → g.Reaches y x → g.component x ⊆ g.component y := by
    rintro x y hxy hyx z (rfl | ⟨hxz, hzx⟩)
    · exact .inr ⟨hyx, hxy⟩
    · exact .inr ⟨hyx.trans hxz, hzx.trans hxy⟩
  rcases h with rfl | ⟨hxy, hyx⟩
  · rfl
  · exact Set.Subset.antisymm (hsubset hyx hxy) (hsubset hxy hyx)

/-- With one member all of a component lie on a cycle. -/
theorem onCycle_of_mem_component (h : y ∈ g.component x) (hx : g.OnCycle x) : g.OnCycle y := by
  rw [← nontrivial_component_iff, component_eq_of_mem h]
  exact nontrivial_component_iff.mpr hx

end Graph

namespace Session

variable {g : Graph} {s s' : Session} {trail above todo entered : List String}
  {x y e v entity : String} {found found' inside : NameSet} {chain : List String}

/-! ## What a parent on the trail closes -/

/-- What is on the trail from its innermost entity back to another one. -/
theorem exists_cycleAt_eq (hon : y ∈ x :: above) (hne : y ≠ x) :
    ∃ front back, x :: above = x :: front ++ y :: back ∧
      cycleAt (x :: above) y = y :: (x :: front).reverse ++ [y] := by
  obtain ⟨front, back, htrail, hnot⟩ := List.eq_append_cons_of_mem hon
  obtain ⟨front, rfl⟩ : ∃ rest, front = x :: rest := by
    cases front with
    | nil =>
      obtain ⟨heq, -⟩ := List.cons.inj htrail
      exact absurd heq.symm hne
    | cons first rest =>
      obtain ⟨rfl, -⟩ := List.cons.inj htrail
      exact ⟨rest, rfl⟩
  refine ⟨front, back, htrail, ?_⟩
  have hfront : (x :: front ++ y :: back).takeWhile (· ≠ y) = x :: front := by
    rw [List.takeWhile_append_of_pos, List.takeWhile_cons_of_neg, List.append_nil]
    · simp
    · intro z hz
      simpa using ne_of_mem_of_not_mem hz hnot
  rw [cycleAt, htrail, hfront]

/-- A parent of the innermost entity that is on the trail closes a loop. -/
theorem isLoop_cycleAt (htrail : g.IsTrail (x :: above)) (hparent : g.IsParent x y)
    (hon : y ∈ x :: above) : g.IsLoop y (cycleAt (x :: above) y) := by
  obtain ⟨front, back, hsplit, hcycle⟩ := exists_cycleAt_eq hon hparent.ne
  obtain ⟨hnodup, hedges⟩ := htrail
  rw [hsplit] at hnodup hedges
  have hnodup' : (y :: x :: front).Nodup := by
    rw [← List.singleton_append, List.nodup_append_comm]
    exact hnodup.sublist (List.append_sublist_append_left _ |>.mpr (by simp))
  rw [hcycle]
  refine ⟨⟨(x :: front).reverse, by simp, ?_, rfl⟩, ?_⟩
  · rw [List.nodup_cons] at hnodup' ⊢
    rw [List.mem_reverse, List.nodup_reverse]
    exact hnodup'
  · -- backwards it is the trail with the new edge in front
    have hforward :
        (y :: (x :: front ++ [y])).IsChain fun inner outer => g.IsParent outer inner := by
      refine List.isChain_cons_cons.mpr ⟨hparent, hedges.prefix ⟨back, ?_⟩⟩
      simp
    have hreverse : y :: (x :: front).reverse ++ [y] = (y :: (x :: front ++ [y])).reverse := by
      simp
    rw [hreverse, List.isChain_reverse]
    exact hforward

/-- Its last step starts at the innermost entity. -/
theorem lastChild?_cycleAt (hon : y ∈ x :: above) (hne : y ≠ x) :
    Graph.lastChild? (cycleAt (x :: above) y) = some x := by
  obtain ⟨front, back, -, hcycle⟩ := exists_cycleAt_eq hon hne
  rw [hcycle, Graph.lastChild?, List.dropLast_concat, List.reverse_cons, ← List.cons_append,
    List.getLast?_concat]

/-! ## Notes -/

theorem mem_reports_noteCycle {d : Diagnostic} :
    d ∈ (s.noteCycle entity chain).reports ↔ d ∈ s.reports ∨ d = .cycleDetected entity chain := by
  simp only [noteCycle]
  split
  · rename_i hold
    constructor
    · exact .inl
    · rintro (hd | rfl)
      · exact hd
      · exact hold
  · rw [List.mem_append, List.mem_singleton]

theorem nodup_reports_noteCycle (h : s.reports.Nodup) :
    (s.noteCycle entity chain).reports.Nodup := by
  simp only [noteCycle]
  split
  · exact h
  · rename_i hnew
    refine List.nodup_append.mpr ⟨h, List.nodup_singleton _, ?_⟩
    rintro d hd other hother rfl
    rw [List.mem_singleton.mp hother] at hd
    exact hnew hd

theorem get?_cycles_noteCycle :
    (s.noteCycle entity chain).cycles.get? e
      = (s.cycles.get? e).or (if e ∈ chain then some chain else none) :=
  NameMap.get?_foldl_insertNew chain

theorem inCycle_noteCycle :
    (s.noteCycle entity chain).inCycle e = true ↔ s.inCycle e = true ∨ e ∈ chain := by
  rw [inCycle, inCycle, NameMap.contains, NameMap.contains, get?_cycles_noteCycle]
  cases s.cycles.get? e <;> simp

/-- Notes cycles, each with the entity at which it starts. -/
def noteAll (s : Session) (loops : List (String × List String)) : Session :=
  loops.foldl (fun s l => s.noteCycle l.1 l.2) s

theorem noteAll_append (loops later : List (String × List String)) :
    s.noteAll (loops ++ later) = (s.noteAll loops).noteAll later :=
  List.foldl_append

/-- The session with other lists. -/
def withKnown (s : Session) (known : NameMap NameSet) : Session := { s with known }

/-- To remember lists and to note cycles have nothing to do with each other. -/
theorem noteAll_withKnown (known : NameMap NameSet) (loops : List (String × List String)) :
    (s.withKnown known).noteAll loops = (s.noteAll loops).withKnown known := by
  induction loops generalizing s with
  | nil => rfl
  | cons l rest ih => exact ih (s := s.noteCycle l.1 l.2)

theorem mem_reports_noteAll {loops : List (String × List String)} {d : Diagnostic} :
    d ∈ (s.noteAll loops).reports ↔ d ∈ s.reports ∨ ∃ l ∈ loops, d = .cycleDetected l.1 l.2 := by
  induction loops generalizing s with
  | nil => simp [noteAll]
  | cons l rest ih =>
    rw [noteAll, List.foldl_cons, ← noteAll, ih, mem_reports_noteCycle, or_assoc]
    simp

theorem nodup_reports_noteAll {loops : List (String × List String)} (h : s.reports.Nodup) :
    (s.noteAll loops).reports.Nodup := by
  induction loops generalizing s with
  | nil => exact h
  | cons l rest ih => exact ih (nodup_reports_noteCycle h)

theorem inCycle_noteAll {loops : List (String × List String)} :
    (s.noteAll loops).inCycle e = true ↔ s.inCycle e = true ∨ ∃ l ∈ loops, e ∈ l.2 := by
  induction loops generalizing s with
  | nil => simp [noteAll]
  | cons l rest ih =>
    rw [noteAll, List.foldl_cons, ← noteAll, ih, inCycle_noteCycle, or_assoc]
    simp

/-- What an entity is seen on is a cycle through it that was noted now or before. -/
theorem get?_cycles_noteAll {loops : List (String × List String)}
    (h : (s.noteAll loops).cycles.get? e = some chain) :
    s.cycles.get? e = some chain ∨ ∃ l ∈ loops, l.2 = chain ∧ e ∈ chain := by
  induction loops generalizing s with
  | nil => exact .inl h
  | cons l rest ih =>
    rcases ih h with hfirst | ⟨l', hl', hchain⟩
    · rw [get?_cycles_noteCycle] at hfirst
      cases hold : s.cycles.get? e with
      | some old =>
        rw [hold] at hfirst
        exact .inl hfirst
      | none =>
        rw [hold, Option.none_or] at hfirst
        split at hfirst
        · rename_i hmem
          obtain rfl := Option.some.inj hfirst
          exact .inr ⟨l, List.mem_cons_self .., rfl, hmem⟩
        · cases hfirst
    · exact .inr ⟨l', List.mem_cons_of_mem _ hl', hchain⟩

namespace Walk

/-! ## What a walk notes -/

/-- A loop that a walk closes: its last step starts at an entity whose parents the walk looks at. -/
structure Closes (g : Graph) (expanded : List String) (l : String × List String) : Prop where
  isLoop : g.IsLoop l.1 l.2
  exists_child : ∃ child ∈ expanded, Graph.lastChild? l.2 = some child

theorem Closes.mono {expanded expanded' : List String} {l : String × List String}
    (h : Closes g expanded l) (hsubset : expanded ⊆ expanded') : Closes g expanded' l := by
  obtain ⟨child, hchild, hlast⟩ := h.exists_child
  exact ⟨h.isLoop, child, hsubset hchild, hlast⟩

/-- A walk over parents of the innermost entity of a trail does nothing but remember lists and note
    loops that it closes itself. -/
theorem exists_notes (h : Walk g trail todo found s entered found' s') {x : String}
    {above : List String} (hsplit : trail = x :: above) (htrail : g.IsTrail trail)
    (htodo : ∀ q ∈ todo, g.IsParent x q) :
    ∃ loops known, s' = (s.noteAll loops).withKnown known ∧
      ∀ l ∈ loops, Closes g (x :: entered) l := by
  induction h generalizing x above with
  | done trail found s => exact ⟨[], s.known, rfl, by simp⟩
  | known _ _ ih => exact ih hsplit htrail fun q hq => htodo q (List.mem_cons_of_mem _ hq)
  | @closing _ parent rest _ _ s s' entered hnew hon _ ih =>
    subst hsplit
    have hparent : g.IsParent x parent := htodo parent (List.mem_cons_self ..)
    obtain ⟨loops, known, hs', hloops⟩ :=
      ih rfl htrail fun q hq => htodo q (List.mem_cons_of_mem _ hq)
    refine ⟨(parent, cycleAt (x :: above) parent) :: loops, known, hs', fun l hl => ?_⟩
    rcases List.mem_cons.mp hl with rfl | hl
    · exact ⟨isLoop_cycleAt htrail hparent hon, x, List.mem_cons_self ..,
        lastChild?_cycleAt hon hparent.ne⟩
    · exact hloops l hl
  | @entering _ parent rest _ inside _ s s₁ s' below entered hnew hoff _ _ ihinner ihtail =>
    subst hsplit
    have hparent : g.IsParent x parent := htodo parent (List.mem_cons_self ..)
    obtain ⟨loops₁, _, rfl, hloops₁⟩ := ihinner rfl (htrail.cons hparent hoff) fun q hq => hq
    obtain ⟨loops₂, known, rfl, hloops₂⟩ :=
      ihtail rfl htrail fun q hq => htodo q (List.mem_cons_of_mem _ hq)
    refine ⟨loops₁ ++ loops₂, known, ?_, fun l hl => ?_⟩
    · have hremember : ∀ t : Session, t.remember parent inside
          = t.withKnown (t.known.insert parent (inside.erase parent)) := fun _ => rfl
      rw [noteAll_append, hremember, noteAll_withKnown, noteAll_withKnown]
      rfl
    · rcases List.mem_append.mp hl with hl | hl
      · exact (hloops₁ l hl).mono fun e he =>
          List.mem_cons_of_mem _ (List.mem_append_left _ he)
      · exact (hloops₂ l hl).mono (List.cons_subset_cons _ (List.subset_append_right ..))

/-! ## No component is missed -/

/-- An entity that was seen on a cycle stays one. -/
theorem inCycle_mono (h : Walk g trail todo found s entered found' s')
    (he : s.inCycle e = true) : s'.inCycle e = true := by
  induction h with
  | done => exact he
  | known _ _ ih => exact ih he
  | closing _ _ _ ih => exact ih (inCycle_noteCycle.mpr (.inl he))
  | entering _ _ _ _ ihinner ihtail => exact ihtail (ihinner he)

/-- Looking at an entity of the trail, a walk notes a cycle with it. -/
theorem inCycle_of_sees (h : Walk g trail todo found s entered found' s') (hv : v ∈ trail)
    (hnew : ¬ s.Knows v) (hsees : Sees g todo entered v) : s'.inCycle v = true := by
  induction h with
  | done => simp [Sees] at hsees
  | known hknown _ ih =>
    rcases sees_cons.mp hsees with rfl | hsees
    · exact absurd ⟨_, hknown⟩ hnew
    · exact ih hv hnew hsees
  | closing _ _ tail ih =>
    rcases sees_cons.mp hsees with rfl | hsees
    · apply tail.inCycle_mono
      rw [inCycle_noteCycle, cycleAt]
      simp
    · exact ih hv hnew hsees
  | entering _ hoff inner tail ihinner ihtail =>
    rcases sees_entering.mp hsees with rfl | hsees | hsees
    · exact absurd hv hoff
    · exact tail.inCycle_mono (ihinner (List.mem_cons_of_mem _ hv) hnew hsees)
    · apply ihtail hv _ hsees
      -- what is on the trail is not remembered before its walk ends
      rw [knows_remember, inner.knows_iff]
      rintro (rfl | hknows | hbelow)
      · exact hoff hv
      · exact hnew hknows
      · exact (inner.of_mem_entered hbelow).2 (List.mem_cons_of_mem _ hv)

/-- The first member of a component to be entered is seen on a cycle: the walk from there enters the
    other members, and one of them has it for a parent. -/
theorem inCycle_innermost (h : Walk g (x :: above) (g.parentsOf x).toList found s entered found' s')
    (hcycle : g.OnCycle x) (habove : ∀ e ∈ above, g.Reaches e x)
    (hfirst : ∀ e ∈ g.component x, ¬ s.Knows e ∧ e ∉ above) : s'.inCycle x = true := by
  -- the last step of the cycle
  obtain ⟨w, hback, hstep⟩ := Relation.TransGen.tail'_iff.mp hcycle
  have hreach : g.Reaches x w := by
    rcases Relation.reflTransGen_iff_eq_or_transGen.mp hback with heq | hreach
    · exact absurd heq.symm hstep.ne
    · exact hreach
  have hout : ∀ e ∈ above, ¬ g.Reaches x e :=
    fun e he hxe => (hfirst e (.inr ⟨hxe, habove e he⟩)).2 he
  have hentered : w ∈ entered := by
    rcases h.covers hout hreach with heq | hentered | ⟨t, list, -, hlist, hxt, hbehind⟩
    · exact absurd heq.symm hstep.ne
    · exact hentered
    · -- what lies between the two is in the component, so nothing of it is remembered
      have htx : g.Reaches t x := by
        rcases hbehind with rfl | htw
        · exact hstep.reaches
        · exact htw.trans hstep.reaches
      exact absurd ⟨list, hlist⟩ (hfirst t (.inr ⟨hxt, htx⟩)).1
  apply h.inCycle_of_sees (List.mem_cons_self ..) (hfirst x (g.mem_component_self x)).1
  exact .inr ⟨w, hentered, hstep⟩

/-- A walk that enters a component of which nothing is remembered and nothing is on the trail notes
    a cycle with a member of it. -/
theorem inCycle_of_entered (h : Walk g trail todo found s entered found' s') {c : String}
    (hcycle : g.OnCycle c) (htrail : ∀ e ∈ trail, ∀ q ∈ todo, g.Reaches e q)
    (hfirst : ∀ e ∈ g.component c, ¬ s.Knows e ∧ e ∉ trail)
    (hentered : ∃ e ∈ g.component c, e ∈ entered) : ∃ e ∈ g.component c, s'.inCycle e = true := by
  induction h with
  | done =>
    obtain ⟨e, -, he⟩ := hentered
    cases he
  | known _ _ ih =>
    exact ih (fun e he q hq => htrail e he q (List.mem_cons_of_mem _ hq)) hfirst hentered
  | closing _ _ _ ih =>
    exact ih (fun e he q hq => htrail e he q (List.mem_cons_of_mem _ hq)) hfirst hentered
  | @entering trail parent rest _ _ _ s s₁ s' below entered _ hoff inner tail ihinner ihtail =>
    have hparent : ∀ e ∈ trail, g.Reaches e parent :=
      fun e he => htrail e he parent (List.mem_cons_self ..)
    by_cases hmember : parent ∈ g.component c
    · -- the parent is the first member
      refine ⟨parent, hmember, tail.inCycle_mono ?_⟩
      apply inner.inCycle_innermost (Graph.onCycle_of_mem_component hmember hcycle) hparent
      rw [Graph.component_eq_of_mem hmember]
      exact hfirst
    · by_cases hinside : ∃ e ∈ g.component c, e ∈ below
      · have hfirst' : ∀ e ∈ g.component c, ¬ s.Knows e ∧ e ∉ parent :: trail := by
          intro e he
          obtain ⟨hunknown, hoff⟩ := hfirst e he
          have hne : e ≠ parent := ne_of_mem_of_not_mem he hmember
          exact ⟨hunknown, List.not_mem_cons_of_ne_of_not_mem hne hoff⟩
        obtain ⟨e, he, hin⟩ := ihinner (Graph.reaches_of_trail hparent) hfirst' hinside
        exact ⟨e, he, tail.inCycle_mono hin⟩
      · -- nothing of it was entered yet when the walk goes on
        apply ihtail (fun e he q hq => htrail e he q (List.mem_cons_of_mem _ hq))
        · intro e he
          refine ⟨?_, (hfirst e he).2⟩
          rw [knows_remember, inner.knows_iff]
          rintro (rfl | hknows | hbelow)
          · exact hmember he
          · exact (hfirst e he).1 hknows
          · exact hinside ⟨e, he, hbelow⟩
        · obtain ⟨e, he, hmem⟩ := hentered
          refine ⟨e, he, ?_⟩
          rcases List.mem_append.mp hmem with hmem | hmem
          · rcases List.mem_cons.mp hmem with rfl | hbelow
            · exact absurd he hmember
            · exact absurd ⟨e, he, hbelow⟩ hinside
          · exact hmem

end Walk

end Session

end Lineage
