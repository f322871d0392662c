import Lineage.Proofs.Hierarchy.Walk

/-!
# What a session remembers

A session remembers a list for every entity that it has expanded. While a walk is on its way, some
of these lists are made without what is reachable only through the trail, so they may lack entities.
What is said here of the lists holds at every moment of every walk: they hold the direct parents and
only reachable entities, and an entity that is on no cycle has a complete list unless it relies on
the incomplete list of an entity that is on one.

## Main definitions

- `Session.Sees`: the parents that a walk looks at
- `Session.Lacks`: an entity that is missing in a remembered list
- `Session.Faithful`: what holds of the remembered lists
- `Session.Settled`: the lists between two queries

## Main statements

- `Session.Walk.lacks_of_notMem`: what a walk does not find, a list lacked before
- `Session.Walk.faithful`: walks keep the lists faithful
- `Session.Settled.remember`: so do queries
-/

namespace Lineage

namespace Session

variable {g : Graph} {s s' s₁ : Session} {trail above todo entered : List String}
  {x y e q : String} {found found' list inside : NameSet}

/-! ## What a walk looks at -/

/-- A walk looks at the parents that it starts with and at those of the entities that it enters. -/
def Sees (g : Graph) (todo entered : List String) (q : String) : Prop :=
  q ∈ todo ∨ ∃ e ∈ entered, g.IsParent e q

theorem sees_cons {parent : String} {rest : List String} :
    Sees g (parent :: rest) entered q ↔ q = parent ∨ Sees g rest entered q := by
  rw [Sees, Sees, List.mem_cons, or_assoc]

/-- Entering a parent, a walk also looks at what the walk from there looks at. -/
theorem sees_entering {parent : String} {rest below : List String} :
    Sees g (parent :: rest) (parent :: below ++ entered) q ↔
      q = parent ∨ Sees g (g.parentsOf parent).toList below q ∨ Sees g rest entered q := by
  simp only [Sees, List.mem_cons, List.mem_append, Graph.mem_parentsOf]
  constructor
  · rintro ((h | h) | ⟨e, (rfl | h) | h, hq⟩)
    · exact .inl h
    · exact .inr (.inr (.inl h))
    · exact .inr (.inl (.inl hq))
    · exact .inr (.inl (.inr ⟨e, h, hq⟩))
    · exact .inr (.inr (.inr ⟨e, h, hq⟩))
  · rintro (h | (h | ⟨e, h, hq⟩) | h | ⟨e, h, hq⟩)
    · exact .inl (.inl h)
    · exact .inr ⟨parent, .inl (.inl rfl), h⟩
    · exact .inr ⟨e, .inl (.inr h), hq⟩
    · exact .inl (.inr h)
    · exact .inr ⟨e, .inr h, hq⟩

namespace Walk

/-! ## What becomes of the session -/

/-- A list that is remembered stays as it is. -/
theorem get?_of_get? (h : Walk g trail todo found s entered found' s')
    (hlist : s.known.get? e = some list) : s'.known.get? e = some list := by
  induction h with
  | done => exact hlist
  | known _ _ ih => exact ih hlist
  | closing _ _ _ ih => exact ih hlist
  | entering hnew _ _ _ ihinner ihtail =>
    apply ihtail
    -- the entity that is remembered now is another one
    rw [get?_remember, if_neg]
    · exact ihinner hlist
    · rintro rfl
      rw [hnew] at hlist
      cases hlist

/-- A walk enters what is neither remembered nor on the trail. -/
theorem of_mem_entered (h : Walk g trail todo found s entered found' s') (he : e ∈ entered) :
    ¬ s.Knows e ∧ e ∉ trail := by
  induction h with
  | done => cases he
  | known _ _ ih => exact ih he
  | closing _ _ _ ih => exact ih he
  | entering hnew hoff inner _ ihinner ihtail =>
    rcases List.mem_append.mp he with hfirst | hlater
    · rcases List.mem_cons.mp hfirst with rfl | hbelow
      · exact ⟨not_knows_iff.mpr hnew, hoff⟩
      · obtain ⟨hunknown, htrail⟩ := ihinner hbelow
        exact ⟨hunknown, fun hmem => htrail (List.mem_cons_of_mem _ hmem)⟩
    · obtain ⟨hunknown, htrail⟩ := ihtail hlater
      refine ⟨?_, htrail⟩
      rintro ⟨list, hlist⟩
      exact hunknown (knows_remember.mpr (.inr ⟨list, inner.get?_of_get? hlist⟩))

/-- What a walk enters it remembers in the end, and nothing else is new. -/
theorem knows_iff (h : Walk g trail todo found s entered found' s') :
    s'.Knows e ↔ s.Knows e ∨ e ∈ entered := by
  induction h with
  | done => simp
  | known _ _ ih => exact ih
  | closing _ _ _ ih => exact ih
  | entering _ _ _ _ ihinner ihtail =>
    rw [ihtail, knows_remember, ihinner, List.mem_append, List.mem_cons]
    tauto

/-- No entity is entered twice. -/
theorem nodup_entered (h : Walk g trail todo found s entered found' s') : entered.Nodup := by
  induction h with
  | done => exact List.nodup_nil
  | known _ _ ih => exact ih
  | closing _ _ _ ih => exact ih
  | @entering _ parent _ _ _ _ _ _ _ below _ _ _ inner tail ihinner ihtail =>
    have hparent : parent ∉ below := by
      intro hbelow
      exact (inner.of_mem_entered hbelow).2 (List.mem_cons_self ..)
    refine List.nodup_append.mpr ⟨List.nodup_cons.mpr ⟨hparent, ihinner⟩, ihtail, ?_⟩
    -- what was entered before is remembered when the walk goes on
    rintro first hfirst later hlater rfl
    apply (tail.of_mem_entered hlater).1
    rw [knows_remember, inner.knows_iff]
    rcases List.mem_cons.mp hfirst with rfl | hbelow
    · exact .inl rfl
    · exact .inr (.inr hbelow)

/-! ## What is found -/

/-- What was found stays found. -/
theorem mem_of_mem (h : Walk g trail todo found s entered found' s') (hy : y ∈ found) :
    y ∈ found' := by
  induction h with
  | done => exact hy
  | known _ _ ih => exact ih (by simp [hy])
  | closing _ _ _ ih => exact ih (by simp [hy])
  | entering _ _ _ _ _ ihtail => exact ihtail (by simp [hy])

/-- What the walk from a parent finds is passed on, for the parent itself is found as well. -/
theorem mem_union_erase {parent : String} (hy : y ∈ inside) :
    y ∈ (found.insert parent).union (inside.erase parent) := by
  by_cases heq : y = parent <;> simp [heq, hy]

/-- A walk finds all that it looks at. -/
theorem mem_of_sees (h : Walk g trail todo found s entered found' s')
    (hq : Sees g todo entered q) : q ∈ found' := by
  induction h with
  | done => simp [Sees] at hq
  | known _ tail ih =>
    rcases sees_cons.mp hq with rfl | hq
    · exact tail.mem_of_mem (by simp)
    · exact ih hq
  | closing _ _ tail ih =>
    rcases sees_cons.mp hq with rfl | hq
    · exact tail.mem_of_mem (by simp)
    · exact ih hq
  | entering _ _ _ tail ihinner ihtail =>
    rcases sees_entering.mp hq with rfl | hq | hq
    · exact tail.mem_of_mem (by simp)
    · exact tail.mem_of_mem (mem_union_erase (ihinner hq))
    · exact ihtail hq

/-- A walk finds all that was remembered for what it looks at. -/
theorem mem_of_sees_of_get? (h : Walk g trail todo found s entered found' s')
    (hq : Sees g todo entered q) (hlist : s.known.get? q = some list) (hy : y ∈ list) :
    y ∈ found' := by
  induction h with
  | done => simp [Sees] at hq
  | known hknown tail ih =>
    rcases sees_cons.mp hq with rfl | hq
    · rw [hknown] at hlist
      cases hlist
      exact tail.mem_of_mem (by simp [hy])
    · exact ih hq hlist
  | closing hnew _ _ ih =>
    -- a parent on the trail has no list yet
    rcases sees_cons.mp hq with rfl | hq
    · rw [hnew] at hlist
      cases hlist
    · exact ih hq hlist
  | entering hnew _ inner tail ihinner ihtail =>
    rcases sees_entering.mp hq with rfl | hq | hq
    · rw [hnew] at hlist
      cases hlist
    · exact tail.mem_of_mem (mem_union_erase (ihinner hq hlist))
    · apply ihtail hq
      rw [get?_remember, if_neg]
      · exact inner.get?_of_get? hlist
      · rintro rfl
        rw [hnew] at hlist
        cases hlist

/-- What a walk enters is one of the things that it looks at. -/
theorem sees_of_mem_entered (h : Walk g trail todo found s entered found' s')
    (he : e ∈ entered) : Sees g todo entered e := by
  induction h with
  | done => cases he
  | known _ _ ih => exact sees_cons.mpr (.inr (ih he))
  | closing _ _ _ ih => exact sees_cons.mpr (.inr (ih he))
  | entering _ _ _ _ ihinner ihtail =>
    rw [sees_entering]
    rcases List.mem_append.mp he with hfirst | hlater
    · rcases List.mem_cons.mp hfirst with rfl | hbelow
      · exact .inl rfl
      · exact .inr (.inl (ihinner hbelow))
    · exact .inr (.inr (ihtail hlater))

/-- What a walk looks at is remembered in the end, unless it is still on the trail. -/
theorem knows_or_mem_of_sees (h : Walk g trail todo found s entered found' s')
    (hq : Sees g todo entered q) : s'.Knows q ∨ q ∈ trail := by
  induction h with
  | done => simp [Sees] at hq
  | known hknown tail ih =>
    rcases sees_cons.mp hq with rfl | hq
    · exact .inl ⟨_, tail.get?_of_get? hknown⟩
    · exact ih hq
  | closing _ hon _ ih =>
    rcases sees_cons.mp hq with rfl | hq
    · exact .inr hon
    · exact ih hq
  | entering _ _ _ tail ihinner ihtail =>
    rcases sees_entering.mp hq with rfl | hq | hq
    · exact .inl (tail.knows_iff.mpr (.inl (knows_remember.mpr (.inl rfl))))
    · rcases ihinner hq with hknows | hmem
      · exact .inl (tail.knows_iff.mpr (.inl (knows_remember.mpr (.inr hknows))))
      · rcases List.mem_cons.mp hmem with rfl | hmem
        · exact .inl (tail.knows_iff.mpr (.inl (knows_remember.mpr (.inl rfl))))
        · exact .inr hmem
    · exact ihtail hq

/-- An entity whose parents are walked over is not remembered before the walk ends. -/
theorem not_knows_innermost (h : Walk g (x :: above) todo found s entered found' s')
    (hnew : ¬ s.Knows x) : ¬ s'.Knows x := by
  rw [h.knows_iff, not_or]
  refine ⟨hnew, fun hentered => ?_⟩
  exact (h.of_mem_entered hentered).2 (List.mem_cons_self ..)

/-- Whatever the parents of an entity lead to is entered, or it lies at or behind something that was
    remembered before, unless the way leads back to the trail. -/
theorem covers (h : Walk g (x :: above) (g.parentsOf x).toList found s entered found' s')
    (habove : ∀ e ∈ above, ¬ g.Reaches x e) (hreach : g.Reaches x y) :
    y = x ∨ y ∈ entered ∨ ∃ t list, Sees g (g.parentsOf x).toList entered t ∧
      s.known.get? t = some list ∧ g.Reaches x t ∧ (y = t ∨ g.Reaches t y) := by
  -- a parent that is looked at is entered unless it was remembered before
  have hseen : ∀ z, Sees g (g.parentsOf x).toList entered z → g.Reaches x z →
      z = x ∨ z ∈ entered ∨ ∃ t list, Sees g (g.parentsOf x).toList entered t ∧
        s.known.get? t = some list ∧ g.Reaches x t ∧ (z = t ∨ g.Reaches t z) := by
    intro z hsees hz
    rcases h.knows_or_mem_of_sees hsees with hknows | htrail
    · rcases h.knows_iff.mp hknows with ⟨list, hlist⟩ | hentered
      · exact .inr (.inr ⟨z, list, hsees, hlist, hz, .inl rfl⟩)
      · exact .inr (.inl hentered)
    · rcases List.mem_cons.mp htrail with heq | hmem
      · exact .inl heq
      · exact absurd hz (habove z hmem)
  induction hreach with
  | single hstep => exact hseen _ (.inl hstep) (Graph.IsParent.reaches hstep)
  | tail hbefore hstep ih =>
    have hz := Graph.Reaches.trans hbefore (Graph.IsParent.reaches hstep)
    rcases ih with rfl | hentered | ⟨t, list, hsees, hlist, ht, hbehind⟩
    · exact hseen _ (.inl hstep) hz
    · exact hseen _ (.inr ⟨_, hentered, hstep⟩) hz
    · refine .inr (.inr ⟨t, list, hsees, hlist, ht, .inr ?_⟩)
      rcases hbehind with rfl | hreaches
      · exact Graph.IsParent.reaches hstep
      · exact Graph.Reaches.trans hreaches (Graph.IsParent.reaches hstep)

end Walk

/-! ## Faithful lists -/

/-- The list remembered for an entity lacks another entity that is reachable from it. -/
def Lacks (g : Graph) (s : Session) (e y : String) : Prop :=
  ∃ list, s.known.get? e = some list ∧ g.Reaches e y ∧ y ≠ e ∧ y ∉ list

/-- The remembered lists hold only what is reachable. -/
def Sound (g : Graph) (s : Session) : Prop :=
  ∀ e list y, s.known.get? e = some list → y ∈ list → g.Reaches e y

theorem Sound.remember (hs : s.Sound g) (hfound : ∀ y ∈ found, g.Reaches x y) :
    (s.remember x found).Sound g := by
  intro e list y hlist hy
  rcases eq_or_get?_of_get?_remember hlist with ⟨rfl, rfl⟩ | hlist
  · exact hfound y (NameSet.mem_erase.mp hy).1
  · exact hs e list y hlist hy

/-- What holds of the remembered lists at every moment of a walk. -/
structure Faithful (g : Graph) (s : Session) : Prop where
  sound : s.Sound g
  notMem_self : ∀ e list, s.known.get? e = some list → e ∉ list
  parents : ∀ e list q, s.known.get? e = some list → g.IsParent e q → q ∈ list
  /-- Only entities on cycles have lists of their own that lack something. -/
  lacks : ∀ e y, s.Lacks g e y → ¬ g.OnCycle e →
    ∃ c, g.OnCycle c ∧ g.Reaches e c ∧ s.Lacks g c y

/-- Where a list lacks something, the list of an entity on a cycle lacks it. -/
theorem Faithful.exists_onCycle (hs : s.Faithful g) (h : s.Lacks g e y) :
    ∃ c, g.OnCycle c ∧ (c = e ∨ g.Reaches e c) ∧ s.Lacks g c y := by
  by_cases hcycle : g.OnCycle e
  · exact ⟨e, hcycle, .inl rfl, h⟩
  · obtain ⟨c, hc, hreach, hlacks⟩ := hs.lacks e y h hcycle
    exact ⟨c, hc, .inr hreach, hlacks⟩

/-- What a list lacks it lacks for ever. -/
theorem Lacks.mono (h : s.Lacks g e y)
    (hkeeps : ∀ list, s.known.get? e = some list → s'.known.get? e = some list) :
    s'.Lacks g e y := by
  obtain ⟨list, hlist, hrest⟩ := h
  exact ⟨list, hkeeps list hlist, hrest⟩

theorem get?_remember_of_get? (hnew : ¬ s.Knows x) (hlist : s.known.get? e = some list) :
    (s.remember x found).known.get? e = some list := by
  rw [get?_remember, if_neg]
  · exact hlist
  · rintro rfl
    exact hnew ⟨list, hlist⟩

namespace Walk

/-- What a walk does not find of the ancestors of an entity, some list lacked before. -/
theorem lacks_of_notMem (h : Walk g (x :: above) (g.parentsOf x).toList found s entered inside s')
    (habove : ∀ e ∈ above, ¬ g.Reaches x e) (hreach : g.Reaches x y) (hne : y ≠ x)
    (hmiss : y ∉ inside) : ∃ t, g.Reaches x t ∧ s.Lacks g t y := by
  rcases h.covers habove hreach with heq | hentered | ⟨t, list, hsees, hlist, ht, hbehind⟩
  · exact absurd heq hne
  · -- what is entered is found
    exact absurd (h.mem_of_sees (h.sees_of_mem_entered hentered)) hmiss
  · have hother : y ≠ t := by
      rintro rfl
      exact hmiss (h.mem_of_sees hsees)
    refine ⟨t, ht, list, hlist, hbehind.resolve_left hother, hother, fun hmem => ?_⟩
    exact hmiss (h.mem_of_sees_of_get? hsees hlist hmem)

/-- One parent adds itself and only what is reachable from it. -/
theorem mem_or_reaches_cons {parent : String} {rest : List String} {next : NameSet}
    (hnext : ∀ y ∈ next, y = parent ∨ y ∈ found ∨ g.Reaches parent y)
    (hy : y ∈ next ∨ ∃ p ∈ rest, y = p ∨ g.Reaches p y) :
    y ∈ found ∨ ∃ p ∈ parent :: rest, y = p ∨ g.Reaches p y := by
  rcases hy with hmem | ⟨p, hp, hreach⟩
  · rcases hnext y hmem with heq | hold | hreach
    · exact .inr ⟨parent, List.mem_cons_self .., .inl heq⟩
    · exact .inl hold
    · exact .inr ⟨parent, List.mem_cons_self .., .inr hreach⟩
  · exact .inr ⟨p, List.mem_cons_of_mem _ hp, hreach⟩

/-- A walk finds only what is reachable from the parents that it starts with. -/
theorem sound (h : Walk g trail todo found s entered found' s') (hs : s.Sound g) :
    s'.Sound g ∧ ∀ y ∈ found', y ∈ found ∨ ∃ p ∈ todo, y = p ∨ g.Reaches p y := by
  induction h with
  | done => exact ⟨hs, fun y hy => .inl hy⟩
  | @known _ parent _ _ list _ _ _ _ hknown _ ih =>
    obtain ⟨hsound, hfound⟩ := ih hs
    -- the list of a remembered parent holds only what is reachable from it
    refine ⟨hsound, fun y hy => mem_or_reaches_cons (fun z hz => ?_) (hfound y hy)⟩
    simp only [NameSet.mem_union, NameSet.mem_insert, or_assoc] at hz
    exact hz.imp_right (.imp_right (hs parent list z hknown))
  | closing _ _ _ ih =>
    obtain ⟨hsound, hfound⟩ := ih hs
    refine ⟨hsound, fun y hy => mem_or_reaches_cons (fun z hz => ?_) (hfound y hy)⟩
    exact (NameSet.mem_insert.mp hz).imp_right .inl
  | @entering _ parent _ _ inside _ _ s₁ _ _ _ _ _ _ _ ihinner ihtail =>
    obtain ⟨hsound₁, hinside⟩ := ihinner hs
    have hparent : ∀ y ∈ inside, g.Reaches parent y := by
      intro y hy
      apply Graph.reaches_of_exists_parent
      exact (hinside y hy).resolve_left (NameSet.notMem_empty y)
    obtain ⟨hsound, hfound⟩ := ihtail (hsound₁.remember hparent)
    refine ⟨hsound, fun y hy => mem_or_reaches_cons (fun z hz => ?_) (hfound y hy)⟩
    simp only [NameSet.mem_union, NameSet.mem_insert, NameSet.mem_erase, or_assoc] at hz
    exact hz.imp_right (.imp_right fun hmem => hparent z hmem.1)

theorem reaches_of_mem (h : Walk g (x :: above) (g.parentsOf x).toList ∅ s entered inside s')
    (hs : s.Sound g) (hy : y ∈ inside) : g.Reaches x y := by
  apply Graph.reaches_of_exists_parent
  exact ((h.sound hs).2 y hy).resolve_left (NameSet.notMem_empty y)

end Walk

/-- An entity whose parents were walked over can be remembered. If it is on no cycle, no entity of
    the trail above it is reachable, so the walk misses only what the lists that it relies on
    lack. -/
theorem Faithful.remember (hs : s.Faithful g) (hs₁ : s₁.Faithful g)
    (h : Walk g (x :: above) (g.parentsOf x).toList ∅ s entered inside s₁) (hnew : ¬ s.Knows x)
    (habove : ∀ e ∈ above, g.Reaches e x) : (s₁.remember x inside).Faithful g := by
  have hkeeps₁ : ∀ e list, s₁.known.get? e = some list →
      (s₁.remember x inside).known.get? e = some list :=
    fun e list => get?_remember_of_get? (h.not_knows_innermost hnew)
  have hkeeps : ∀ e list, s.known.get? e = some list →
      (s₁.remember x inside).known.get? e = some list :=
    fun e list hlist => hkeeps₁ e list (h.get?_of_get? hlist)
  refine ⟨hs₁.sound.remember fun y => h.reaches_of_mem hs.sound, ?_, ?_, ?_⟩
  · intro e list hlist
    rcases eq_or_get?_of_get?_remember hlist with ⟨rfl, rfl⟩ | hlist
    · simp
    · exact hs₁.notMem_self e list hlist
  · intro e list q hlist hq
    rcases eq_or_get?_of_get?_remember hlist with ⟨rfl, rfl⟩ | hlist
    · exact NameSet.mem_erase.mpr ⟨h.mem_of_sees (.inl hq), hq.ne⟩
    · exact hs₁.parents e list q hlist hq
  · rintro e y ⟨list, hlist, hreach, hne, hmiss⟩ hoff
    rcases eq_or_get?_of_get?_remember hlist with ⟨rfl, rfl⟩ | hlist
    · -- a way back to the trail would put the entity on a cycle
      have hout : ∀ t ∈ above, ¬ g.Reaches e t :=
        fun t ht hback => hoff (hback.trans (habove t ht))
      have hinside : y ∉ inside := fun hmem => hmiss (NameSet.mem_erase.mpr ⟨hmem, hne⟩)
      obtain ⟨t, ht, hlacks⟩ := h.lacks_of_notMem hout hreach hne hinside
      obtain ⟨c, hc, htc, hlacks'⟩ := hs.exists_onCycle hlacks
      refine ⟨c, hc, ?_, hlacks'.mono (hkeeps c)⟩
      rcases htc with rfl | htc
      · exact ht
      · exact ht.trans htc
    · obtain ⟨c, hc, hec, hlacks⟩ := hs₁.lacks e y ⟨list, hlist, hreach, hne, hmiss⟩ hoff
      exact ⟨c, hc, hec, hlacks.mono (hkeeps₁ c)⟩

/-- A walk keeps the lists faithful, if the trail leads to the parents that it walks over. -/
theorem Walk.faithful (h : Walk g trail todo found s entered found' s') (hs : s.Faithful g)
    (htrail : ∀ e ∈ trail, ∀ q ∈ todo, g.Reaches e q) : s'.Faithful g := by
  induction h with
  | done => exact hs
  | known _ _ ih => exact ih hs fun e he q hq => htrail e he q (List.mem_cons_of_mem _ hq)
  | closing _ _ _ ih =>
    exact ih ⟨hs.sound, hs.notMem_self, hs.parents, hs.lacks⟩
      fun e he q hq => htrail e he q (List.mem_cons_of_mem _ hq)
  | @entering _ parent _ _ _ _ _ _ _ _ _ hnew _ inner _ ihinner ihtail =>
    have hparent : ∀ e ∈ _, g.Reaches e parent :=
      fun e he => htrail e he parent (List.mem_cons_self ..)
    apply ihtail
    · exact hs.remember (ihinner hs (Graph.reaches_of_trail hparent)) inner
        (not_knows_iff.mpr hnew) hparent
    · exact fun e he q hq => htrail e he q (List.mem_cons_of_mem _ hq)

/-! ## Between two queries -/

/-- Between two queries the lists are faithful, and what is remembered is closed under parents. -/
structure Settled (g : Graph) (s : Session) : Prop where
  faithful : s.Faithful g
  closed : ∀ e q, s.Knows e → g.IsParent e q → s.Knows q

theorem settled_empty (g : Graph) : (∅ : Session).Settled g where
  faithful := ⟨nofun, nofun, nofun, fun _ _ h => nomatch h⟩
  closed := fun _ _ h => nomatch h

/-- With an entity, all that is reachable from it is remembered. -/
theorem Settled.knows_of_reaches (hs : s.Settled g) (he : s.Knows e) (h : g.Reaches e y) :
    s.Knows y := by
  induction h with
  | single hstep => exact hs.closed _ _ he hstep
  | tail _ hstep ih => exact hs.closed _ _ ih hstep

/-- A walk from a query settles again once its entity is remembered. -/
theorem Settled.remember (hs : s.Settled g)
    (h : Walk g [x] (g.parentsOf x).toList ∅ s entered inside s₁) (hnew : ¬ s.Knows x) :
    (s₁.remember x inside).Settled g where
  faithful := by
    apply hs.faithful.remember (h.faithful hs.faithful ?_) h hnew
    · simp
    · intro e he q hq
      rw [List.mem_singleton.mp he]
      exact Graph.IsParent.reaches hq
  closed := by
    -- the walk has looked at the parents of all that is new
    have hsees : ∀ q, Sees g (g.parentsOf x).toList entered q →
        (s₁.remember x inside).Knows q := by
      intro q hq
      rw [knows_remember]
      rcases h.knows_or_mem_of_sees hq with hknows | hmem
      · exact .inr hknows
      · exact .inl (List.mem_singleton.mp hmem)
    intro e q he hq
    rcases knows_remember.mp he with rfl | he
    · exact hsees q (.inl hq)
    · rcases h.knows_iff.mp he with hold | hentered
      · exact knows_remember.mpr (.inr (h.knows_iff.mpr (.inl (hs.closed e q hold hq))))
      · exact hsees q (.inr ⟨e, hentered, hq⟩)

end Session

end Lineage
