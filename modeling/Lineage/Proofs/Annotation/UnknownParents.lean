import Lineage.Proofs.Annotation.Convergence
import Lineage.Proofs.Data.Names

/-!
# Unknown parents

A run reports the parents that compositions name and nobody declares before everything else. Each of
them is reported once, where it is named first: in the first such file, there in the first such
construction, and there in its place in the list of arguments.

## Main definitions

- `Annotator.PlacedUse`: a parent named in a composition, with the place where it is named
- `Annotator.Uses`: the parents that the constructions of a store name
- `Annotator.IsUnknown`: nobody declares a name

## Main statements

- `Annotator.mem_placedUses`, `Annotator.pairwise_placedUses`: the named parents in order
- `Annotator.missingParents_eq`: what is reported of them
- `Annotator.missing_parents_of_run`: the reports of a run
-/

namespace Lineage

namespace Annotator

variable {a : Annotator} {store : Store} {name : String}

/-! ## Named parents -/

/-- A parent named in a composition: the offset of the construction in its file, and the place of
    the parent among the arguments. -/
structure PlacedUse extends ParentUse where
  offset : Nat
  index : Nat

/-- The order of files, offsets and arguments. -/
def PlacedUse.Before (u v : PlacedUse) : Prop :=
  u.path.compare v.path = .lt ∨
    u.path = v.path ∧ (u.offset < v.offset ∨ u.offset = v.offset ∧ u.index < v.index)

instance : Std.Asymm PlacedUse.Before where
  asymm := by
    have hself : ∀ p : Path, p.compare p ≠ .lt := by
      intro p
      rw [show p.compare p = .eq from Std.ReflCmp.compare_self]
      decide
    rintro u v (hlt | ⟨hpath, hplace⟩) (hlt' | ⟨hpath', hplace'⟩)
    · exact hself _ (Std.TransCmp.lt_trans hlt hlt')
    · exact hself _ (hpath' ▸ hlt)
    · exact hself _ (hpath ▸ hlt')
    · omega

/-- A construction of a store names a parent at a place. -/
def Uses (a : Annotator) (store : Store) (u : PlacedUse) : Prop :=
  ∃ f ∈ store.files, ∃ m ∈ a.constructionsIn f.content,
    f.path = u.path ∧ m.start = u.offset ∧ m.bundle = u.bundle ∧ m.parents[u.index]? = some u.parent

/-- The parents that a construction names. -/
def usesIn (path : Path) (m : Match) : List PlacedUse :=
  m.parents.zipIdx.map fun (parent, index) => ⟨⟨m.bundle, parent, path⟩, m.start, index⟩

theorem mem_usesIn {path : Path} {m : Match} {u : PlacedUse} :
    u ∈ usesIn path m ↔
      path = u.path ∧ m.start = u.offset ∧ m.bundle = u.bundle ∧
        m.parents[u.index]? = some u.parent := by
  obtain ⟨⟨bundle, parent, place⟩, offset, index⟩ := u
  simp only [usesIn, List.mem_map, Prod.exists, List.mk_mem_zipIdx_iff_getElem?, PlacedUse.mk.injEq,
    ParentUse.mk.injEq]
  constructor
  · rintro ⟨_, _, hparent, ⟨rfl, rfl, rfl⟩, rfl, rfl⟩
    exact ⟨rfl, rfl, rfl, hparent⟩
  · rintro ⟨rfl, rfl, rfl, hparent⟩
    exact ⟨parent, index, hparent, ⟨rfl, rfl, rfl⟩, rfl, rfl⟩

theorem pairwise_usesIn (path : Path) (m : Match) :
    (usesIn path m).Pairwise PlacedUse.Before := by
  have hindices : m.parents.zipIdx.Pairwise fun e e' => e.2 < e'.2 := by
    rw [← List.pairwise_map (f := Prod.snd), List.zipIdx_map_snd]
    exact List.pairwise_lt_range' 1
  rw [usesIn, List.pairwise_map]
  exact hindices.imp fun hlt => .inr ⟨rfl, .inr ⟨rfl, hlt⟩⟩

/-- The parents that the constructions of a store name, in order. -/
def placedUses (a : Annotator) (store : Store) : List PlacedUse :=
  store.files.flatMap fun f => (a.constructionsIn f.content).flatMap (usesIn f.path)

theorem mem_placedUses {u : PlacedUse} : u ∈ a.placedUses store ↔ a.Uses store u := by
  simp only [placedUses, List.mem_flatMap, mem_usesIn, Uses]

/-- Files stand in the order of their paths, and their constructions in the order of their
    offsets. -/
theorem pairwise_placedUses (a : Annotator) (store : Store) :
    (a.placedUses store).Pairwise PlacedUse.Before := by
  refine List.pairwise_flatMap.mpr ⟨fun f _ => List.pairwise_flatMap.mpr ⟨fun m _ => ?_, ?_⟩, ?_⟩
  · exact pairwise_usesIn f.path m
  · refine (pairwise_start_constructions _ f.content).imp fun {m n} hlt u hu v hv => ?_
    obtain ⟨hpath, hstart, -⟩ := mem_usesIn.mp hu
    obtain ⟨hpath', hstart', -⟩ := mem_usesIn.mp hv
    exact .inr ⟨hpath.symm.trans hpath', .inl (by omega)⟩
  · refine store.ordered.imp fun {f g} hlt u hu v hv => ?_
    obtain ⟨m, -, hum⟩ := List.mem_flatMap.mp hu
    obtain ⟨n, -, hvn⟩ := List.mem_flatMap.mp hv
    rw [(mem_usesIn.mp hum).1, (mem_usesIn.mp hvn).1] at hlt
    exact .inl hlt

theorem parentUses_eq (a : Annotator) (store : Store) :
    a.parentUses store = (a.placedUses store).map PlacedUse.toParentUse := by
  have huses : ∀ path (m : Match), (usesIn path m).map PlacedUse.toParentUse
      = m.parents.map (⟨m.bundle, ·, path⟩) := by
    intro path m
    conv_rhs => rw [← List.zipIdx_map_fst 0 m.parents]
    rw [usesIn, List.map_map, List.map_map]
    rfl
  simp only [parentUses, placedUses, List.map_flatMap, huses]

/-! ## Unknown names -/

/-- Nobody declares a name: no construction of the store makes it a bundle, markup makes it neither
    an entity nor a bundle of one, and it is not declared elsewhere. -/
structure IsUnknown (a : Annotator) (store : Store) (name : String) : Prop where
  corpus : ∀ f ∈ store.files, ∀ m ∈ a.constructionsIn f.content, m.bundle ≠ name
  entity : name ∉ a.relations.entityNames
  bundle : a.relations.bundleOwner.get? name = none
  authoritative : name ∉ a.authoritative

theorem isKnown_eq_false_iff :
    a.isKnown (a.corpusBundles store) name = false ↔ a.IsUnknown store name := by
  simp only [isKnown, Bool.or_eq_false_iff, decide_eq_false_iff_not, NameMap.contains,
    Option.isSome_eq_false_iff, Option.isNone_iff_eq_none, mem_corpusBundles, not_exists, not_and]
  constructor
  · rintro ⟨⟨⟨hcorpus, hentity⟩, hbundle⟩, hauthoritative⟩
    exact ⟨hcorpus, hentity, hbundle, hauthoritative⟩
  · rintro ⟨hcorpus, hentity, hbundle, hauthoritative⟩
    exact ⟨⟨⟨hcorpus, hentity⟩, hbundle⟩, hauthoritative⟩

/-- The unknown parents, each where it is named first. -/
def firstUnknown (a : Annotator) (store : Store) : List PlacedUse :=
  firstOfEach (·.parent)
    ((a.placedUses store).filter fun u => !a.isKnown (a.corpusBundles store) u.parent)

theorem mem_unknown {u : PlacedUse} :
    u ∈ (a.placedUses store).filter (fun u => !a.isKnown (a.corpusBundles store) u.parent) ↔
      a.Uses store u ∧ a.IsUnknown store u.parent := by
  rw [List.mem_filter, mem_placedUses, Bool.not_eq_true', isKnown_eq_false_iff]

theorem missingParents_eq (a : Annotator) (store : Store) :
    a.missingParents store
      = (a.firstUnknown store).map fun u => .missingParent u.bundle u.parent u.path := by
  have hfirst : ∀ l : List ParentUse, (l.eraseDupsBy fun u v => u.parent == v.parent)
      = firstOfEach ParentUse.parent l := fun _ => rfl
  simp only [missingParents, parentUses_eq, hfirst]
  rw [List.filter_map, firstOfEach_map, List.map_map]
  rfl

/-! ## Reports -/

/-- The other findings of a run come behind the unknown parents. -/
theorem exists_diagnostics_eq (a : Annotator) (store : Store) :
    ∃ others, (a.run store).2.diagnostics = a.missingParents store ++ others ∧
      ∀ bundle parent path, .missingParent bundle parent path ∉ others := by
  let last := a.passes (a.corpusBundles store) a.settings.maxPasses (.start store)
  refine ⟨last.1.cycles.map cycleFinding
    ++ ((if last.2 then [] else [.passBoundExceeded a.settings.maxPasses])
      ++ last.1.blocked.map .blockedSite), ?_, fun bundle parent path hmem => ?_⟩
  · show a.missingParents store ++ _ ++ _ ++ _ = _
    rw [List.append_assoc, List.append_assoc]
  · rcases List.mem_append.mp hmem with hcycle | hrest
    · obtain ⟨chain, -, heq⟩ := List.mem_map.mp hcycle
      cases heq
    · rcases List.mem_append.mp hrest with hbound | hblocked
      · split at hbound
        · cases hbound
        · cases List.mem_singleton.mp hbound
      · obtain ⟨site, -, heq⟩ := List.mem_map.mp hblocked
        cases heq

/-- A run reports unknown parents before everything else, in the order in which they are named
    first. A parent is reported where it is unknown and nothing named before has the same name, so
    every unknown parent that is named is reported once. -/
theorem missing_parents_of_run (a : Annotator) (store : Store) :
    ∃ (firsts : List PlacedUse) (others : List Diagnostic),
      (a.run store).2.diagnostics
          = firsts.map (fun u => .missingParent u.bundle u.parent u.path) ++ others ∧
        (∀ bundle parent path, .missingParent bundle parent path ∉ others) ∧
        firsts.Pairwise PlacedUse.Before ∧
        (∀ u, u ∈ firsts ↔ a.Uses store u ∧ a.IsUnknown store u.parent ∧
          ∀ v, a.Uses store v → v.Before u → v.parent ≠ u.parent) ∧
        (firsts.map (·.parent)).Nodup ∧
        ∀ name, name ∈ firsts.map (·.parent) ↔
          (∃ u, a.Uses store u ∧ u.parent = name) ∧ a.IsUnknown store name := by
  have hordered := (a.pairwise_placedUses store).filter
    fun u => !a.isKnown (a.corpusBundles store) u.parent
  obtain ⟨others, hdiagnostics, hothers⟩ := a.exists_diagnostics_eq store
  rw [missingParents_eq] at hdiagnostics
  refine ⟨a.firstUnknown store, others, hdiagnostics, hothers, ?_, fun u => ?_, ?_, fun name => ?_⟩
  · exact hordered.sublist (sublist_firstOfEach _ _)
  · rw [firstUnknown, mem_firstOfEach_iff _ hordered, mem_unknown, and_assoc]
    refine and_congr_right fun _ => and_congr_right fun hunknown => ?_
    constructor
    · intro h v hv hbefore heq
      exact h v (mem_unknown.mpr ⟨hv, heq ▸ hunknown⟩) hbefore heq
    · exact fun h v hv hbefore => h v (mem_unknown.mp hv).1 hbefore
  · exact nodup_firstOfEach ..
  · rw [firstUnknown, mem_keys_firstOfEach, List.mem_map]
    constructor
    · rintro ⟨u, hu, rfl⟩
      obtain ⟨huse, hunknown⟩ := mem_unknown.mp hu
      exact ⟨⟨u, huse, rfl⟩, hunknown⟩
    · rintro ⟨⟨u, huse, rfl⟩, hunknown⟩
      exact ⟨u, mem_unknown.mpr ⟨huse, hunknown⟩, rfl⟩

end Annotator

end Lineage
