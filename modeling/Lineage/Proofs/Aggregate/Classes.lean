import Lineage.Aggregate
import Lineage.Proofs.Hierarchy.Answers

/-!
# The classes of an aggregate

An aggregate asks one session for the ancestors of all its candidates, in ascending order. What a
session answers it remembers, so every class line can be read off the session as it is in the end,
and only the entities without parents have nothing to be listed.

An answer behind a cycle depends on what was asked before, and so on which entities are left out.
Where no cycle is reachable every line is complete, whatever the other lines are.

## Main definitions

- `Aggregate.Declares`: the entities that get a class
- `Aggregate.ofParagraphs`: an aggregate as a header and a paragraph for each class

## Main statements

- `Aggregate.classLines_eq`: the class lines, without the loop that collects them
- `Aggregate.exists_render_eq`: what an aggregate declares
-/

namespace Lineage

/-! ## Lines that are left out -/

namespace Session

variable {g : Graph} {s : Session} {x : String}

/-- An entity has an empty list if and only if it has no parents. -/
theorem Settled.isEmpty_ancestors (hs : s.Settled g) (x : String) :
    (s.ancestors g x).1.isEmpty = (g.parentsOf x).isEmpty := by
  have hanswer : g.IsAnswer x (s.ancestors g x).1 := (hs.ancestors x).isAnswer get?_ancestors
  rw [Bool.eq_iff_iff, NameSet.isEmpty, NameSet.isEmpty, List.isEmpty_iff, List.isEmpty_iff,
    List.eq_nil_iff_forall_not_mem, List.eq_nil_iff_forall_not_mem]
  constructor
  · -- parents are listed
    intro hempty p hp
    exact hempty p (hanswer.parents p hp)
  · -- what is listed is reachable, and that begins with a parent
    intro hempty y hy
    have hclosed : y ∈ ([] : List String) :=
      (hanswer.reaches y hy).mem_of_closed (fun q hq => absurd hq (hempty q)) (by simp)
    cases hclosed

/-- An entity that reaches no cycle has a complete list in every session. -/
theorem Settled.mem_ancestors_iff (hs : s.Settled g) (hx : ¬ g.ReachesCycle x) (y : String) :
    y ∈ (s.ancestors g x).1 ↔ g.Reaches x y := by
  have hcomplete : g.IsComplete x (s.ancestors g x).1 := by
    apply hs.isComplete
    rintro c _ hc (rfl | hxc) -
    · exact hx hc.reachesCycle
    · exact hx ⟨c, hxc, hc⟩
  rw [hcomplete y, and_iff_left_iff_imp]
  rintro hreach rfl
  exact hx (Graph.OnCycle.reachesCycle hreach)

end Session

namespace Aggregate

variable {sites : SiteSettings} {emit : EmitSettings} {g : Graph} {s : Session}
  {authoritative entities more : NameSet} {names : List String} {x : String}

/-- What a session remembers for an entity. -/
def remembered (s : Session) (name : String) : NameSet := (s.known.get? name).getD ∅

/-- The lines are those of the entities with parents, each with what is remembered in the end. -/
theorem foldl_classLines (hs : s.Settled g) (lines : List ClassLine) :
    names.foldl
        (fun ((lines, s) : List ClassLine × Session) name =>
          let (found, s) := s.ancestors g name
          (if found.isEmpty then lines else lines ++ [⟨name, found.toList⟩], s))
        (lines, s)
      = (lines ++ (names.filter fun name => !(g.parentsOf name).isEmpty).map
            fun name => ⟨name, (remembered (s.afterEach g names) name).toList⟩,
          s.afterEach g names) := by
  induction names generalizing s lines with
  | nil => simp [Session.afterEach]
  | cons name rest ih =>
    -- the answer is remembered through the queries for the others
    have hlast : remembered (s.afterEach g (name :: rest)) name = (s.ancestors g name).1 := by
      rw [remembered, Session.afterEach_cons,
        Session.get?_afterEach_of_get? Session.get?_ancestors]
      rfl
    rw [List.foldl_cons, ih (hs.ancestors name), ← Session.afterEach_cons,
      hs.isEmpty_ancestors, List.filter_cons]
    cases (g.parentsOf name).isEmpty with
    | true => rfl
    | false => simp [hlast]

theorem classLines_eq (hs : s.Settled g) (names : List String) :
    classLines g s names
      = ((names.filter fun name => !(g.parentsOf name).isEmpty).map
            fun name => ⟨name, (remembered (s.afterEach g names) name).toList⟩,
          s.afterEach g names) := by
  rw [classLines, foldl_classLines hs, List.nil_append]

/-! ## Classes -/

/-- An aggregate has a class for every entity that is not private, is not declared elsewhere and has
    a direct parent. -/
structure Declares (emit : EmitSettings) (g : Graph) (authoritative entities : NameSet)
    (name : String) : Prop where
  mem : name ∈ entities
  isPublic : ¬ emit.syntheticSigil.toList <+: name.toList
  notMem : name ∉ authoritative
  parents : ∃ p, g.IsParent name p

/-- The names of the classes in ascending order. -/
def classNames (emit : EmitSettings) (g : Graph) (authoritative entities : NameSet) :
    List String :=
  (candidates emit authoritative entities).filter fun name => !(g.parentsOf name).isEmpty

theorem isPrivate_eq_false_iff :
    isPrivate emit x = false ↔ ¬ emit.syntheticSigil.toList <+: x.toList := by
  rw [isPrivate, ← Bool.not_eq_true, List.isPrefixOf_iff_prefix]

theorem mem_classNames_iff :
    x ∈ classNames emit g authoritative entities ↔ Declares emit g authoritative entities x := by
  have hparents : (g.parentsOf x).isEmpty = false ↔ ∃ p, g.IsParent x p := by
    rw [NameSet.isEmpty, List.isEmpty_eq_false_iff_exists_mem]
    rfl
  simp only [classNames, candidates, List.mem_filter, Bool.and_eq_true, Bool.not_eq_true',
    decide_eq_false_iff_not, isPrivate_eq_false_iff, hparents]
  constructor
  · rintro ⟨⟨hmem, hpublic, hnot⟩, hp⟩
    exact ⟨hmem, hpublic, hnot, hp⟩
  · rintro ⟨hmem, hpublic, hnot, hp⟩
    exact ⟨⟨hmem, hpublic, hnot⟩, hp⟩

theorem pairwise_classNames : (classNames emit g authoritative entities).Pairwise (· < ·) :=
  (entities.ascending.filter _).filter _

/-- More declarations elsewhere leave out the classes that they declare, and no others. -/
theorem classNames_union :
    classNames emit g (authoritative.union more) entities
      = (classNames emit g authoritative entities).filter fun name => decide (name ∉ more) := by
  simp only [classNames, candidates, List.filter_filter]
  refine List.filter_congr fun name _ => ?_
  simp only [NameSet.mem_union, Bool.decide_or, Bool.not_or, decide_not]
  ac_rfl

/-! ## Texts -/

/-- The paragraph of a class: the line with its name and its ancestors, and an empty line. -/
def paragraph (marker name : String) (ancestors : NameSet) : String :=
  marker ++ " " ++ name ++ ": " ++ ", ".intercalate ancestors.toList ++ "\n" ++ "\n"

/-- A file with the header and a paragraph for each of some classes. -/
def ofParagraphs (sites : SiteSettings) (names : List String) (ancestors : String → NameSet) :
    Aggregate where
  text := sites.metaHeader.getD standardHeader ++ "\n\n"
    ++ String.join (names.map fun name => paragraph sites.annotationMarker name (ancestors name))
  classes := names.length

theorem ofParagraphs_congr {ancestors ancestors' : String → NameSet}
    (h : ∀ name ∈ names, ancestors name = ancestors' name) :
    ofParagraphs sites names ancestors = ofParagraphs sites names ancestors' := by
  have hparagraphs : (names.map fun name => paragraph sites.annotationMarker name (ancestors name))
      = names.map fun name => paragraph sites.annotationMarker name (ancestors' name) := by
    refine List.map_congr_left fun name hname => ?_
    rw [h name hname]
  rw [ofParagraphs, ofParagraphs, hparagraphs]

/-- With a parent there is a colon. -/
theorem render_eq_paragraph (marker name : String) {ancestors : NameSet}
    (hne : ancestors.toList ≠ []) :
    (ClassLine.mk name ancestors.toList).render marker ++ "\n"
      = paragraph marker name ancestors := by
  simp [ClassLine.render, ClassLine.declaration, paragraph, hne, String.append_assoc]

/-- The session of an aggregate when all is answered. -/
def closing (emit : EmitSettings) (g : Graph) (authoritative entities : NameSet) : Session :=
  (∅ : Session).afterEach g (candidates emit authoritative entities)

theorem settled_closing : (closing emit g authoritative entities).Settled g :=
  (Session.settled_empty g).afterEach _

/-- Every class is remembered with an answer. -/
theorem isAnswer_closing (hx : x ∈ classNames emit g authoritative entities) :
    g.IsAnswer x (remembered (closing emit g authoritative entities) x) := by
  have hcandidate := (List.mem_filter.mp hx).1
  obtain ⟨found, hfound⟩ := Session.knows_afterEach_empty_iff.mpr ⟨x, hcandidate, .inl rfl⟩
  have hanswer : g.IsAnswer x found := settled_closing.isAnswer hfound
  rw [remembered, closing, hfound]
  exact hanswer

/-- Asking once more gives what is remembered. -/
theorem ancestors_closing (hx : x ∈ classNames emit g authoritative entities) :
    ((closing emit g authoritative entities).ancestors g x).1
      = remembered (closing emit g authoritative entities) x := by
  have hcandidate := (List.mem_filter.mp hx).1
  obtain ⟨found, hfound⟩ := Session.knows_afterEach_empty_iff.mpr ⟨x, hcandidate, .inl rfl⟩
  rw [remembered, closing, hfound, Session.ancestors_of_get? hfound]
  rfl

theorem render_eq (sites : SiteSettings) (emit : EmitSettings) (g : Graph)
    (authoritative entities : NameSet) :
    (render sites emit g ∅ authoritative entities).1
      = ofParagraphs sites (classNames emit g authoritative entities)
          (remembered (closing emit g authoritative entities)) := by
  have hlines := classLines_eq (Session.settled_empty g) (candidates emit authoritative entities)
  have hrender : (render sites emit g ∅ authoritative entities).1
      = ⟨textOf sites (classLines g ∅ (candidates emit authoritative entities)).1,
          (classLines g ∅ (candidates emit authoritative entities)).1.length⟩ := rfl
  rw [hrender, hlines, textOf, List.map_map, List.length_map]
  have hparagraphs : ∀ name ∈ classNames emit g authoritative entities,
      ((fun line : ClassLine => line.render sites.annotationMarker ++ "\n") ∘ fun name =>
          ⟨name, (remembered (closing emit g authoritative entities) name).toList⟩) name
        = paragraph sites.annotationMarker name
            (remembered (closing emit g authoritative entities) name) := by
    intro name hname
    obtain ⟨p, hp⟩ := (mem_classNames_iff.mp hname).parents
    exact render_eq_paragraph _ _ (List.ne_nil_of_mem ((isAnswer_closing hname).parents p hp))
  rw [ofParagraphs, ← List.map_congr_left hparagraphs]
  rfl

/-- Where no cycle is reachable from the entities, the remembered lists are complete. -/
theorem mem_remembered_closing_iff (hacyclic : ∀ x ∈ entities, ¬ g.ReachesCycle x)
    (hx : x ∈ classNames emit g authoritative entities) (y : String) :
    y ∈ remembered (closing emit g authoritative entities) x ↔ g.Reaches x y := by
  rw [← ancestors_closing hx]
  exact settled_closing.mem_ancestors_iff (hacyclic x (mem_classNames_iff.mp hx).mem) y

/-! ## What an aggregate declares -/

/-- In a new session an aggregate is the header and, in ascending order of their names, a paragraph
    for each entity that is public, is declared nowhere else and has a parent. Its ancestors are
    ascending, without the entity itself and with all its parents. If no cycle is reachable from
    the entities they are all that is reachable, and more declarations elsewhere take out the
    paragraphs of what they declare and leave the others as they are. -/
theorem exists_render_eq (sites : SiteSettings) (emit : EmitSettings) (g : Graph)
    (authoritative entities : NameSet) :
    ∃ (names : List String) (ancestors : String → NameSet),
      names.Pairwise (· < ·) ∧
      (∀ x, x ∈ names ↔ Declares emit g authoritative entities x) ∧
      (render sites emit g ∅ authoritative entities).1 = ofParagraphs sites names ancestors ∧
      (∀ x ∈ names, g.IsAnswer x (ancestors x)) ∧
      ((∀ x ∈ entities, ¬ g.ReachesCycle x) →
        (∀ x ∈ names, ∀ y, y ∈ ancestors x ↔ g.Reaches x y) ∧
          ∀ more, (render sites emit g ∅ (authoritative.union more) entities).1
            = ofParagraphs sites (names.filter fun x => decide (x ∉ more)) ancestors) := by
  refine ⟨classNames emit g authoritative entities,
    remembered (closing emit g authoritative entities), pairwise_classNames,
    fun x => mem_classNames_iff, render_eq .., fun x => isAnswer_closing, fun hacyclic => ?_⟩
  have hcomplete : ∀ x ∈ classNames emit g authoritative entities, ∀ y,
      y ∈ remembered (closing emit g authoritative entities) x ↔ g.Reaches x y :=
    fun x => mem_remembered_closing_iff hacyclic
  refine ⟨hcomplete, fun more => ?_⟩
  rw [render_eq, classNames_union]
  -- the sessions differ, but each line is complete in both of them
  refine ofParagraphs_congr fun x hx => NameSet.ext fun y => ?_
  have hmem : x ∈ classNames emit g (authoritative.union more) entities := by
    rw [classNames_union]
    exact hx
  rw [mem_remembered_closing_iff hacyclic hmem, hcomplete x (List.mem_filter.mp hx).1]

/-- The graph of a few frames, one of them with a bundle and one private. -/
def frames : Graph :=
  Graph.addAll ∅ [("MyFrame", "MyMixin"), ("MyFrame", "Frame"), ("$Private", "Frame"),
    ("Button", "Frame"), ("AFrame", "Frame")]

/-- The entities of that graph and one without parents. -/
def frameEntities : NameSet := NameSet.ofList ["MyFrame", "$Private", "Button", "AFrame", "Bare"]

/-- Nothing that a frame reaches has parents. -/
theorem not_reachesCycle_frames : ∀ x ∈ frameEntities, ¬ frames.ReachesCycle x := by
  rintro x hx ⟨c, hreach, hcycle⟩
  have hfirst : ∀ x ∈ frameEntities.toList, ∀ q ∈ (frames.parentsOf x).toList,
      q ∈ ["Frame", "MyMixin"] := by
    decide +kernel
  have hroots : ∀ p ∈ ["Frame", "MyMixin"], ∀ q ∈ (frames.parentsOf p).toList,
      q ∈ ([] : List String) := by
    decide +kernel
  have hroot : c ∈ ["Frame", "MyMixin"] :=
    hreach.mem_of_closed (hfirst x hx) fun p hp q hq => absurd (hroots p hp q hq) (by simp)
  have hnothing : c ∈ ([] : List String) := hcycle.mem_of_closed (hroots c hroot) (by simp)
  cases hnothing

/-- Declaring `AFrame` elsewhere, too, takes out its line and leaves that of `MyFrame`. -/
theorem exists_render_eq_frames :
    (∀ x ∈ frameEntities, ¬ frames.ReachesCycle x) ∧
      (render {} {} frames ∅ (NameSet.ofList ["Button"]) frameEntities).1
        = ⟨"---@meta\n\n---@class AFrame: Frame\n\n---@class MyFrame: Frame, MyMixin\n\n", 2⟩ ∧
      ∃ ancestors : String → NameSet,
        (∀ y, y ∈ ancestors "MyFrame" ↔ frames.Reaches "MyFrame" y) ∧
        (render {} {} frames ∅ ((NameSet.ofList ["Button"]).union (NameSet.ofList ["AFrame"]))
            frameEntities).1
          = ofParagraphs {} ["MyFrame"] ancestors := by
  obtain ⟨names, ancestors, hascending, hmem, -, -, hcomplete⟩ :=
    exists_render_eq {} {} frames (NameSet.ofList ["Button"]) frameEntities
  obtain ⟨hlists, hmore⟩ := hcomplete not_reachesCycle_frames
  -- ascending names are settled by which names they are
  have hsame : (⟨names, hascending⟩ : NameSet)
      = ⟨classNames {} frames (NameSet.ofList ["Button"]) frameEntities, pairwise_classNames⟩ :=
    NameSet.ext fun x => (hmem x).trans (Iff.symm (mem_classNames_iff (x := x)))
  have hnames : names = ["AFrame", "MyFrame"] :=
    (congrArg NameSet.toList hsame).trans (by decide +kernel)
  have hlisted : "MyFrame" ∈ names := by
    rw [hnames]
    decide
  refine ⟨not_reachesCycle_frames, by decide +kernel, ancestors, hlists _ hlisted, ?_⟩
  rw [hmore, hnames]
  rfl

end Aggregate

end Lineage
