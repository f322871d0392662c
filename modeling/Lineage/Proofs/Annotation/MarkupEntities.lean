import Lineage.Proofs.Annotation.UnknownParents
import Lineage.Proofs.Markup.Entities

/-!
# Markup entities among the parents

A parent that is an entity of the markup is no unknown one. What a run takes for an entity is what
the relations keep of the recorded elements: an element that inherits something is always known,
one that only lists bundles as long as one of them is not taken over by another name, and a frame tag
alone makes nobody known.

## Main definitions

- `Annotator.Reports`: a run reports a name as an unknown parent

## Main statements

- `Annotator.reports_iff`: which names are reported
- `Annotator.isUnknown_of_recorded_iff`: unknown names, by the elements that were recorded
- `Annotator.unknown_parents_of_recorded`: which elements are never reported
-/

namespace Lineage

namespace Annotator

variable {a : Annotator} {store : Store} {name : String}

/-- A run reports a name as an unknown parent. -/
def Reports (a : Annotator) (store : Store) (name : String) : Prop :=
  ∃ bundle path, .missingParent bundle name path ∈ (a.run store).2.diagnostics

/-- A name is reported if a composition names it and nobody declares it. -/
theorem reports_iff :
    a.Reports store name ↔
      (∃ u, a.Uses store u ∧ u.parent = name) ∧ a.IsUnknown store name := by
  obtain ⟨others, hdiagnostics, hothers⟩ := a.exists_diagnostics_eq store
  have hreports : a.Reports store name ↔ name ∈ (a.firstUnknown store).map (·.parent) := by
    simp only [Reports, hdiagnostics, missingParents_eq, List.mem_append, hothers, or_false,
      List.mem_map, Diagnostic.missingParent.injEq]
    constructor
    · intro h
      obtain ⟨bundle, path, u, hu, -, hparent, -⟩ := h
      exact ⟨u, hu, hparent⟩
    · intro h
      obtain ⟨u, hu, hparent⟩ := h
      exact ⟨u.bundle, u.path, u, hu, rfl, hparent, rfl⟩
  rw [hreports, firstUnknown, mem_keys_firstOfEach, List.mem_map]
  simp only [mem_unknown]
  constructor
  · intro h
    obtain ⟨u, ⟨huse, hunknown⟩, hparent⟩ := h
    exact ⟨⟨u, huse, hparent⟩, hparent ▸ hunknown⟩
  · intro h
    obtain ⟨⟨u, huse, hparent⟩, hunknown⟩ := h
    exact ⟨u, ⟨huse, hparent ▸ hunknown⟩, hparent⟩

/-! ## Recorded elements -/

section

variable {frameTags : List String} {elements : List Element} {r : Relations}
  {settings : SiteSettings} {authoritative : NameSet}

/-- Which names are unknown depends on what the elements keep, and not on how they were recorded. -/
theorem isUnknown_of_recorded_iff (h : Relations.Recorded frameTags elements r) :
    IsUnknown ⟨settings, r, authoritative⟩ store name ↔
      ((∀ f ∈ store.files, ∀ m ∈ constructionsIn ⟨settings, r, authoritative⟩ f.content,
          m.bundle ≠ name) ∧
        name ∉ authoritative) ∧
      (∀ e ∈ elements, ¬ e.Lists name) ∧ ¬ Relations.Keeps elements name := by
  obtain rfl := h.eq_ofElements
  constructor
  · intro hunknown
    refine ⟨⟨hunknown.corpus, hunknown.authoritative⟩, ?_, ?_⟩
    · exact Relations.get?_bundleOwner_eq_none_iff.mp hunknown.bundle
    · exact fun hkeeps => hunknown.entity (Relations.mem_entityNames_iff.mpr hkeeps)
  · intro ⟨⟨hcorpus, hauthoritative⟩, hbundle, hentity⟩
    exact
      { corpus := hcorpus
        entity := fun hmem => hentity (Relations.mem_entityNames_iff.mp hmem)
        bundle := Relations.get?_bundleOwner_eq_none_iff.mpr hbundle
        authoritative := hauthoritative }

/-- However elements were recorded and merged: an element that inherits something is never reported
    as an unknown parent, nor is one with a bundle that no later element of another name lists. All
    other names are reported if a composition names them and they are neither bundles of the corpus
    or of the markup nor declared elsewhere, whatever their tag is. -/
theorem unknown_parents_of_recorded (h : Relations.Recorded frameTags elements r)
    (settings : SiteSettings) (authoritative : NameSet) (store : Store) :
    let a : Annotator := ⟨settings, r, authoritative⟩
    (∀ e ∈ elements, e.Inherits → ¬ a.Reports store (trimmed e.name)) ∧
      (∀ before e after bundle, elements = before ++ e :: after → e.Lists bundle →
        (∀ later ∈ after, later.Lists bundle → trimmed later.name = trimmed e.name) →
        ¬ a.Reports store (trimmed e.name)) ∧
      ∀ name, a.Reports store name ↔
        (∃ u, a.Uses store u ∧ u.parent = name) ∧
        ((∀ f ∈ store.files, ∀ m ∈ a.constructionsIn f.content, m.bundle ≠ name) ∧
          name ∉ authoritative) ∧
        (∀ e ∈ elements, ¬ e.Lists name) ∧ ¬ Relations.Keeps elements name := by
  intro a
  have hreports : ∀ name, a.Reports store name ↔
      (∃ u, a.Uses store u ∧ u.parent = name) ∧
      ((∀ f ∈ store.files, ∀ m ∈ a.constructionsIn f.content, m.bundle ≠ name) ∧
        name ∉ authoritative) ∧
      (∀ e ∈ elements, ¬ e.Lists name) ∧ ¬ Relations.Keeps elements name := by
    intro name
    rw [reports_iff, isUnknown_of_recorded_iff h]
  refine ⟨fun e he hinherits hreported => ?_, ?_, hreports⟩
  · obtain ⟨-, -, -, hlost⟩ := (hreports _).mp hreported
    exact hlost (.inl ⟨e, he, hinherits, rfl⟩)
  · intro before e after bundle heq hlists hlast hreported
    obtain ⟨-, -, -, hlost⟩ := (hreports _).mp hreported
    exact hlost (.inr ⟨bundle, before, e, after, heq, hlists, rfl, hlast⟩)

end

/-! ## Entities that get lost -/

/-- A frame that lists and inherits nothing, and a button whose bundle another one takes over. -/
def windows : List Element :=
  [⟨"Frame", "Window", "", ""⟩, ⟨"Button", "Old", "Shared", ""⟩, ⟨"Button", " New ", "Shared", ""⟩]

/-- The same elements in two files. -/
def windowRelations : Relations :=
  (Relations.ofElements ["Frame"] (windows.take 2)).merge
    (Relations.ofElements ["Frame"] (windows.drop 2))

/-- A composition of all three. -/
def composed : Store :=
  .ofFiles [.ofContent ⟨"x.lua"⟩ <| Utf8.ofString "X = CreateFromMixins(Window, Old, New)\n"]

theorem recorded_windows : Relations.Recorded ["Frame"] windows windowRelations :=
  .merge (.record _ (.record _ .empty)) (.record _ .empty)

/-- The last owner of the bundle is not reported. -/
theorem unknown_parents_of_recorded_windows :
    Relations.Recorded ["Frame"] windows windowRelations ∧
      ¬ Reports ⟨{}, windowRelations, ∅⟩ composed "New" := by
  have hnames : trimmed " New " = "New" := by decide +kernel
  obtain ⟨-, hlast, -⟩ := unknown_parents_of_recorded recorded_windows {} ∅ composed
  refine ⟨recorded_windows, ?_⟩
  have hnew := hlast (windows.take 2) ⟨"Button", " New ", "Shared", ""⟩ [] "Shared" rfl
    (by decide +kernel) nofun
  rwa [hnames] at hnew

/-- The frame and the first owner of the bundle are reported, although both are recorded. -/
theorem recorded_reported_unknown :
    Relations.Recorded ["Frame"] windows windowRelations ∧
      (⟨"Frame", "Window", "", ""⟩ : Element) ∈ windows ∧
      (⟨"Button", "Old", "Shared", ""⟩ : Element) ∈ windows ∧
      Reports ⟨{}, windowRelations, ∅⟩ composed "Window" ∧
      Reports ⟨{}, windowRelations, ∅⟩ composed "Old" := by
  have hdiagnostics : (run ⟨{}, windowRelations, ∅⟩ composed).2.diagnostics
      = [.missingParent "X" "Window" ⟨"x.lua"⟩, .missingParent "X" "Old" ⟨"x.lua"⟩] := by
    decide +kernel
  refine ⟨recorded_windows, by decide, by decide, ?_, ?_⟩
  · exact ⟨"X", ⟨"x.lua"⟩, by simp [hdiagnostics]⟩
  · exact ⟨"X", ⟨"x.lua"⟩, by simp [hdiagnostics]⟩

end Annotator

end Lineage
