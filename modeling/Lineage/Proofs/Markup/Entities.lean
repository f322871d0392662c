import Lineage.Proofs.Markup.Merging
import Mathlib.Data.List.Induction

/-!
# Entities of recorded elements

Relations keep less than the elements that were recorded in them: a bundle has one owner, the last
element that lists it, and an entity is known by a bundle that it owns or by what it inherits. So an
entity may drop out when its bundles are taken over, and a frame without bundles and inheritance was
never one.

## Main definitions

- `Relations.Recorded`: relations from elements, recorded and merged in any way
- `Element.Lists`: an element lists a bundle
- `Relations.Keeps`: elements keep an entity

## Main statements

- `Relations.Recorded.eq_ofElements`: recording and merging in any way
- `Relations.get?_bundleOwner_iff`: the owner of a bundle
- `Relations.mem_entityNames_iff`: the entities that are kept
-/

namespace Lineage

/-- An element with a name lists a bundle. -/
def Element.Lists (e : Element) (bundle : String) : Prop :=
  trimmed e.name ≠ "" ∧ bundle ∈ commaParts e.mixin

instance (e : Element) (bundle : String) : Decidable (e.Lists bundle) :=
  inferInstanceAs (Decidable (_ ∧ _))

/-- An element with a name inherits something. -/
def Element.Inherits (e : Element) : Prop := trimmed e.name ≠ "" ∧ isBlankText e.inherits = false

instance (e : Element) : Decidable e.Inherits := inferInstanceAs (Decidable (_ ∧ _))

namespace Relations

variable {frameTags : List String} {elements : List Element} {r : Relations}
  {bundle name : String}

/-! ## Any way of recording -/

/-- Relations that come from elements: recorded one by one, or in parts that were merged, in the
    order of the elements. -/
inductive Recorded (frameTags : List String) : List Element → Relations → Prop where
  | empty : Recorded frameTags [] ∅
  | record {elements : List Element} {r : Relations} (e : Element) :
      Recorded frameTags elements r →
      Recorded frameTags (elements ++ [e]) (r.record frameTags e)
  | merge {elements others : List Element} {r s : Relations} :
      Recorded frameTags elements r →
      Recorded frameTags others s →
      Recorded frameTags (elements ++ others) (r.merge s)

theorem Recorded.eq_ofElements (h : Recorded frameTags elements r) :
    r = ofElements frameTags elements := by
  induction h with
  | empty => rfl
  | record e _ ih =>
    rw [ih, ofElements, ofElements, recordAll_append]
    rfl
  | merge _ _ ih ih' => rw [ih, ih', ofElements_append]

/-! ## One more element -/

/-- Of the bindings of many keys to one value any will do. -/
theorem lookup_reverse_map_const (names : List String) (key value : String) :
    ((names.map (·, value)).reverse).lookup key = if key ∈ names then some value else none := by
  have hnames : ∀ l : List String,
      (l.map (·, value)).lookup key = if key ∈ l then some value else none := by
    intro l
    induction l with
    | nil => rfl
    | cons n l ih =>
      simp only [List.map_cons, List.lookup_cons, ih, List.mem_cons]
      by_cases hkey : key = n
      · simp [hkey]
      · simp [hkey, beq_eq_false_iff_ne.mpr hkey]
  rw [← List.map_reverse, hnames]
  simp only [List.mem_reverse]

theorem get?_bundleOwner_record (e : Element) :
    (r.record frameTags e).bundleOwner.get? bundle
      = if e.Lists bundle then some (trimmed e.name) else r.bundleOwner.get? bundle := by
  by_cases hname : trimmed e.name = ""
  · simp [record, Element.Lists, hname]
  · have hrecord : (r.record frameTags e).bundleOwner
        = r.bundleOwner.insertAll ((commaParts e.mixin).map (·, trimmed e.name)) := by
      simp only [record, if_neg hname]
    rw [hrecord, NameMap.get?_insertAll, lookup_reverse_map_const]
    by_cases hmem : bundle ∈ commaParts e.mixin
    · simp [Element.Lists, hname, hmem]
    · simp [Element.Lists, hmem]

theorem mem_keys_inheritance_record (e : Element) :
    name ∈ (r.record frameTags e).inheritance.keys ↔
      (e.Inherits ∧ trimmed e.name = name) ∨ name ∈ r.inheritance.keys := by
  by_cases hname : trimmed e.name = ""
  · simp [record, Element.Inherits, hname]
  · by_cases hblank : isBlankText e.inherits = true
    · simp [record, Element.Inherits, hname, hblank]
    · have hrecord : (r.record frameTags e).inheritance
          = r.inheritance.insert (trimmed e.name) e.inherits := by
        simp only [record, if_neg hname, if_neg hblank]
      simp only [hrecord, NameMap.mem_keys_iff, NameMap.get?_insert]
      by_cases hsame : name = trimmed e.name
      · simp [Element.Inherits, hsame, hname, hblank]
      · simp [Element.Inherits, hsame, Ne.symm hsame]

/-! ## All elements -/

/-- A member of a longer list is the new one at its end, or has that one behind it. -/
theorem concat_eq_append_cons_iff {α : Type} {l before after : List α} {last x : α} :
    l ++ [last] = before ++ x :: after ↔
      (after = [] ∧ l = before ∧ last = x) ∨
        ∃ between, after = between ++ [last] ∧ l = before ++ x :: between := by
  cases after using List.reverseRecOn with
  | nil =>
    rw [← List.concat_eq_append, ← List.concat_eq_append, List.concat_inj]
    simp
  | append_singleton between final =>
    rw [← List.cons_append, ← List.append_assoc, ← List.concat_eq_append, ← List.concat_eq_append,
      List.concat_inj]
    constructor
    · intro ⟨hfront, hlast⟩
      exact .inr ⟨between, by rw [hlast], hfront⟩
    · intro h
      rcases h with ⟨hnil, -⟩ | ⟨front, heq, hfront⟩
      · simp at hnil
      · obtain ⟨rfl, hlast⟩ := List.append_inj' heq rfl
        exact ⟨hfront, (List.singleton_inj.mp hlast).symm⟩

theorem ofElements_concat (elements : List Element) (e : Element) :
    ofElements frameTags (elements ++ [e]) = (ofElements frameTags elements).record frameTags e :=
  recordAll_append ∅ elements [e]

/-- The owner of a bundle is the last element that lists it: one behind which nobody of another name
    does. -/
theorem get?_bundleOwner_iff :
    (ofElements frameTags elements).bundleOwner.get? bundle = some name ↔
      ∃ before e after, elements = before ++ e :: after ∧ e.Lists bundle ∧ trimmed e.name = name ∧
        ∀ later ∈ after, later.Lists bundle → trimmed later.name = name := by
  induction elements using List.reverseRecOn with
  | nil =>
    have hempty : (ofElements frameTags []).bundleOwner.get? bundle = none := rfl
    simp [hempty]
  | append_singleton elements last ih =>
    rw [ofElements_concat, get?_bundleOwner_record]
    by_cases hlast : last.Lists bundle
    · -- the last element decides, whoever listed the bundle before
      simp only [hlast, if_true, Option.some.injEq]
      refine ⟨fun h => ⟨elements, last, [], rfl, hlast, h, nofun⟩, ?_⟩
      intro ⟨before, e, after, heq, _, hname, hlater⟩
      rcases concat_eq_append_cons_iff.mp heq with ⟨-, -, rfl⟩ | ⟨between, rfl, -⟩
      · exact hname
      · exact hlater last (by simp) hlast
    · simp only [hlast, if_false, ih]
      constructor
      · intro ⟨before, e, after, heq, hlists, hname, hlater⟩
        refine ⟨before, e, after ++ [last], by simp [heq], hlists, hname, fun later hmem => ?_⟩
        rcases List.mem_append.mp hmem with hafter | hnew
        · exact hlater later hafter
        · rw [List.mem_singleton.mp hnew]
          exact fun h => absurd h hlast
      · intro ⟨before, e, after, heq, hlists, hname, hlater⟩
        rcases concat_eq_append_cons_iff.mp heq with ⟨-, -, rfl⟩ | ⟨between, rfl, hfront⟩
        · exact absurd hlists hlast
        · exact ⟨before, e, between, hfront, hlists, hname, fun later hmem =>
            hlater later (List.mem_append_left _ hmem)⟩

/-- A bundle has no owner if no element lists it. -/
theorem get?_bundleOwner_eq_none_iff :
    (ofElements frameTags elements).bundleOwner.get? bundle = none ↔
      ∀ e ∈ elements, ¬ e.Lists bundle := by
  induction elements using List.reverseRecOn with
  | nil =>
    have hempty : (ofElements frameTags []).bundleOwner.get? bundle = none := rfl
    simp [hempty]
  | append_singleton elements last ih =>
    rw [ofElements_concat, get?_bundleOwner_record]
    by_cases hlast : last.Lists bundle
    · simp [hlast]
    · simp [hlast, ih, or_imp, forall_and]

theorem mem_keys_inheritance_iff :
    name ∈ (ofElements frameTags elements).inheritance.keys ↔
      ∃ e ∈ elements, e.Inherits ∧ trimmed e.name = name := by
  induction elements using List.reverseRecOn with
  | nil =>
    have hempty : (ofElements frameTags []).inheritance.keys = [] := rfl
    simp [hempty]
  | append_singleton elements last ih =>
    rw [ofElements_concat, mem_keys_inheritance_record, ih]
    simp only [List.mem_append, List.mem_singleton, or_and_right, exists_or, exists_eq_left, or_comm]

/-! ## Entities -/

/-- Elements keep an entity: one of its elements inherits something, or lists a bundle that no later
    element of another name lists. -/
def Keeps (elements : List Element) (name : String) : Prop :=
  (∃ e ∈ elements, e.Inherits ∧ trimmed e.name = name) ∨
    ∃ bundle before e after, elements = before ++ e :: after ∧ e.Lists bundle ∧
      trimmed e.name = name ∧ ∀ later ∈ after, later.Lists bundle → trimmed later.name = name

/-- The entities are those that are kept. -/
theorem mem_entityNames_iff :
    name ∈ (ofElements frameTags elements).entityNames ↔ Keeps elements name := by
  have hvalues : ∀ m : NameMap String, name ∈ m.values ↔ ∃ key, m.get? key = some name := by
    intro m
    refine ⟨fun h => ?_, fun ⟨key, hkey⟩ => NameMap.mem_values_of_get? hkey⟩
    obtain ⟨⟨key, value⟩, hmem, rfl⟩ := List.mem_map.mp h
    exact ⟨key, NameMap.mem_entries_iff.mp hmem⟩
  simp only [entityNames, NameSet.mem_ofList, List.mem_append, hvalues, get?_bundleOwner_iff,
    mem_keys_inheritance_iff, Keeps, or_comm]

/-- The second element takes the bundle over, and the frame has nothing to be kept by. -/
example :
    let elements : List Element :=
      [⟨"Frame", "Window", "", ""⟩, ⟨"Button", "Old", "Shared", ""⟩, ⟨"Button", "New", "Shared", ""⟩]
    (ofElements ["Frame"] elements).entityNames.toList = ["New"] := by
  decide +kernel

end Relations

end Lineage
