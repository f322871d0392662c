import Lineage.Markup.Relations
import Lineage.Proofs.Data.Names

/-!
# Merging relations

Recording an element is merging in what it declares by itself. Merging is associative, so elements
may be recorded in any number of parts: if the parts are merged in order, nothing tells them from
one long list of elements.

## Main statements

- `Relations.record_eq_merge`: an element by itself
- `Relations.recordAll_eq_merge`: a list of elements by itself
- `Relations.mergeAll_ofElements`: the parts of a list of elements
-/

namespace Lineage

namespace Relations

variable {frameTags : List String}

/-! ## The algebra of merging -/

@[simp] theorem frames_empty : (∅ : Relations).frames = ∅ := rfl

theorem merge_assoc (r s t : Relations) : (r.merge s).merge t = r.merge (s.merge t) := by
  simp only [merge, NameMap.merge_assoc, mk.injEq, true_and]
  apply NameSet.ext
  intro name
  simp only [NameSet.mem_union]
  exact or_assoc.symm

theorem empty_merge (r : Relations) : merge ∅ r = r := by
  have hframes : r.frames.union ∅ = r.frames := by
    apply NameSet.ext
    intro name
    simp
  show mk (NameMap.merge ∅ _) (NameMap.merge ∅ _) (r.frames.union ∅) = r
  rw [NameMap.empty_merge, NameMap.empty_merge, hframes]

theorem merge_empty (r : Relations) : r.merge ∅ = r := by
  have hframes : NameSet.union ∅ r.frames = r.frames := by
    apply NameSet.ext
    intro name
    simp
  show mk r.bundleOwner r.inheritance (NameSet.union ∅ r.frames) = r
  rw [hframes]

theorem merge_self (r : Relations) : r.merge r = r := by
  have hframes : r.frames.union r.frames = r.frames := by
    apply NameSet.ext
    intro name
    simp
  show mk (r.bundleOwner.merge _) (r.inheritance.merge _) _ = r
  rw [NameMap.merge_self, NameMap.merge_self, hframes]

/-! ## Recording in parts -/

/-- Recording an element is merging in what it declares by itself. -/
theorem record_eq_merge (r : Relations) (e : Element) :
    record frameTags r e = r.merge (record frameTags ∅ e) := by
  by_cases hname : trimmed e.name = ""
  · rw [record, record, if_pos hname, if_pos hname, merge_empty]
  · rw [record, record, if_neg hname, if_neg hname]
    simp only [merge, mk.injEq]
    refine ⟨NameMap.insertAll_eq_merge _ _, ?_, ?_⟩
    · split
      · rfl
      · exact NameMap.insertAll_eq_merge r.inheritance [(trimmed e.name, e.inherits)]
    · apply NameSet.ext
      intro name
      split <;> simp

/-- The same for a list of elements. -/
theorem recordAll_eq_merge (r : Relations) (elements : List Element) :
    recordAll frameTags r elements = r.merge (ofElements frameTags elements) := by
  induction elements generalizing r with
  | nil => exact (merge_empty r).symm
  | cons e elements ih =>
    calc recordAll frameTags (record frameTags r e) elements
        = (record frameTags r e).merge (ofElements frameTags elements) := ih _
      _ = r.merge ((record frameTags ∅ e).merge (ofElements frameTags elements)) := by
          rw [record_eq_merge, merge_assoc]
      _ = r.merge (recordAll frameTags (record frameTags ∅ e) elements) := by rw [ih]

theorem recordAll_append (r : Relations) (elements others : List Element) :
    recordAll frameTags r (elements ++ others)
      = recordAll frameTags (recordAll frameTags r elements) others :=
  List.foldl_append

theorem ofElements_append (elements others : List Element) :
    ofElements frameTags (elements ++ others)
      = (ofElements frameTags elements).merge (ofElements frameTags others) := by
  rw [ofElements, recordAll_append, recordAll_eq_merge]
  rfl

/-- Merging parts into relations is going on with recording. -/
theorem foldl_merge_ofElements (parts : List (List Element)) (r : Relations) :
    (parts.map (ofElements frameTags)).foldl merge r = recordAll frameTags r parts.flatten := by
  induction parts generalizing r with
  | nil => rfl
  | cons part parts ih =>
    rw [List.map_cons, List.foldl_cons, ih, List.flatten_cons, recordAll_append,
      recordAll_eq_merge r]

/-- Elements may be recorded part by part, if the parts are merged in order: the relations are those
    of all elements in one list. Merging is associative, no declarations are neutral to it, and
    merging relations with themselves changes nothing. So elements may be split anywhere. -/
theorem mergeAll_ofElements (frameTags : List String) :
    (∀ parts : List (List Element),
      mergeAll (parts.map (ofElements frameTags)) = ofElements frameTags parts.flatten) ∧
    (∀ r s t : Relations, (r.merge s).merge t = r.merge (s.merge t)) ∧
    (∀ r : Relations, merge ∅ r = r ∧ r.merge ∅ = r ∧ r.merge r = r) ∧
    ∀ (elements : List Element) (count : Nat),
      (ofElements frameTags (elements.take count)).merge
          (ofElements frameTags (elements.drop count))
        = ofElements frameTags elements := by
  refine ⟨fun parts => foldl_merge_ofElements parts ∅, merge_assoc, fun r => ?_, ?_⟩
  · exact ⟨empty_merge r, merge_empty r, merge_self r⟩
  · intro elements count
    rw [← ofElements_append, List.take_append_drop]

/-- The later part wins where both map a bundle, and frames of both parts stay frames. -/
example :
    let parts : List (List Element) :=
      [[⟨"Frame", "A", "Shared, Shared", "X"⟩], [⟨"Button", " B ", "Shared", ""⟩]]
    (mergeAll (parts.map (ofElements ["Frame"]))).bundleOwner.entries = [("Shared", "B")] ∧
      (mergeAll (parts.map (ofElements ["Frame"]))).frames.toList = ["A"] := by
  decide +kernel

end Relations

end Lineage
