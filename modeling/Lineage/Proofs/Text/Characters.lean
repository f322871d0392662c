import Lineage.ParentList
import Lineage.Text.WordChar
import Mathlib.Data.List.DropRight
import Mathlib.Tactic

/-!
# Characters of texts

No blank may stand in an identifier, so where a run of one class ends the other one may begin. A
list of texts has no characters but theirs and those between them. What is trimmed is not changed by
trimming it again.
-/

namespace Lineage

/-! ## Runs -/

section

variable {α : Type} {p : α → Bool} {run rest : List α}

/-- A run of one class is taken up to where something else begins. -/
theorem takeWhile_run (hrun : ∀ x ∈ run, p x = true) (hrest : ∀ x ∈ rest.head?, p x = false) :
    (run ++ rest).takeWhile p = run := by
  rw [List.takeWhile_append_of_pos hrun]
  cases rest with
  | nil => rw [List.takeWhile_nil, List.append_nil]
  | cons x rest => rw [List.takeWhile_cons_of_neg (by simp [hrest x rfl]), List.append_nil]

/-- Without the run that stands in front, what is left begins with something else. -/
theorem dropWhile_run (hrun : ∀ x ∈ run, p x = true) (hrest : ∀ x ∈ rest.head?, p x = false) :
    (run ++ rest).dropWhile p = rest := by
  rw [List.dropWhile_append_of_pos hrun]
  cases rest with
  | nil => rfl
  | cons x rest => exact List.dropWhile_cons_of_neg (by simp [hrest x rfl])

end

/-! ## Blanks and words -/

/-- The blanks, one by one. -/
theorem isBlank_iff {c : Char} :
    isBlank c = true ↔
      c.toNat ∈ [0x09, 0x0A, 0x0B, 0x0C, 0x0D, 0x20, 0x85, 0xA0, 0x1680, 0x2000, 0x2001, 0x2002,
        0x2003, 0x2004, 0x2005, 0x2006, 0x2007, 0x2008, 0x2009, 0x200A, 0x2028, 0x2029, 0x202F,
        0x205F, 0x3000] := by
  simp only [isBlank, Bool.or_eq_true, Bool.and_eq_true, decide_eq_true_eq, beq_iff_eq,
    List.mem_cons, List.not_mem_nil, or_false]
  omega

/-- No blank is a word character. -/
theorem isWordChar_eq_false_of_isBlank {c : Char} (h : isBlank c = true) :
    isWordChar c = false := by
  rw [isBlank_iff] at h
  have hall : ∀ n ∈ [0x09, 0x0A, 0x0B, 0x0C, 0x0D, 0x20, 0x85, 0xA0, 0x1680, 0x2000, 0x2001,
      0x2002, 0x2003, 0x2004, 0x2005, 0x2006, 0x2007, 0x2008, 0x2009, 0x200A, 0x2028, 0x2029,
      0x202F, 0x205F, 0x3000], WordChar.inRanges n (WordChar.rangesFor n) = false := by
    decide +kernel
  exact hall c.toNat h

theorem isBlank_eq_false_of_isWordChar {c : Char} (h : isWordChar c = true) :
    isBlank c = false := by
  by_contra hblank
  rw [Bool.not_eq_false] at hblank
  rw [isWordChar_eq_false_of_isBlank hblank] at h
  cases h

/-- A character of a list of texts comes from one of them or from what stands between them. -/
theorem exists_mem_of_mem_intercalate {c : Char} {sep : String} {texts : List String}
    (h : c ∈ (sep.intercalate texts).toList) : c ∈ sep.toList ∨ ∃ text ∈ texts, c ∈ text.toList := by
  induction texts with
  | nil => simp at h
  | cons text rest ih =>
    cases rest with
    | nil =>
      rw [String.intercalate_singleton] at h
      exact .inr ⟨text, List.mem_cons_self .., h⟩
    | cons next rest =>
      rw [String.intercalate_cons_cons, String.toList_append, String.toList_append,
        List.mem_append, List.mem_append] at h
      rcases h with (htext | hsep) | hrest
      · exact .inr ⟨text, List.mem_cons_self .., htext⟩
      · exact .inl hsep
      · exact (ih hrest).imp_right fun ⟨other, hother, hc⟩ =>
          ⟨other, List.mem_cons_of_mem _ hother, hc⟩

/-! ## Trimming -/

theorem trimBlank_trimBlank (cs : List Char) : trimBlank (trimBlank cs) = trimBlank cs := by
  have htrim : ∀ cs, trimBlank cs = (cs.dropWhile isBlank).rdropWhile isBlank := fun _ => rfl
  -- what stands in front is left in front, unless nothing is left
  have hfront : (trimBlank cs).dropWhile isBlank = trimBlank cs := by
    rw [List.dropWhile_eq_self_iff]
    intro hpos
    have hfront : trimBlank cs <+: cs.dropWhile isBlank := List.rdropWhile_prefix ..
    have hne : cs.dropWhile isBlank ≠ [] := by
      intro hnil
      rw [hnil, List.prefix_nil] at hfront
      rw [hfront] at hpos
      exact absurd hpos (Nat.lt_irrefl 0)
    rw [hfront.getElem hpos]
    exact List.dropWhile_get_zero_not isBlank cs (List.length_pos_iff.mpr hne)
  rw [htrim (trimBlank cs), hfront]
  exact List.rdropWhile_idempotent ..

/-- The names of a comma-separated text are trimmed. -/
theorem trimmed_of_mem_parentList {raw name : String} (h : name ∈ parentList raw) :
    trimmed name = name := by
  rw [parentList, List.mem_eraseDups, commaParts] at h
  obtain ⟨part, -, rfl⟩ := List.mem_map.mp (List.mem_filter.mp h).1
  rw [trimmed, String.toList_ofList, trimBlank_trimBlank]

end Lineage
