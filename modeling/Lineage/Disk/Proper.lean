import Lineage.Disk.Listing

/-!
# Proper listings

In a directory every name stands for one thing only, and a name is neither empty nor made of dots
that lead elsewhere, nor does it hold a separator. Putting something under such a name and taking
things out keeps that, at any depth.

## Main statements

- `Listing.Proper` is the property
- `Listing.proper_putAt` and `Listing.proper_eraseAt`
-/

namespace Lineage

namespace Listing

variable {α : Type}

/-! ## The property -/

/-- The names of a directory. -/
def names : Listing α → List String
  | .empty => []
  | .file n _ rest => n :: rest.names
  | .dir n _ rest => n :: rest.names

/-- Whether a text can be a name in a directory. -/
def isEntryName (name : String) : Bool :=
  name ≠ "" && name ≠ "." && name ≠ ".." && !name.toList.contains '/'

/-- Every name can be one and stands for one thing, also in the directories inside. -/
def Proper : Listing α → Prop
  | .empty => True
  | .file n _ rest => isEntryName n ∧ n ∉ rest.names ∧ rest.Proper
  | .dir n inside rest => isEntryName n ∧ n ∉ rest.names ∧ inside.Proper ∧ rest.Proper

end Listing

/-- A file, or a proper directory. -/
def Entry.Proper {α : Type} : Entry α → Prop
  | .file _ => True
  | .dir inside => inside.Proper

namespace Listing

variable {α : Type}

/-! ## Changes -/

theorem names_cons (n : String) (e : Entry α) (rest : Listing α) :
    (cons n e rest).names = n :: rest.names := by
  cases e <;> rfl

theorem proper_cons {n : String} {e : Entry α} {rest : Listing α} :
    (cons n e rest).Proper ↔ isEntryName n ∧ n ∉ rest.names ∧ e.Proper ∧ rest.Proper := by
  cases e <;> simp [cons, Proper, Entry.Proper]

theorem mem_names_put {n x : String} {e : Entry α} {l : Listing α} :
    x ∈ (l.put n e).names ↔ x = n ∨ x ∈ l.names := by
  induction l with
  | empty => simp [put, names_cons]
  | file m payload rest ih =>
    unfold put
    split
    · simp_all [names_cons, names]
    · simp only [names, List.mem_cons, ih]; grind
  | dir m inside rest _ ih =>
    unfold put
    split
    · simp_all [names_cons, names]
    · simp only [names, List.mem_cons, ih]; grind

theorem proper_put {n : String} {e : Entry α} {l : Listing α} (hl : l.Proper)
    (hn : isEntryName n) (he : e.Proper) : (l.put n e).Proper := by
  induction l with
  | empty => exact proper_cons.2 ⟨hn, by simp [names], he, trivial⟩
  | file m payload rest ih =>
    obtain ⟨hm, hfresh, hrest⟩ := hl
    unfold put
    split
    · rename_i h
      subst h
      exact proper_cons.2 ⟨hm, hfresh, he, hrest⟩
    · rename_i h
      exact ⟨hm, fun hx => (mem_names_put.1 hx).elim h hfresh, ih hrest⟩
  | dir m inside rest _ ih =>
    obtain ⟨hm, hfresh, hinside, hrest⟩ := hl
    unfold put
    split
    · rename_i h
      subst h
      exact proper_cons.2 ⟨hm, hfresh, he, hrest⟩
    · rename_i h
      exact ⟨hm, fun hx => (mem_names_put.1 hx).elim h hfresh, hinside, ih hrest⟩

theorem mem_names_of_mem_erase {n x : String} {l : Listing α} (h : x ∈ (l.erase n).names) :
    x ∈ l.names := by
  induction l with
  | empty => exact h
  | file m payload rest ih =>
    unfold erase at h
    split at h <;> simp_all [names]
    exact h.imp_right ih
  | dir m inside rest _ ih =>
    unfold erase at h
    split at h <;> simp_all [names]
    exact h.imp_right ih

theorem proper_erase {n : String} {l : Listing α} (hl : l.Proper) : (l.erase n).Proper := by
  induction l with
  | empty => exact hl
  | file m payload rest ih =>
    obtain ⟨hm, hfresh, hrest⟩ := hl
    unfold erase
    split
    · exact hrest
    · exact ⟨hm, fun hx => hfresh (mem_names_of_mem_erase hx), ih hrest⟩
  | dir m inside rest _ ih =>
    obtain ⟨hm, hfresh, hinside, hrest⟩ := hl
    unfold erase
    split
    · exact hrest
    · exact ⟨hm, fun hx => hfresh (mem_names_of_mem_erase hx), hinside, ih hrest⟩

/-- What a name of a proper listing stands for is proper. -/
theorem proper_of_find? {n : String} {e : Entry α} {l : Listing α} (hl : l.Proper)
    (h : l.find? n = some e) : isEntryName n ∧ e.Proper := by
  induction l with
  | empty => cases h
  | file m payload rest ih =>
    obtain ⟨hm, _, hrest⟩ := hl
    unfold find? at h
    split at h
    · rename_i hmn
      cases h
      exact ⟨hmn ▸ hm, trivial⟩
    · exact ih hrest h
  | dir m inside rest _ ih =>
    obtain ⟨hm, _, hinside, hrest⟩ := hl
    unfold find? at h
    split at h
    · rename_i hmn
      cases h
      exact ⟨hmn ▸ hm, hinside⟩
    · exact ih hrest h

theorem proper_putAt {e : Entry α} {l : Listing α} {above : List String} {n : String}
    (hl : l.Proper) (hn : isEntryName n) (he : e.Proper) : (l.putAt e (above ++ [n])).Proper := by
  induction above generalizing l with
  | nil => exact proper_put hl hn he
  | cons m above ih =>
    obtain ⟨k, rest, hk⟩ : ∃ k rest, above ++ [n] = k :: rest := by
      cases above <;> simp
    simp only [List.cons_append, hk, putAt]
    split
    · rename_i inside hfind
      obtain ⟨hm, hinside⟩ := proper_of_find? hl hfind
      exact proper_put hl hm (by simpa only [Entry.Proper, hk] using ih (l := inside) hinside)
    · exact hl

theorem proper_eraseAt {l : Listing α} {ns : List String} (hl : l.Proper) :
    (l.eraseAt ns).Proper := by
  fun_induction eraseAt l ns with
  | case1 => exact hl
  | case2 => exact proper_erase hl
  | case3 l m ns _ inside hfind ih =>
    obtain ⟨hm, hinside⟩ := proper_of_find? hl hfind
    exact proper_put hl hm (ih hinside)
  | case4 => exact hl

end Listing

end Lineage
