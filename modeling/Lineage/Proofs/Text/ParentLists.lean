import Lineage.ClassLine
import Lineage.Proofs.Data.Names
import Lineage.Proofs.Text.Characters

/-!
# Parent lists and their texts

Reading a text of names that are separated by commas gives a parent list: distinct names, each
trimmed, without a comma in it and not empty. Written with a comma and a blank between its names
such a list is read back as it was. As no colon stands in a word, the line of a class tells its name
from its parents.

## Main definitions

- `IsParentList`: the lists that reading may give
- `ClassLine.ofLine` reads the line of a class

## Main statements

- `isParentList_parentList`, `mem_parentList_iff`, `pairwise_idxOf_parentList`: what is read
- `parentList_intercalate`: what is written is read back
- `ClassLine.ofLine_render`: a class from its line
- `parentList_lasting`: all of this for one text
-/

namespace Lineage

variable {raw : String} {names : List String}

/-! ## Parts -/

/-- The parts of a split list do not hold what it was split at. -/
theorem notMem_of_mem_splitOn {α : Type} [DecidableEq α] {sep : α} {xs part : List α}
    (h : part ∈ xs.splitOn sep) : sep ∉ part := by
  induction xs generalizing part with
  | nil =>
    rw [List.splitOn_nil, List.mem_singleton] at h
    rw [h]
    exact List.not_mem_nil
  | cons x xs ih =>
    rw [List.splitOn_cons_eq_if_modifyHead] at h
    split at h
    · rcases List.mem_cons.mp h with rfl | h
      · exact List.not_mem_nil
      · exact ih h
    · -- the first member belongs to the first part
      rename_i hx
      obtain ⟨first, rest, hsplit⟩ := List.exists_cons_of_ne_nil (List.splitOn_ne_nil sep xs)
      rw [hsplit, List.modifyHead_cons] at h
      rcases List.mem_cons.mp h with rfl | h
      · rw [List.mem_cons, not_or]
        refine ⟨fun heq => hx (by simp [heq]), ih ?_⟩
        rw [hsplit]
        exact List.mem_cons_self ..
      · apply ih
        rw [hsplit]
        exact List.mem_cons_of_mem _ h

/-- The name that a part of a text gives. -/
def partName (part : List Char) : String := String.ofList (trimBlank part)

/-- The parts of a text that is separated by commas. -/
def textParts (raw : String) : List (List Char) := raw.toList.splitOn ','

theorem commaParts_eq : commaParts raw = ((textParts raw).map partName).filter (· ≠ "") := rfl

theorem parentList_eq : parentList raw = firstOfEach id (commaParts raw) := rfl

theorem trimBlank_sublist (cs : List Char) : (trimBlank cs).Sublist cs := by
  have hback : (((cs.dropWhile isBlank).reverse.dropWhile isBlank).reverse).Sublist
      (cs.dropWhile isBlank).reverse.reverse :=
    (List.dropWhile_sublist isBlank).reverse
  rw [List.reverse_reverse] at hback
  exact hback.trans (List.dropWhile_sublist isBlank)

/-! ## What is read -/

/-- Distinct names, none of them empty, each trimmed and without a comma. -/
structure IsParentList (names : List String) : Prop where
  nodup : names.Nodup
  ne_empty : ∀ name ∈ names, name ≠ ""
  trimmed : ∀ name ∈ names, trimmed name = name
  comma_notMem : ∀ name ∈ names, ',' ∉ name.toList

theorem mem_parentList_iff {name : String} :
    name ∈ parentList raw ↔ name ≠ "" ∧ ∃ part ∈ textParts raw, partName part = name := by
  rw [parentList, List.mem_eraseDups, commaParts_eq, List.mem_filter, List.mem_map,
    decide_eq_true_iff, and_comm]

theorem isParentList_parentList (raw : String) : IsParentList (parentList raw) where
  nodup := by
    have hnodup := nodup_firstOfEach id (commaParts raw)
    rwa [List.map_id] at hnodup
  ne_empty := fun _ hname => (mem_parentList_iff.mp hname).1
  trimmed := fun _ hname => trimmed_of_mem_parentList hname
  comma_notMem := by
    intro name hname hcomma
    obtain ⟨-, part, hpart, rfl⟩ := mem_parentList_iff.mp hname
    rw [partName, String.toList_ofList] at hcomma
    exact notMem_of_mem_splitOn hpart ((trimBlank_sublist part).subset hcomma)

/-- Names stand in the order of the parts that first give them. -/
theorem pairwise_idxOf_parentList (raw : String) :
    (parentList raw).Pairwise fun x y =>
      ((textParts raw).map partName).idxOf x < ((textParts raw).map partName).idxOf y := by
  have hordered := pairwise_idxOf_firstOfEach (commaParts raw)
  refine hordered.imp_of_mem fun {x y} hx hy hlt => ?_
  have hne : ∀ {name : String}, name ∈ parentList raw → name ≠ "" :=
    fun hname => (isParentList_parentList raw).ne_empty _ hname
  exact (idxOf_filter_lt_iff (p := fun name => decide (name ≠ "")) (decide_eq_true (hne hx))
    (decide_eq_true (hne hy))).mp hlt

/-! ## Writing and reading back -/

/-- A blank behind every comma belongs to the part behind it. -/
theorem intercalate_comma_blank (first : List Char) (rest : List (List Char)) :
    [',', ' '].intercalate (first :: rest) = [','].intercalate (first :: rest.map (' ' :: ·)) := by
  induction rest generalizing first with
  | nil => rw [List.map_nil, List.intercalate_singleton, List.intercalate_singleton]
  | cons next rest ih =>
    rw [List.intercalate_cons_cons, ih next, List.map_cons, List.intercalate_cons_cons,
      ← List.singleton_append, ← List.singleton_append]
    cases rest <;> simp

theorem trimBlank_blank_cons {c : Char} (h : isBlank c = true) (cs : List Char) :
    trimBlank (c :: cs) = trimBlank cs := by
  rw [trimBlank, List.dropWhile_cons_of_pos h, trimBlank]

/-- The parts of a text in which names stand with a comma and a blank between them. -/
theorem textParts_intercalate {first : String} {rest : List String}
    (h : ∀ name ∈ first :: rest, ',' ∉ name.toList) :
    textParts (", ".intercalate (first :: rest))
      = first.toList :: rest.map fun name => ' ' :: name.toList := by
  obtain ⟨hfirst, hrest⟩ := List.forall_mem_cons.mp h
  have hseparator : ", ".toList = [',', ' '] := rfl
  have hparts : ∀ part ∈ first.toList :: rest.map fun name => ' ' :: name.toList, ',' ∉ part := by
    intro part hpart
    rcases List.mem_cons.mp hpart with rfl | hpart
    · exact hfirst
    · obtain ⟨name, hname, rfl⟩ := List.mem_map.mp hpart
      rw [List.mem_cons, not_or]
      exact ⟨by decide, hrest name hname⟩
  rw [textParts, String.toList_intercalate, hseparator, List.map_cons, intercalate_comma_blank,
    List.map_map]
  exact List.splitOn_intercalate ',' hparts (List.cons_ne_nil _ _)

/-- A parent list is read back from the text that it is written as. -/
theorem parentList_intercalate (h : IsParentList names) :
    parentList (", ".intercalate names) = names := by
  cases names with
  | nil => rfl
  | cons first rest =>
    have hname : ∀ name ∈ first :: rest, partName name.toList = name :=
      fun name hmem => h.trimmed name hmem
    have hblank : ∀ cs, partName (' ' :: cs) = partName cs := by
      intro cs
      rw [partName, trimBlank_blank_cons rfl, partName]
    -- every part gives its name, and no name is empty or stands twice
    have hparts : (textParts (", ".intercalate (first :: rest))).map partName = first :: rest := by
      have hrest : (partName ∘ fun name : String => ' ' :: name.toList)
          = fun name => partName name.toList := funext fun name => hblank name.toList
      rw [textParts_intercalate h.comma_notMem, List.map_cons, List.map_map, hrest,
        hname first (List.mem_cons_self ..)]
      refine congrArg (first :: ·) ?_
      exact (List.map_congr_left fun name hmem => hname name (List.mem_cons_of_mem _ hmem)).trans
        (List.map_id _)
    have hkept : (first :: rest).filter (· ≠ "") = first :: rest := by
      rw [List.filter_eq_self]
      exact fun name hmem => decide_eq_true (h.ne_empty name hmem)
    rw [parentList_eq, commaParts_eq, hparts, hkept]
    apply firstOfEach_eq_self
    rw [List.map_id]
    exact h.nodup

/-- Every parent list can be read from some text. -/
theorem isParentList_iff : IsParentList names ↔ ∃ raw, parentList raw = names := by
  constructor
  · exact fun h => ⟨_, parentList_intercalate h⟩
  · rintro ⟨raw, rfl⟩
    exact isParentList_parentList raw

/-! ## Class lines -/

namespace ClassLine

/-- The class of a line with a marker: behind the marker and a blank the name is the word that stands
    there, and the parents are listed behind the name, a colon and a blank. -/
def ofLine (marker line : String) : ClassLine :=
  let declared := (line.toList.drop (marker.toList.length + 1)).dropLast
  { name := String.ofList (declared.takeWhile isWordChar)
    parents := parentList (String.ofList ((declared.dropWhile isWordChar).drop 2)) }

/-- What stands behind the name of a class. -/
def parentText (parents : List String) : List Char :=
  if parents = [] then [] else ':' :: ' ' :: (", ".intercalate parents).toList

theorem toList_declaration (c : ClassLine) :
    c.declaration.toList = c.name.toList ++ parentText c.parents := by
  rw [declaration, parentText]
  split
  · rw [List.append_nil]
  · simp

/-- A line consists of the marker, a blank, the declaration and a newline. -/
theorem toList_render (c : ClassLine) (marker : String) :
    (c.render marker).toList
      = marker.toList ++ ' ' :: (c.declaration.toList ++ ['\n']) := by
  simp [render]

/-- No word goes on where the name of a class ends. -/
theorem isWordChar_head?_parentText {parents : List String} {c : Char}
    (h : (parentText parents).head? = some c) : isWordChar c = false := by
  rw [parentText] at h
  split at h
  · cases h
  · obtain rfl : ':' = c := Option.some.inj h
    decide

/-- The list of parents is found behind the name. -/
theorem parentList_drop_parentText {parents : List String} (h : IsParentList parents) :
    parentList (String.ofList ((parentText parents).drop 2)) = parents := by
  rw [parentText]
  split
  · rename_i hnil
    rw [hnil]
    rfl
  · show parentList (String.ofList (", ".intercalate parents).toList) = parents
    rw [String.ofList_toList, parentList_intercalate h]

/-- A class is found again in its line if its name is a word and its parents are a parent list. -/
theorem ofLine_render {c : ClassLine} (hname : ∀ ch ∈ c.name.toList, isWordChar ch = true)
    (hparents : IsParentList c.parents) (marker : String) :
    ofLine marker (c.render marker) = c := by
  have hdeclared : ((c.render marker).toList.drop (marker.toList.length + 1)).dropLast
      = c.name.toList ++ parentText c.parents := by
    rw [toList_render, List.drop_length_add_append, List.drop_succ_cons, List.drop_zero,
      List.dropLast_concat, toList_declaration]
  -- the name is a word, and behind it there is none
  have hstop : ∀ ch ∈ (parentText c.parents).head?, isWordChar ch = false :=
    fun ch hch => isWordChar_head?_parentText hch
  simp only [ofLine, hdeclared, takeWhile_run hname hstop, dropWhile_run hname hstop, String.ofList_toList,
    parentList_drop_parentText hparents]

end ClassLine

/-- What is read from a text of names that are separated by commas: distinct, trimmed names without
    commas, none of them empty. The text is its parts with commas between them; a name that is not
    empty is read if it is what is left of a part when it is trimmed, and names stand in the order in
    which the parts first give them. Written with a comma and a blank between its names the list is
    read again, and from the line of a class with these parents the name and the parents are found
    again, so the lines of two such classes differ. -/
theorem parentList_lasting (raw : String) :
    IsParentList (parentList raw) ∧
    (∃ parts : List (List Char),
      parts ≠ [] ∧ (∀ part ∈ parts, ',' ∉ part) ∧ [','].intercalate parts = raw.toList ∧
      (∀ name, name ∈ parentList raw ↔
        name ≠ "" ∧ ∃ part ∈ parts, String.ofList (trimBlank part) = name) ∧
      (parentList raw).Pairwise fun x y =>
        (parts.map fun part => String.ofList (trimBlank part)).idxOf x
          < (parts.map fun part => String.ofList (trimBlank part)).idxOf y) ∧
    parentList (", ".intercalate (parentList raw)) = parentList raw ∧
    ∀ marker name, (∀ c ∈ name.toList, isWordChar c = true) →
      ClassLine.ofLine marker (ClassLine.render ⟨name, parentList raw⟩ marker)
        = ⟨name, parentList raw⟩ ∧
      ∀ name' raw', (∀ c ∈ name'.toList, isWordChar c = true) →
        ClassLine.render ⟨name', parentList raw'⟩ marker
          = ClassLine.render ⟨name, parentList raw⟩ marker →
        name' = name ∧ parentList raw' = parentList raw := by
  have hlist := isParentList_parentList raw
  refine ⟨hlist, ⟨textParts raw, List.splitOn_ne_nil _ _, fun _ => notMem_of_mem_splitOn,
    List.intercalate_splitOn ',', fun _ => mem_parentList_iff, pairwise_idxOf_parentList raw⟩,
    parentList_intercalate hlist, fun marker name hname => ?_⟩
  have hread : ClassLine.ofLine marker (ClassLine.render ⟨name, parentList raw⟩ marker)
      = ⟨name, parentList raw⟩ := ClassLine.ofLine_render hname hlist marker
  refine ⟨hread, fun name' raw' hname' heq => ?_⟩
  have hread' := ClassLine.ofLine_render (c := ⟨name', parentList raw'⟩) hname'
    (isParentList_parentList raw') marker
  rw [heq, hread] at hread'
  exact ⟨(congrArg ClassLine.name hread').symm, (congrArg ClassLine.parents hread').symm⟩

/-- A text with empty parts and a repeated name, and a name with a colon in it that might be taken
    for the one behind the class name. -/
theorem parentList_lasting_colon :
    (∀ c ∈ "Child".toList, isWordChar c = true) ∧
      parentList " A: B,, C d ,A: B" = ["A: B", "C d"] ∧
      ClassLine.render ⟨"Child", ["A: B", "C d"]⟩ "---@class" = "---@class Child: A: B, C d\n" ∧
      ClassLine.ofLine "---@class" "---@class Child: A: B, C d\n" = ⟨"Child", ["A: B", "C d"]⟩ := by
  have hname : ∀ c ∈ "Child".toList, isWordChar c = true :=
    List.all_eq_true.mp (by decide +kernel)
  have hread : parentList " A: B,, C d ,A: B" = ["A: B", "C d"] := by decide +kernel
  have hline : ClassLine.render ⟨"Child", ["A: B", "C d"]⟩ "---@class"
      = "---@class Child: A: B, C d\n" := by decide +kernel
  obtain ⟨-, -, -, hclass⟩ := parentList_lasting " A: B,, C d ,A: B"
  have hfound := (hclass "---@class" "Child" hname).1
  rw [hread, hline] at hfound
  exact ⟨hname, hread, hline, hfound⟩

end Lineage
