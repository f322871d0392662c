/-!
# Finite sets of names

A set of names is kept as its strictly ascending list, so that two sets with the same members are
the same value and the list is the order in which the members are shown.
-/

namespace Lineage

/-! ## Insertion into an ascending list -/

/-- Puts a name in its place in an ascending list, unless it is there already. -/
def insertName (a : String) : List String → List String
  | [] => [a]
  | b :: rest =>
    if a < b then a :: b :: rest
    else if a = b then b :: rest
    else b :: insertName a rest

theorem mem_insertName {a x : String} {l : List String} :
    x ∈ insertName a l ↔ x = a ∨ x ∈ l := by
  induction l with
  | nil => simp [insertName]
  | cons b rest ih =>
    unfold insertName
    split
    · simp
    · split
      · simp_all
      · simp only [List.mem_cons, ih]; grind

theorem pairwise_insertName {a : String} {l : List String} (h : l.Pairwise (· < ·)) :
    (insertName a l).Pairwise (· < ·) := by
  induction l with
  | nil => simp [insertName]
  | cons b rest ih =>
    rw [List.pairwise_cons] at h
    unfold insertName
    split
    · rename_i hab
      refine List.pairwise_cons.2 ⟨fun x hx => ?_, List.pairwise_cons.2 h⟩
      rcases List.mem_cons.1 hx with rfl | hx
      · exact hab
      · exact String.lt_trans hab (h.1 x hx)
    · split
      · exact List.pairwise_cons.2 h
      · refine List.pairwise_cons.2 ⟨fun x hx => ?_, ih h.2⟩
        rcases mem_insertName.1 hx with rfl | hx
        · grind
        · exact h.1 x hx

/-! ## Sets -/

/-- A finite set of names. -/
structure NameSet where
  /-- The members in ascending order. -/
  toList : List String
  ascending : toList.Pairwise (· < ·)
  deriving DecidableEq, Repr

namespace NameSet

instance : Membership String NameSet := ⟨fun s x => x ∈ s.toList⟩

instance (x : String) (s : NameSet) : Decidable (x ∈ s) :=
  inferInstanceAs (Decidable (x ∈ s.toList))

/-- The set without members. -/
def empty : NameSet := ⟨[], .nil⟩

instance : EmptyCollection NameSet := ⟨empty⟩
instance : Inhabited NameSet := ⟨empty⟩

/-- Adds a member. -/
def insert (s : NameSet) (x : String) : NameSet :=
  ⟨insertName x s.toList, pairwise_insertName s.ascending⟩

/-- Adds every name of a list. -/
def insertAll (s : NameSet) (names : List String) : NameSet :=
  names.foldl insert s

/-- The members of either set. -/
def union (s t : NameSet) : NameSet := t.insertAll s.toList

/-- Takes a member out. -/
def erase (s : NameSet) (x : String) : NameSet :=
  ⟨s.toList.filter (· ≠ x), s.ascending.filter _⟩

/-- The set of the names in a list. -/
def ofList (names : List String) : NameSet := empty.insertAll names

/-- The number of members. -/
def size (s : NameSet) : Nat := s.toList.length

/-- Whether there are no members. -/
def isEmpty (s : NameSet) : Bool := s.toList.isEmpty

@[simp] theorem mem_toList {s : NameSet} {x : String} : x ∈ s.toList ↔ x ∈ s := Iff.rfl

@[simp] theorem mem_insert {s : NameSet} {x y : String} : y ∈ s.insert x ↔ y = x ∨ y ∈ s :=
  mem_insertName

@[simp] theorem mem_erase {s : NameSet} {x y : String} : y ∈ s.erase x ↔ y ∈ s ∧ y ≠ x := by
  rw [← mem_toList, ← mem_toList]
  simp [erase]

end NameSet

end Lineage
