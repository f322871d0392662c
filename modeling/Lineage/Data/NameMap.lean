import Lineage.Data.NameSet

/-!
# Finite maps from names

A map is kept as its list of entries with strictly ascending keys, so that two maps with the same
entries are the same value and the list is the order in which the entries are shown.
-/

namespace Lineage

variable {β γ : Type}

/-! ## Insertion into a list of entries -/

/-- Binds a key in a list of entries with ascending keys, in place of an older binding. -/
def insertEntry (k : String) (v : β) : List (String × β) → List (String × β)
  | [] => [(k, v)]
  | e :: rest =>
    if k < e.1 then (k, v) :: e :: rest
    else if k = e.1 then (k, v) :: rest
    else e :: insertEntry k v rest

theorem pairwise_keys_nil : (([] : List (String × β)).map (·.1)).Pairwise (· < ·) :=
  List.Pairwise.nil

theorem keys_insertEntry (k : String) (v : β) (l : List (String × β)) :
    (insertEntry k v l).map (·.1) = insertName k (l.map (·.1)) := by
  induction l with
  | nil => rfl
  | cons e rest ih =>
    unfold insertEntry
    simp only [List.map_cons, insertName]
    split
    · rfl
    · split
      · rename_i h; simp [h]
      · simp [ih]

theorem eq_or_mem_of_mem_insertEntry {k : String} {v : β} {l : List (String × β)}
    {e : String × β} (h : e ∈ insertEntry k v l) : e = (k, v) ∨ e ∈ l := by
  induction l with
  | nil => simpa [insertEntry] using h
  | cons f rest ih =>
    unfold insertEntry at h
    split at h
    · grind
    · split at h <;> grind

/-! ## Maps -/

/-- A finite map from names. -/
structure NameMap (β : Type) where
  /-- The entries in ascending order of their keys. -/
  entries : List (String × β)
  ascending : (entries.map (·.1)).Pairwise (· < ·)
  deriving DecidableEq, Repr

namespace NameMap

/-- The map without entries. -/
def empty : NameMap β := ⟨[], pairwise_keys_nil⟩

instance : EmptyCollection (NameMap β) := ⟨empty⟩
instance : Inhabited (NameMap β) := ⟨empty⟩

/-- The value bound to a key. -/
def get? (m : NameMap β) (k : String) : Option β := m.entries.lookup k

/-- What is bound to a key is an entry. -/
theorem mem_entries_of_get? {m : NameMap β} {k : String} {v : β} (h : m.get? k = some v) :
    (k, v) ∈ m.entries := by
  obtain ⟨before, after, hm, _⟩ := List.lookup_eq_some_iff.1 h
  simp [hm]

/-- Whether a key is bound. -/
def contains (m : NameMap β) (k : String) : Bool := (m.get? k).isSome

/-- Binds a key, in place of an older binding. -/
def insert (m : NameMap β) (k : String) (v : β) : NameMap β :=
  ⟨insertEntry k v m.entries, by rw [keys_insertEntry]; exact pairwise_insertName m.ascending⟩

theorem eq_or_mem_of_mem_insert {m : NameMap β} {k : String} {v : β} {e : String × β}
    (h : e ∈ (m.insert k v).entries) : e = (k, v) ∨ e ∈ m.entries :=
  eq_or_mem_of_mem_insertEntry h

/-- Binds a key unless it is bound already. -/
def insertNew (m : NameMap β) (k : String) (v : β) : NameMap β :=
  if m.contains k then m else m.insert k v

/-- Changes the value of a key, which is taken to be `fresh` if there is none. -/
def modifyD (m : NameMap β) (k : String) (fresh : β) (f : β → β) : NameMap β :=
  m.insert k (f ((m.get? k).getD fresh))

/-- Binds every entry of a list, later ones in place of earlier ones. -/
def insertAll (m : NameMap β) (es : List (String × β)) : NameMap β :=
  es.foldl (fun m e => m.insert e.1 e.2) m

/-- The entries of both maps; the second one wins where both bind a key. -/
def merge (m m' : NameMap β) : NameMap β := m.insertAll m'.entries

/-- The map of a list of entries, later ones in place of earlier ones. -/
def ofList (es : List (String × β)) : NameMap β := empty.insertAll es

/-- The keys in ascending order. -/
def keys (m : NameMap β) : List String := m.entries.map (·.1)

/-- The values in the order of their keys. -/
def values (m : NameMap β) : List β := m.entries.map (·.2)

/-- The number of entries. -/
def size (m : NameMap β) : Nat := m.entries.length

/-- Whether there are no entries. -/
def isEmpty (m : NameMap β) : Bool := m.entries.isEmpty

end NameMap

end Lineage
