import Lineage.Data.NameMap
import Mathlib.Data.List.Sort

/-!
# Names in sets, maps and lists

What is in a set after names were added, what is bound in a map after keys were, and what is left of
a list when only the first member with each key is kept.

## Main definitions

- `firstOfEach`: the first member of a list with each key

## Main statements

- `NameSet.mem_insertAll`, `NameSet.mem_ofList`, `NameSet.mem_union`
- `NameSet.ext`: a set is determined by its members
- `NameMap.get?_insert`, `NameMap.mem_keys_iff`
- `NameMap.ext`: a map is determined by what is bound to each key
- `NameMap.get?_merge`: what is bound after a merge
- `nodup_firstOfEach`, `mem_keys_firstOfEach`, `mem_firstOfEach_iff`: what is left of a list
- `pairwise_idxOf_firstOfEach`: in which order
-/

namespace Lineage

/-! ## Sets -/

namespace NameSet

@[simp] theorem notMem_empty (x : String) : x ∉ (∅ : NameSet) := by
  intro h
  cases h

@[simp] theorem mem_insertAll {s : NameSet} {names : List String} {x : String} :
    x ∈ s.insertAll names ↔ x ∈ names ∨ x ∈ s := by
  rw [insertAll]
  induction names generalizing s with
  | nil => simp
  | cons name rest ih =>
    rw [List.foldl_cons, ih, mem_insert, List.mem_cons]
    exact ⟨fun h => by rcases h with h | h | h <;> simp [h],
      fun h => by rcases h with (h | h) | h <;> simp [h]⟩

@[simp] theorem mem_ofList {names : List String} {x : String} : x ∈ ofList names ↔ x ∈ names := by
  have hempty : x ∉ empty := notMem_empty x
  rw [ofList, mem_insertAll]
  simp [hempty]

@[simp] theorem mem_foldl_insertAll {s : NameSet} {lists : List (List String)} {x : String} :
    x ∈ lists.foldl insertAll s ↔ (∃ names ∈ lists, x ∈ names) ∨ x ∈ s := by
  induction lists generalizing s with
  | nil => simp
  | cons names rest ih =>
    rw [List.foldl_cons, ih, mem_insertAll]
    simp only [List.mem_cons, exists_eq_or_imp]
    exact ⟨fun h => by rcases h with h | h | h <;> simp [h],
      fun h => by rcases h with (h | h) | h <;> simp [h]⟩

@[simp] theorem mem_union {s t : NameSet} {x : String} : x ∈ s.union t ↔ x ∈ s ∨ x ∈ t := by
  rw [union, mem_insertAll, mem_toList, or_comm]

/-- The ascending list leaves no choice. -/
theorem ext {s t : NameSet} (h : ∀ x, x ∈ s ↔ x ∈ t) : s = t := by
  have hlists : s.toList = t.toList := by
    apply List.Pairwise.eq_of_mem_iff s.ascending t.ascending
    intro x
    exact h x
  cases s
  cases t
  cases hlists
  rfl

theorem nodup_toList (s : NameSet) : s.toList.Nodup :=
  s.ascending.imp fun h => String.ne_of_lt h

end NameSet

/-! ## Maps -/

namespace NameMap

variable {β : Type} {m m' : NameMap β} {k k' : String} {v : β}

@[simp] theorem get?_empty (k : String) : (∅ : NameMap β).get? k = none := rfl

theorem lookup_insertEntry (k k' : String) (v : β) (l : List (String × β)) :
    (insertEntry k v l).lookup k' = if k' = k then some v else l.lookup k' := by
  induction l with
  | nil =>
    rw [insertEntry, List.lookup_cons]
    split <;> simp_all
  | cons e rest ih =>
    obtain ⟨key, value⟩ := e
    -- the key goes in front of the first greater one, or takes the place of its own
    rw [insertEntry]
    split
    · rw [List.lookup_cons]
      split <;> simp_all
    · split
      · rename_i hk
        obtain rfl : k = key := hk
        simp only [List.lookup_cons]
        split <;> simp_all
      · rename_i hk
        simp only [List.lookup_cons, ih]
        split
        · rename_i hkey
          obtain rfl : k' = key := by simpa using hkey
          have hne : k' ≠ k := fun h => hk h.symm
          simp [hne]
        · rfl

/-- Binding a key changes what is bound to it, and nothing else. -/
theorem get?_insert : (m.insert k v).get? k' = if k' = k then some v else m.get? k' :=
  lookup_insertEntry k k' v m.entries

theorem get?_modifyD {fresh : β} {f : β → β} :
    (m.modifyD k fresh f).get? k'
      = if k' = k then some (f ((m.get? k).getD fresh)) else m.get? k' :=
  get?_insert

theorem get?_insertNew :
    (m.insertNew k v).get? k' = if k' = k then some ((m.get? k).getD v) else m.get? k' := by
  rw [insertNew, contains]
  cases hbound : m.get? k with
  | none => simp [get?_insert]
  | some old =>
    by_cases heq : k' = k
    · simp [heq, hbound]
    · simp [heq]

/-- Of many keys, those that were not bound before get the value. -/
theorem get?_foldl_insertNew (names : List String) :
    (names.foldl (fun m name => m.insertNew name v) m).get? k
      = (m.get? k).or (if k ∈ names then some v else none) := by
  induction names generalizing m with
  | nil => simp
  | cons name rest ih =>
    rw [List.foldl_cons, ih, get?_insertNew]
    by_cases heq : k = name
    · subst heq
      cases m.get? k <;> simp
    · simp [heq]

/-- Changing the values of a list of entries, before a key is bound or afterwards. -/
theorem insertEntry_map {γ : Type} (f : β → γ) (k : String) (v : β) (l : List (String × β)) :
    insertEntry k (f v) (l.map fun e => (e.1, f e.2))
      = (insertEntry k v l).map fun e => (e.1, f e.2) := by
  induction l with
  | nil => rfl
  | cons e rest ih =>
    rw [List.map_cons, insertEntry, insertEntry]
    split
    · rfl
    · split
      · rfl
      · rw [ih, List.map_cons]

theorem lookup_map {γ : Type} (f : β → γ) (k : String) (l : List (String × β)) :
    (l.map fun e => (e.1, f e.2)).lookup k = (l.lookup k).map f := by
  induction l with
  | nil => rfl
  | cons e rest ih =>
    rw [List.map_cons, List.lookup_cons, List.lookup_cons, ih]
    split <;> rfl

theorem mem_keys_iff : k ∈ m.keys ↔ ∃ v, m.get? k = some v := by
  rw [keys, get?]
  induction m.entries with
  | nil => simp
  | cons e rest ih =>
    obtain ⟨key, value⟩ := e
    rw [List.map_cons, List.mem_cons, List.lookup_cons, ih]
    split
    · rename_i h
      simp [show k = key by simpa using h]
    · rename_i h
      simp [show k ≠ key by simpa using h]

theorem nodup_keys (m : NameMap β) : m.keys.Nodup :=
  m.ascending.imp fun h => String.ne_of_lt h

theorem size_eq_length_keys (m : NameMap β) : m.size = m.keys.length := by
  rw [keys, List.length_map, size]

theorem mem_values_of_get? (h : m.get? k = some v) : v ∈ m.values :=
  List.mem_map_of_mem (mem_entries_of_get? h)

/-- Where no key is bound twice, what is bound to a key is what stands with it. -/
theorem lookup_eq_some_iff_mem {l : List (String × β)} (h : (l.map (·.1)).Nodup) :
    l.lookup k = some v ↔ (k, v) ∈ l := by
  rw [List.lookup_eq_some_iff]
  constructor
  · rintro ⟨before, after, rfl, -⟩
    simp
  · intro hmem
    obtain ⟨before, after, rfl⟩ := List.append_of_mem hmem
    refine ⟨before, after, rfl, fun e he => ?_⟩
    rw [List.map_append, List.map_cons] at h
    have hne := (List.nodup_append.mp h).2.2 e.1 (List.mem_map_of_mem he) k (List.mem_cons_self ..)
    simpa using hne.symm

theorem mem_entries_iff : (k, v) ∈ m.entries ↔ m.get? k = some v :=
  (lookup_eq_some_iff_mem m.nodup_keys).symm

/-- A map is determined by what is bound to each key. -/
theorem ext (h : ∀ k, m.get? k = m'.get? k) : m = m' := by
  have hentries : m.entries = m'.entries := by
    apply List.Pairwise.eq_of_mem_iff (List.pairwise_map.mp m.ascending)
      (List.pairwise_map.mp m'.ascending)
    rintro ⟨k, v⟩
    rw [mem_entries_iff, mem_entries_iff, h]
  cases m
  cases m'
  cases hentries
  rfl

/-! ## Merging maps -/

/-- Of the bindings in a list the last one counts. -/
theorem get?_insertAll (es : List (String × β)) :
    (m.insertAll es).get? k = (es.reverse.lookup k).or (m.get? k) := by
  induction es generalizing m with
  | nil => rfl
  | cons e es ih =>
    have hstep : m.insertAll (e :: es) = (m.insert e.1 e.2).insertAll es := rfl
    rw [hstep, ih, get?_insert, List.reverse_cons, List.lookup_append, Option.or_assoc,
      List.lookup_cons, List.lookup_nil]
    cases hk : k == e.1 with
    | true => simp [show k = e.1 by simpa using hk]
    | false => simp [show k ≠ e.1 by simpa using hk]

/-- Where no key is bound twice, every binding in a list counts. -/
theorem get?_ofList_eq_some_iff {es : List (String × β)} (h : (es.map (·.1)).Nodup) :
    (ofList es).get? k = some v ↔ (k, v) ∈ es := by
  have hreverse : (es.reverse.map (·.1)).Nodup := by
    rw [List.map_reverse, List.nodup_reverse]
    exact h
  have hempty : (empty : NameMap β).get? k = none := rfl
  rw [ofList, get?_insertAll, hempty, Option.or_none, lookup_eq_some_iff_mem hreverse,
    List.mem_reverse]

/-- The second map wins where both bind a key. -/
theorem get?_merge : (m.merge m').get? k = (m'.get? k).or (m.get? k) := by
  -- the entries of a map may be taken backwards
  have hreverse : (m'.entries.reverse.map (·.1)).Nodup := by
    rw [List.map_reverse, List.nodup_reverse]
    exact m'.nodup_keys
  have hlookup : m'.entries.reverse.lookup k = m'.get? k := by
    ext v
    rw [lookup_eq_some_iff_mem hreverse, List.mem_reverse, mem_entries_iff]
  rw [merge, get?_insertAll, hlookup]

theorem merge_assoc (m m' m'' : NameMap β) : (m.merge m').merge m'' = m.merge (m'.merge m'') := by
  apply ext
  intro k
  simp only [get?_merge, Option.or_assoc]

theorem empty_merge (m : NameMap β) : merge ∅ m = m := by
  apply ext
  intro k
  rw [get?_merge, get?_empty, Option.or_none]

theorem merge_self (m : NameMap β) : m.merge m = m := by
  apply ext
  intro k
  rw [get?_merge, Option.or_self]

/-- Bindings may be made in a map of their own first. -/
theorem insertAll_eq_merge (m : NameMap β) (es : List (String × β)) :
    m.insertAll es = m.merge (insertAll ∅ es) := by
  apply ext
  intro k
  rw [get?_merge, get?_insertAll, get?_insertAll, get?_empty, Option.or_none]

end NameMap

/-! ## Lists with repetitions dropped -/

section

variable {α β γ : Type} [DecidableEq β] (key : α → β)

/-- Of the members with the same key the first one. -/
def firstOfEach (l : List α) : List α := l.eraseDupsBy fun x y => key x == key y

theorem firstOfEach_cons (a : α) (l : List α) :
    firstOfEach key (a :: l) = a :: firstOfEach key (l.filter fun x => key x ≠ key a) := by
  rw [firstOfEach, List.eraseDupsBy_cons, firstOfEach]
  simp

/-- The members behind the first one that have other keys than it are fewer. -/
@[elab_as_elim]
theorem firstOfEach_induction {motive : List α → Prop} (nil : motive [])
    (cons : ∀ a l, motive (l.filter fun x => key x ≠ key a) → motive (a :: l)) (l : List α) :
    motive l := by
  match l with
  | [] => exact nil
  | a :: l => exact cons a l (firstOfEach_induction nil cons _)
termination_by l.length
decreasing_by exact Nat.lt_succ_of_le (List.length_filter_le ..)

theorem firstOfEach_map (f : γ → α) (l : List γ) :
    firstOfEach key (l.map f) = (firstOfEach (key ∘ f) l).map f := by
  induction l using firstOfEach_induction (key ∘ f) with
  | nil => rfl
  | cons a l ih =>
    rw [List.map_cons, firstOfEach_cons, firstOfEach_cons, List.map_cons, ← ih, List.filter_map]
    rfl

theorem sublist_firstOfEach (l : List α) : (firstOfEach key l).Sublist l := by
  induction l using firstOfEach_induction key with
  | nil => exact List.Sublist.refl []
  | cons a l ih =>
    rw [firstOfEach_cons]
    exact (ih.trans List.filter_sublist).cons_cons a

/-- No key is left twice. -/
theorem nodup_firstOfEach (l : List α) : ((firstOfEach key l).map key).Nodup := by
  induction l using firstOfEach_induction key with
  | nil => exact List.nodup_nil
  | cons a l ih =>
    rw [firstOfEach_cons, List.map_cons, List.nodup_cons]
    refine ⟨fun hmem => ?_, ih⟩
    obtain ⟨x, hx, heq⟩ := List.mem_map.mp hmem
    have hother := (List.mem_filter.mp ((sublist_firstOfEach key _).subset hx)).2
    exact of_decide_eq_true hother heq

/-- No key gets lost. -/
theorem mem_keys_firstOfEach {k : β} {l : List α} :
    k ∈ (firstOfEach key l).map key ↔ k ∈ l.map key := by
  induction l using firstOfEach_induction key with
  | nil => exact Iff.rfl
  | cons a l ih =>
    rw [firstOfEach_cons, List.map_cons, List.mem_cons, ih, List.map_cons, List.mem_cons]
    by_cases hk : k = key a
    · simp [hk]
    · simp only [hk, false_or, List.mem_map, List.mem_filter, decide_eq_true_eq]
      constructor
      · rintro ⟨x, ⟨hx, -⟩, rfl⟩
        exact ⟨x, hx, rfl⟩
      · rintro ⟨x, hx, rfl⟩
        exact ⟨x, ⟨hx, hk⟩, rfl⟩

/-- Nothing is dropped where no key stands twice. -/
theorem firstOfEach_eq_self {l : List α} (h : (l.map key).Nodup) : firstOfEach key l = l := by
  induction l with
  | nil => rfl
  | cons a l ih =>
    rw [List.map_cons, List.nodup_cons] at h
    have hothers : l.filter (fun x => key x ≠ key a) = l := by
      rw [List.filter_eq_self]
      intro x hx
      refine decide_eq_true fun heq => h.1 ?_
      rw [← heq]
      exact List.mem_map_of_mem hx
    rw [firstOfEach_cons, hothers, ih h.2]

/-- In a list that is in order a member stays if no earlier one has its key. -/
theorem mem_firstOfEach_iff {before : α → α → Prop} [Std.Asymm before] {l : List α}
    (h : l.Pairwise before) {x : α} :
    x ∈ firstOfEach key l ↔ x ∈ l ∧ ∀ y ∈ l, before y x → key y ≠ key x := by
  induction l using firstOfEach_induction key with
  | nil => simp [firstOfEach]
  | cons a l ih =>
    obtain ⟨hfirst, hrest⟩ := List.pairwise_cons.mp h
    rw [firstOfEach_cons, List.mem_cons, ih (hrest.filter _), List.mem_filter]
    constructor
    · rintro (rfl | ⟨⟨hx, hother⟩, hmin⟩)
      · -- nothing comes before the head
        refine ⟨List.mem_cons_self .., fun y hy hbefore => ?_⟩
        rcases List.mem_cons.mp hy with rfl | hy
        · exact absurd hbefore (Std.Asymm.asymm _ _ hbefore)
        · exact absurd (hfirst y hy) (Std.Asymm.asymm _ _ hbefore)
      · have hne : key x ≠ key a := of_decide_eq_true hother
        refine ⟨List.mem_cons_of_mem _ hx, fun y hy hbefore heq => ?_⟩
        rcases List.mem_cons.mp hy with rfl | hy
        · exact hne heq.symm
        · have hkept : key y ≠ key a := heq ▸ hne
          exact hmin y (List.mem_filter.mpr ⟨hy, decide_eq_true hkept⟩) hbefore heq
    · rintro ⟨hx, hmin⟩
      rcases List.mem_cons.mp hx with rfl | hx
      · exact .inl rfl
      · have hne : key x ≠ key a := (hmin a (List.mem_cons_self ..) (hfirst x hx)).symm
        refine .inr ⟨⟨hx, decide_eq_true hne⟩, fun y hy hbefore => ?_⟩
        exact hmin y (List.mem_cons_of_mem _ (List.mem_of_mem_filter hy)) hbefore

end

section

variable {α : Type} [DecidableEq α]

/-- Which of two members stands first does not depend on what else is in the list. -/
theorem idxOf_filter_lt_iff {p : α → Bool} {l : List α} {x y : α} (hx : p x = true)
    (hy : p y = true) : (l.filter p).idxOf x < (l.filter p).idxOf y ↔ l.idxOf x < l.idxOf y := by
  induction l with
  | nil => exact Iff.rfl
  | cons a l ih =>
    by_cases ha : p a = true
    · rw [List.filter_cons_of_pos ha]
      simp only [List.idxOf_cons]
      cases a == x <;> cases a == y <;> simp [ih]
    · -- a member that is left out is neither of the two
      have hax : (a == x) = false := by
        rw [beq_eq_false_iff_ne]
        rintro rfl
        exact ha hx
      have hay : (a == y) = false := by
        rw [beq_eq_false_iff_ne]
        rintro rfl
        exact ha hy
      rw [List.filter_cons_of_neg ha, ih]
      simp [List.idxOf_cons, hax, hay]

/-- The members that are kept stand in the order in which they first occur. -/
theorem pairwise_idxOf_firstOfEach (l : List α) :
    (firstOfEach id l).Pairwise fun x y => l.idxOf x < l.idxOf y := by
  induction l using firstOfEach_induction (id : α → α) with
  | nil => exact List.Pairwise.nil
  | cons a l ih =>
    rw [firstOfEach_cons, List.pairwise_cons]
    have hne : ∀ y ∈ firstOfEach id (l.filter fun x => id x ≠ id a), y ≠ a := by
      intro y hy
      have hother := (List.mem_filter.mp ((sublist_firstOfEach id _).subset hy)).2
      exact of_decide_eq_true hother
    have hbehind : ∀ {y : α}, y ≠ a → (a :: l).idxOf y = l.idxOf y + 1 := by
      intro y hy
      rw [List.idxOf_cons, beq_eq_false_iff_ne.mpr hy.symm]
      rfl
    constructor
    · intro y hy
      rw [hbehind (hne y hy), List.idxOf_cons_self]
      exact Nat.succ_pos _
    · refine ih.imp_of_mem fun {x y} hx hy hlt => ?_
      rw [hbehind (hne x hx), hbehind (hne y hy), Nat.add_lt_add_iff_right]
      exact (idxOf_filter_lt_iff (p := fun z => decide (id z ≠ id a))
        (decide_eq_true (hne x hx)) (decide_eq_true (hne y hy))).mp hlt

end

end Lineage
