import Lineage.Proofs.Hierarchy.Memory
import Mathlib.Data.Set.Card

/-!
# Queries

What the queries of a session answer, one after another. Whatever was asked before, an answer holds
the direct parents and only reachable entities, and it stays the same for ever. It is complete where
no cycle was met before. Where one was, the lists of its members may lack entities, and so may every
list that relies on them: what a query answers then depends on what was asked before it.

## Main definitions

- `Graph.IsAnswer`, `Graph.IsComplete`: what is said of a list of ancestors
- `Session.expansions`: the entities that a query expands
- `Session.afterEach`: the session after queries for single entities
- `Session.afterAll`: the session after queries for one or several entities

## Main statements

- `Session.query_cases`: what a query does
- `Session.Settled.ancestors`, `Session.Settled.knows_ancestors_iff`: the session after it
- `Session.Settled.isAnswer`, `Session.Settled.isComplete`: what it answers
- `Session.nodup_expansionsEach`: nothing is expanded twice
- `Session.afterAll_eq_afterEach`: queries for several entities, one entity at a time
-/

namespace Lineage

namespace Graph

variable {g : Graph} {x : String} {found found' : NameSet}

/-- A list of ancestors that may be answered for an entity. -/
structure IsAnswer (g : Graph) (x : String) (found : NameSet) : Prop where
  ascending : found.toList.Pairwise (· < ·)
  notMem_self : x ∉ found
  parents : ∀ p, g.IsParent x p → p ∈ found
  reaches : ∀ y ∈ found, g.Reaches x y

/-- A list of ancestors is complete if it has all that is reachable, less the entity itself. -/
def IsComplete (g : Graph) (x : String) (found : NameSet) : Prop :=
  ∀ y, y ∈ found ↔ g.Reaches x y ∧ y ≠ x

theorem IsComplete.unique (h : g.IsComplete x found) (h' : g.IsComplete x found') :
    found = found' :=
  NameSet.ext fun y => (h y).trans (h' y).symm

end Graph

namespace Session

variable {g : Graph} {s : Session} {x y e : String} {found list : NameSet}

/-! ## One query -/

/-- The entities that a query expands, in order. -/
def expansions (g : Graph) (s : Session) (x : String) : List String :=
  match s.known.get? x with
  | some _ => []
  | none => expanded g (g.size + 1) [] x s

/-- What a query does. It looks up what is remembered, or walks over the parents of its entity and
    remembers that. -/
theorem query_cases (g : Graph) (s : Session) (x : String) :
    (∃ found, s.known.get? x = some found ∧ s.ancestors g x = (found, s) ∧
      expansions g s x = []) ∨
    ∃ below inside s₁, ¬ s.Knows x ∧ Walk g [x] (g.parentsOf x).toList ∅ s below inside s₁ ∧
      s.ancestors g x = (inside.erase x, s₁.remember x inside) ∧
      expansions g s x = x :: below := by
  rw [ancestors, expansions]
  cases hknown : s.known.get? x with
  | some found => exact .inl ⟨found, rfl, rfl, rfl⟩
  | none =>
    obtain ⟨below, inside, s₁, hwalk, heq, hbelow⟩ := runs_root g x s
    exact .inr ⟨below, inside, s₁, not_knows_iff.mpr hknown, hwalk, heq, hbelow⟩

theorem ancestors_of_get? (h : s.known.get? x = some found) : s.ancestors g x = (found, s) := by
  rw [ancestors, h]

/-- What was answered is remembered. -/
theorem get?_ancestors : (s.ancestors g x).2.known.get? x = some (s.ancestors g x).1 := by
  rcases query_cases g s x with ⟨found, hfound, heq, -⟩ | ⟨_, _, _, -, -, heq, -⟩
  · rw [heq]
    exact hfound
  · rw [heq, get?_remember, if_pos rfl]

/-- What was remembered stays as it was. -/
theorem get?_ancestors_of_get? (hlist : s.known.get? e = some list) :
    (s.ancestors g x).2.known.get? e = some list := by
  rcases query_cases g s x with ⟨_, -, heq, -⟩ | ⟨_, _, _, hnew, hwalk, heq, -⟩
  · rw [heq]
    exact hlist
  · rw [heq]
    exact get?_remember_of_get? (hwalk.not_knows_innermost hnew) (hwalk.get?_of_get? hlist)

theorem Settled.ancestors (hs : s.Settled g) (x : String) : (s.ancestors g x).2.Settled g := by
  rcases query_cases g s x with ⟨_, -, heq, -⟩ | ⟨_, _, _, hnew, hwalk, heq, -⟩
  · rw [heq]
    exact hs
  · rw [heq]
    exact hs.remember hwalk hnew

/-- A query expands what is remembered afterwards and was not before. -/
theorem mem_expansions_iff :
    e ∈ expansions g s x ↔ (s.ancestors g x).2.Knows e ∧ ¬ s.Knows e := by
  rcases query_cases g s x with ⟨_, -, heq, hbelow⟩ | ⟨_, _, _, hnew, hwalk, heq, hbelow⟩
  · rw [heq, hbelow]
    simp
  · rw [heq, hbelow, knows_remember, hwalk.knows_iff, List.mem_cons]
    constructor
    · rintro (rfl | hmem)
      · exact ⟨.inl rfl, hnew⟩
      · exact ⟨.inr (.inr hmem), (hwalk.of_mem_entered hmem).1⟩
    · rintro ⟨heq | hold | hmem, hunknown⟩
      · exact .inl heq
      · exact absurd hold hunknown
      · exact .inr hmem

theorem nodup_expansions : (expansions g s x).Nodup := by
  rcases query_cases g s x with ⟨_, -, -, hbelow⟩ | ⟨_, _, _, -, hwalk, -, hbelow⟩
  · rw [hbelow]
    exact List.nodup_nil
  · rw [hbelow, List.nodup_cons]
    refine ⟨fun hmem => ?_, hwalk.nodup_entered⟩
    exact (hwalk.of_mem_entered hmem).2 (List.mem_singleton.mpr rfl)

/-- A query remembers its entity and all that is reachable from it. -/
theorem Settled.knows_ancestors_iff (hs : s.Settled g) :
    (s.ancestors g x).2.Knows e ↔ s.Knows e ∨ e = x ∨ g.Reaches x e := by
  constructor
  · -- nothing but its entity and what it enters is new
    rcases query_cases g s x with ⟨_, -, heq, -⟩ | ⟨_, _, _, -, hwalk, heq, -⟩
    · rw [heq]
      exact .inl
    · rw [heq, knows_remember, hwalk.knows_iff]
      rintro (rfl | hold | hentered)
      · exact .inr (.inl rfl)
      · exact .inl hold
      · -- what is entered is found
        have hfound := hwalk.mem_of_sees (hwalk.sees_of_mem_entered hentered)
        exact .inr (.inr (hwalk.reaches_of_mem hs.faithful.sound hfound))
  · rintro (⟨list, hlist⟩ | rfl | hreach)
    · exact ⟨list, get?_ancestors_of_get? hlist⟩
    · exact ⟨_, get?_ancestors⟩
    · exact (hs.ancestors x).knows_of_reaches ⟨_, get?_ancestors⟩ hreach

theorem Settled.isAnswer (hs : s.Settled g) (h : s.known.get? x = some found) :
    g.IsAnswer x found where
  ascending := found.ascending
  notMem_self := hs.faithful.notMem_self x found h
  parents := fun p => hs.faithful.parents x found p h
  reaches := fun y => hs.faithful.sound x found y h

/-- What an answer lacks, a list that was remembered before lacks as well: that of the entity, or
    one of something reachable. -/
theorem lacks_of_notMem_ancestors (hreach : g.Reaches x y) (hne : y ≠ x)
    (hmiss : y ∉ (s.ancestors g x).1) : ∃ t, (t = x ∨ g.Reaches x t) ∧ s.Lacks g t y := by
  rcases query_cases g s x with ⟨found, hfound, heq, -⟩ | ⟨_, _, _, -, hwalk, heq, -⟩
  · rw [heq] at hmiss
    exact ⟨x, .inl rfl, found, hfound, hreach, hne, hmiss⟩
  · rw [heq] at hmiss
    have hinside := fun hmem => hmiss (NameSet.mem_erase.mpr ⟨hmem, hne⟩)
    obtain ⟨t, ht, hlacks⟩ := hwalk.lacks_of_notMem (by simp) hreach hne hinside
    exact ⟨t, .inr ht, hlacks⟩

/-- In the end it is an entity on a cycle whose list was incomplete, unless the query was for an
    entity that is on a cycle itself. -/
theorem Settled.lacks_onCycle (hs : s.Settled g) (hreach : g.Reaches x y) (hne : y ≠ x)
    (hmiss : y ∉ (s.ancestors g x).1) :
    ∃ c, g.OnCycle c ∧ (c = x ∨ g.Reaches x c) ∧ s.Lacks g c y := by
  obtain ⟨t, ht, hlacks⟩ := lacks_of_notMem_ancestors hreach hne hmiss
  obtain ⟨c, hc, htc, hlacks'⟩ := hs.faithful.exists_onCycle hlacks
  refine ⟨c, hc, ?_, hlacks'⟩
  rcases htc with rfl | htc
  · exact ht
  · rcases ht with rfl | ht
    · exact .inr htc
    · exact .inr (ht.trans htc)

/-- An answer is complete if no list of an entity on a cycle stands in its way. -/
theorem Settled.isComplete (hs : s.Settled g)
    (hcycles : ∀ c y, g.OnCycle c → c = x ∨ g.Reaches x c → ¬ s.Lacks g c y) :
    g.IsComplete x (s.ancestors g x).1 := by
  have hanswer := (hs.ancestors x).isAnswer get?_ancestors
  intro y
  constructor
  · intro hy
    refine ⟨hanswer.reaches y hy, ?_⟩
    rintro rfl
    exact hanswer.notMem_self hy
  · rintro ⟨hreach, hne⟩
    by_contra hmiss
    obtain ⟨c, hc, hxc, hlacks⟩ := hs.lacks_onCycle hreach hne hmiss
    exact hcycles c y hc hxc hlacks

/-! ## Queries one after another -/

/-- The session after queries for single entities. -/
def afterEach (g : Graph) (s : Session) (entities : List String) : Session :=
  entities.foldl (fun s x => (s.ancestors g x).2) s

/-- The entities that queries expand, in order. -/
def expansionsEach (g : Graph) : Session → List String → List String
  | _, [] => []
  | s, x :: rest => expansions g s x ++ expansionsEach g (s.ancestors g x).2 rest

theorem afterEach_cons (g : Graph) (s : Session) (x : String) (rest : List String) :
    afterEach g s (x :: rest) = afterEach g (s.ancestors g x).2 rest := rfl

theorem afterEach_append (g : Graph) (s : Session) (before later : List String) :
    afterEach g s (before ++ later) = afterEach g (afterEach g s before) later :=
  List.foldl_append

/-- A loop that asks for one entity after another and collects something from the answers. -/
theorem foldl_snd_eq_afterEach {α : Type} (next : α × Session → String → α × Session)
    (hnext : ∀ state x, (next state x).2 = (state.2.ancestors g x).2) (entities : List String)
    (state : α × Session) : (entities.foldl next state).2 = afterEach g state.2 entities := by
  induction entities generalizing state with
  | nil => rfl
  | cons x rest ih => rw [List.foldl_cons, ih, afterEach_cons, hnext]

theorem Settled.afterEach (hs : s.Settled g) (entities : List String) :
    (afterEach g s entities).Settled g := by
  induction entities generalizing s with
  | nil => exact hs
  | cons x rest ih => exact ih (hs.ancestors x)

theorem get?_afterEach_of_get? {entities : List String} (hlist : s.known.get? e = some list) :
    (afterEach g s entities).known.get? e = some list := by
  induction entities generalizing s with
  | nil => exact hlist
  | cons x rest ih => exact ih (get?_ancestors_of_get? hlist)

theorem Settled.knows_afterEach_iff (hs : s.Settled g) {entities : List String} :
    (Session.afterEach g s entities).Knows e ↔
      s.Knows e ∨ ∃ x ∈ entities, e = x ∨ g.Reaches x e := by
  induction entities generalizing s with
  | nil => simp [Session.afterEach]
  | cons x rest ih =>
    rw [afterEach_cons, ih (hs.ancestors x), hs.knows_ancestors_iff, or_assoc]
    simp

/-- A session remembers what was asked for and what is reachable from there. -/
theorem knows_afterEach_empty_iff {entities : List String} :
    (Session.afterEach g ∅ entities).Knows e ↔ ∃ x ∈ entities, e = x ∨ g.Reaches x e := by
  rw [(settled_empty g).knows_afterEach_iff, or_iff_right]
  rintro ⟨list, hlist⟩
  cases hlist

/-- Queries for what is remembered change nothing. -/
theorem afterEach_eq_self {entities : List String} (h : ∀ x ∈ entities, s.Knows x) :
    afterEach g s entities = s := by
  induction entities with
  | nil => rfl
  | cons x rest ih =>
    obtain ⟨found, hfound⟩ := h x (List.mem_cons_self ..)
    rw [afterEach_cons, ancestors_of_get? hfound]
    exact ih fun y hy => h y (List.mem_cons_of_mem x hy)

theorem mem_expansionsEach_iff {entities : List String} :
    e ∈ expansionsEach g s entities ↔ (afterEach g s entities).Knows e ∧ ¬ s.Knows e := by
  induction entities generalizing s with
  | nil => simp [expansionsEach, afterEach]
  | cons x rest ih =>
    rw [expansionsEach, List.mem_append, mem_expansions_iff, ih, afterEach_cons]
    constructor
    · rintro (⟨⟨list, hlist⟩, hunknown⟩ | ⟨hlater, hunknown⟩)
      · exact ⟨⟨list, get?_afterEach_of_get? hlist⟩, hunknown⟩
      · refine ⟨hlater, ?_⟩
        rintro ⟨list, hlist⟩
        exact hunknown ⟨list, get?_ancestors_of_get? hlist⟩
    · rintro ⟨hlater, hunknown⟩
      by_cases hnext : (s.ancestors g x).2.Knows e
      · exact .inl ⟨hnext, hunknown⟩
      · exact .inr ⟨hlater, hnext⟩

/-- No entity is expanded twice, however often it is asked for or found. -/
theorem nodup_expansionsEach {entities : List String} :
    (expansionsEach g s entities).Nodup := by
  induction entities generalizing s with
  | nil => exact List.nodup_nil
  | cons x rest ih =>
    refine List.nodup_append.mpr ⟨nodup_expansions, ih, ?_⟩
    -- what the first query expands is remembered when the others begin
    rintro first hfirst later hlater rfl
    exact (mem_expansionsEach_iff.mp hlater).2 (mem_expansions_iff.mp hfirst).1

/-- The number of remembered entities. -/
theorem size_known_eq_ncard (s : Session) : s.known.size = {e | s.Knows e}.ncard := by
  have hkeys : {e | s.Knows e} = (s.known.keys.toFinset : Set String) := by
    ext e
    simp [Knows, NameMap.mem_keys_iff]
  rw [hkeys, Set.ncard_coe_finset, List.toFinset_card_of_nodup s.known.nodup_keys,
    NameMap.size_eq_length_keys]

/-! ## Queries for several entities -/

/-- A query for one entity, or for several at once. -/
inductive Query where
  | one (entity : String)
  | all (entities : List String)
  deriving DecidableEq, Repr

/-- The entities that a query is for. -/
def Query.entities : Query → List String
  | .one x => [x]
  | .all xs => xs

/-- The answers to a query by entity, and the session after it. -/
def ask (g : Graph) (s : Session) : Query → NameMap NameSet × Session
  | .one x => ((∅ : NameMap NameSet).insert x (s.ancestors g x).1, (s.ancestors g x).2)
  | .all xs => s.ancestorsAll g xs

/-- The session after queries for one or several entities. -/
def afterAll (g : Graph) (s : Session) (queries : List Query) : Session :=
  queries.foldl (fun s q => (s.ask g q).2) s

/-- One step of a query for several entities. -/
def answerNext (g : Graph) (state : NameMap NameSet × Session) (x : String) :
    NameMap NameSet × Session :=
  (state.1.insert x (state.2.ancestors g x).1, (state.2.ancestors g x).2)

theorem ancestorsAll_eq_foldl (g : Graph) (s : Session) (xs : List String) :
    s.ancestorsAll g xs = xs.foldl (answerNext g) (∅, s) := rfl

theorem foldl_answerNext_snd (xs : List String) (state : NameMap NameSet × Session) :
    (xs.foldl (answerNext g) state).2 = afterEach g state.2 xs :=
  foldl_snd_eq_afterEach (answerNext g) (fun _ _ => rfl) xs state

/-- Every entity is answered with what is remembered for it in the end. -/
theorem get?_foldl_answerNext (xs : List String) (state : NameMap NameSet × Session) :
    (xs.foldl (answerNext g) state).1.get? e =
      if e ∈ xs then (afterEach g state.2 xs).known.get? e else state.1.get? e := by
  induction xs generalizing state with
  | nil => simp
  | cons x rest ih =>
    rw [List.foldl_cons, ih, afterEach_cons]
    by_cases hrest : e ∈ rest
    · simp [hrest, answerNext]
    · by_cases heq : e = x
      · subst heq
        rw [if_neg hrest, if_pos (List.mem_cons_self ..), get?_afterEach_of_get? get?_ancestors]
        simp [answerNext, NameMap.get?_insert]
      · simp [hrest, heq, answerNext, NameMap.get?_insert]

theorem ask_snd (q : Query) : (s.ask g q).2 = afterEach g s q.entities := by
  cases q with
  | one x => rfl
  | all xs => rw [ask, ancestorsAll_eq_foldl, foldl_answerNext_snd, Query.entities]

theorem get?_ask (q : Query) :
    (s.ask g q).1.get? e =
      if e ∈ q.entities then (s.ask g q).2.known.get? e else none := by
  cases q with
  | one x =>
    by_cases heq : e = x
    · subst heq
      simp [ask, Query.entities, NameMap.get?_insert, get?_ancestors]
    · simp [ask, Query.entities, NameMap.get?_insert, heq]
  | all xs =>
    rw [ask, ancestorsAll_eq_foldl, get?_foldl_answerNext, foldl_answerNext_snd, Query.entities,
      NameMap.get?_empty]

theorem afterAll_eq_afterEach (queries : List Query) :
    afterAll g s queries = afterEach g s (queries.flatMap Query.entities) := by
  induction queries generalizing s with
  | nil => rfl
  | cons q rest ih =>
    rw [List.flatMap_cons, afterEach_append, ← ask_snd, ← ih]
    rfl

theorem Settled.afterAll (hs : s.Settled g) (queries : List Query) :
    (afterAll g s queries).Settled g := by
  rw [afterAll_eq_afterEach]
  exact hs.afterEach _

theorem knows_afterAll_empty_iff {queries : List Query} :
    (Session.afterAll g ∅ queries).Knows e ↔
      ∃ q ∈ queries, ∃ x ∈ q.entities, e = x ∨ g.Reaches x e := by
  simp only [afterAll_eq_afterEach, knows_afterEach_empty_iff, List.mem_flatMap]
  constructor
  · rintro ⟨x, ⟨q, hq, hx⟩, he⟩
    exact ⟨q, hq, x, hx, he⟩
  · rintro ⟨q, hq, x, hx, he⟩
    exact ⟨x, ⟨q, hq, hx⟩, he⟩

theorem get?_afterAll_of_get? {queries : List Query} (hlist : s.known.get? e = some list) :
    (afterAll g s queries).known.get? e = some list := by
  rw [afterAll_eq_afterEach]
  exact get?_afterEach_of_get? hlist

/-- A query answers for its entities, and with what is remembered afterwards. -/
theorem Settled.exists_get?_ask (hs : s.Settled g) {q : Query} (hx : x ∈ q.entities) :
    ∃ found, (s.ask g q).1.get? x = some found := by
  rw [get?_ask, if_pos hx, ask_snd]
  exact hs.knows_afterEach_iff.mpr (.inr ⟨x, hx, .inl rfl⟩)

theorem get?_of_get?_ask {q : Query} (h : (s.ask g q).1.get? x = some found) :
    (s.ask g q).2.known.get? x = some found := by
  rw [get?_ask] at h
  split at h
  · exact h
  · cases h

/-- An entity is answered with what is remembered for it. -/
theorem get?_ask_of_get? {q : Query} (hx : x ∈ q.entities) (h : s.known.get? x = some found) :
    (s.ask g q).1.get? x = some found := by
  rw [get?_ask, if_pos hx, ask_snd]
  exact get?_afterEach_of_get? h

end Session

end Lineage
