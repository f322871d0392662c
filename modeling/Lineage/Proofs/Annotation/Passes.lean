import Lineage.Annotation.Outcome
import Lineage.Proofs.Annotation.WaitingGraph
import Lineage.Proofs.Annotation.Writing
import Lineage.Proofs.Source.Store

/-!
# What passes do to a store

A pass writes the class lines of the open constructions that are ready. Whether one is ready does
not depend on where it stands, so everything that several passes wrote can be told by one choice
among the constructions that were open at first. That is the invariant of a run.

## Main definitions

- `Annotator.annotateWhere` writes the class lines of chosen constructions
- `Annotator.HasWritten` is the invariant of a run

## Main statements

- `Annotator.annotateWhere_annotateWhere`: two choices, one after the other
- `Annotator.hasWritten_passes`: the invariant holds after any number of passes
-/

namespace Lineage

namespace Annotator

variable {a : Annotator} {store : Store} {choice later : Match → Bool}

/-! ## Writing over a store -/

/-- A store in which every class line still to be written is a line. -/
structure Writable (a : Annotator) (store : Store) : Prop where
  settings : a.settings.LineSafe
  isLine : ∀ f ∈ store.files, ∀ m ∈ a.openIn f.content, IsLine (a.line m)

theorem LineSafe.writable (h : a.LineSafe store) : a.Writable store where
  settings := h.settings
  isLine := by
    intro f hf m hm
    have hfound : m ∈ a.constructionsIn f.content := (mem_openIn.mp hm).1
    exact isLine_line h.settings hfound (h.staysInLine f hf m hfound)

/-- The open constructions of a store, file by file. -/
def openMatches (a : Annotator) (store : Store) : List Match :=
  store.files.flatMap fun f => a.openIn f.content

theorem mem_openMatches {m : Match} :
    m ∈ a.openMatches store ↔ ∃ f ∈ store.files, m ∈ a.openIn f.content :=
  List.mem_flatMap

theorem length_gaps : (a.gaps store).length = (a.openMatches store).length := by
  simp [gaps, openMatches, List.length_flatMap]

theorem mem_gaps {store : Store} {bundle : String} {path : Path} {line : Nat} :
    .unannotated bundle path line ∈ a.gaps store ↔
      ∃ f ∈ store.files, ∃ m ∈ a.openIn f.content,
        m.bundle = bundle ∧ f.path = path ∧ lineNumber f.content m.start = line := by
  simp only [gaps, List.mem_flatMap, List.mem_map, Diagnostic.unannotated.injEq]

/-- Writes the class lines of the chosen open constructions. -/
def annotateWhere (a : Annotator) (choice : Match → Bool) (store : Store) : Store :=
  store.edit fun f => a.annotate f.content ((a.openIn f.content).filter choice)

/-- Whether a choice does not look at where a construction stands. -/
def IgnoresPlace (choice : Match → Bool) : Prop := ∀ m p, choice (m.moveTo p) = choice m

theorem ignoresPlace_true : IgnoresPlace fun _ => true := fun _ _ => rfl

theorem ignoresPlace_isReady (k : Knowledge) : IgnoresPlace (a.isReady k) := fun _ _ => rfl

theorem IgnoresPlace.moved (h : IgnoresPlace choice) (content : Bytes) (ms : List Match)
    (m : Match) : choice (a.moved content ms m) = choice m := h m _

theorem annotateWhere_false : a.annotateWhere (fun _ => false) store = store := by
  refine Store.edit_eq_self fun f _ => ?_
  rw [List.filter_false]
  rfl

theorem annotateWhere_congr {other : Match → Bool}
    (h : ∀ m ∈ a.openMatches store, choice m = other m) :
    a.annotateWhere choice store = a.annotateWhere other store := by
  refine Store.edit_congr fun f hf => congrArg (a.annotate f.content) ?_
  exact List.filter_congr fun m hm => h m (mem_openMatches.mpr ⟨f, hf, hm⟩)

/-- To choose everything is to write all class lines. -/
theorem annotateWhere_of_forall (h : ∀ m ∈ a.openMatches store, choice m = true) :
    a.annotateWhere choice store = store.edit fun f => a.annotateAll f.content := by
  refine Store.edit_congr fun f hf => ?_
  have hall : ∀ m ∈ a.openIn f.content, choice m = true :=
    fun m hm => h m (mem_openMatches.mpr ⟨f, hf, hm⟩)
  rw [List.filter_eq_self.mpr hall, annotateAll_eq_annotate]

section Writable

variable (h : a.Writable store)

include h

theorem Writable.openIn_annotate {f : SourceFile} (hf : f ∈ store.files) :
    a.openIn (a.annotate f.content ((a.openIn f.content).filter choice))
      = ((a.openIn f.content).filter fun m => !choice m).map
          (a.moved f.content ((a.openIn f.content).filter choice)) :=
  Annotator.openIn_annotate h.settings (h.isLine f hf) choice

/-- The constructions that were not chosen can still be written. -/
theorem Writable.annotateWhere (choice : Match → Bool) :
    a.Writable (a.annotateWhere choice store) where
  settings := h.settings
  isLine := by
    intro g hg m hm
    obtain ⟨f, hf, rfl⟩ := List.mem_map.mp hg
    rw [SourceFile.content_replace, h.openIn_annotate hf] at hm
    obtain ⟨n, hn, rfl⟩ := List.mem_map.mp hm
    exact h.isLine f hf n (List.mem_of_mem_filter hn)

/-- Writing keeps the bundles that are constructed. -/
theorem Writable.corpusBundles_annotateWhere (choice : Match → Bool) :
    a.corpusBundles (a.annotateWhere choice store) = a.corpusBundles store := by
  have hbundles : ∀ f ∈ store.files,
      (a.constructionsIn (a.annotate f.content ((a.openIn f.content).filter choice))).map (·.bundle)
        = (a.constructionsIn f.content).map (·.bundle) := by
    intro f hf
    rw [constructionsIn_annotate_filter h.settings (h.isLine f hf), List.map_map]
    rfl
  have hlist : (a.annotateWhere choice store).files.flatMap
        (fun f => (a.constructionsIn f.content).map (·.bundle))
      = store.files.flatMap fun f => (a.constructionsIn f.content).map (·.bundle) := by
    rw [Annotator.annotateWhere, Store.files_edit, List.flatMap_map]
    refine List.flatMap_congr fun f hf => ?_
    rw [SourceFile.content_replace, hbundles f hf]
  rw [corpusBundles, hlist, corpusBundles]

/-- How many constructions of a kind are left to be written. -/
theorem Writable.countP_openMatches_annotateWhere (hlater : IgnoresPlace later)
    (choice : Match → Bool) :
    (a.openMatches (a.annotateWhere choice store)).countP later
      = (a.openMatches store).countP fun m => !choice m && later m := by
  rw [openMatches, Annotator.annotateWhere, Store.files_edit, List.flatMap_map, openMatches,
    List.countP_flatMap, List.countP_flatMap]
  refine congrArg List.sum (List.map_congr_left fun f hf => ?_)
  show (a.openIn (f.replace _).content).countP later = _
  rw [SourceFile.content_replace, h.openIn_annotate hf, List.countP_map, List.countP_filter]
  refine List.countP_congr fun m _ => ?_
  simp only [Function.comp_apply, hlater.moved, Bool.and_comm]

theorem Writable.length_openMatches_annotateWhere (choice : Match → Bool) :
    (a.openMatches (a.annotateWhere choice store)).length
      = (a.openMatches store).countP fun m => !choice m := by
  have hleft := h.countP_openMatches_annotateWhere ignoresPlace_true choice
  simp only [List.countP_true, Bool.and_true] at hleft
  exact hleft

/-- Choosing twice is choosing what either choice wants. -/
theorem Writable.annotateWhere_annotateWhere (hlater : IgnoresPlace later)
    (choice : Match → Bool) :
    a.annotateWhere later (a.annotateWhere choice store)
      = a.annotateWhere (fun m => choice m || later m) store := by
  rw [Annotator.annotateWhere, Annotator.annotateWhere, Store.edit_edit]
  · refine Store.edit_congr fun f hf => ?_
    rw [SourceFile.content_replace, annotate_annotate h.settings (h.isLine f hf)]
    refine congrArg (a.annotate f.content) (List.filter_congr fun m _ => ?_)
    rw [hlater.moved]
  · exact fun f _ => sublist_annotate a f.content _
  · intro f _
    rw [SourceFile.content_replace]
    exact sublist_annotate a _ _

end Writable

/-! ## A pass -/

/-- What a pass over a store knows. -/
def knowledge (a : Annotator) (corpus released : NameSet) (store : Store) : Knowledge :=
  ⟨corpus, a.declaredBundles store, released⟩

theorem store_pass (corpus released : NameSet) :
    (a.pass corpus released store).store
      = a.annotateWhere (a.isReady (a.knowledge corpus released store)) store := rfl

theorem inserted_pass (corpus released : NameSet) :
    (a.pass corpus released store).inserted
      = (a.openMatches store).countP (a.isReady (a.knowledge corpus released store)) := by
  rw [openMatches, List.countP_flatMap]
  simp only [pass, List.length_flatMap, chosen, List.countP_eq_length_filter, Function.comp_def]
  rfl

theorem mem_blocked_pass {corpus released : NameSet} {site : BlockedSite} :
    site ∈ (a.pass corpus released store).blocked ↔
      ∃ f ∈ store.files, ∃ m ∈ a.openIn f.content,
        a.isReady (a.knowledge corpus released store) m = false ∧
        site = ⟨m.bundle, f.path, lineNumber f.content m.start,
          a.waitingOn (a.knowledge corpus released store) m⟩ := by
  show site ∈ store.files.flatMap _ ↔ _
  simp only [List.mem_flatMap, deferred, List.mem_map, List.mem_reverse, List.mem_filter,
    Bool.not_eq_true']
  constructor
  · rintro ⟨f, hf, m, ⟨hm, hready⟩, rfl⟩
    exact ⟨f, hf, m, hm, hready, rfl⟩
  · rintro ⟨f, hf, m, hm, hready, rfl⟩
    exact ⟨f, hf, m, ⟨hm, hready⟩, rfl⟩

/-! ## Steps of a run -/

/-- A run after a pass that inserted nothing. -/
def idle (a : Annotator) (corpus : NameSet) (p : Progress) : Progress :=
  { p with
    passes := p.passes + 1
    blocked := (a.pass corpus p.released p.store).blocked }

/-- The circles that a run may release after such a pass. -/
def circles (a : Annotator) (corpus : NameSet) (p : Progress) : List (List String) :=
  (WaitingGraph.ofBlocked (a.pass corpus p.released p.store).blocked p.released).cycles

/-- A run after a pass that released circles. -/
def release (a : Annotator) (corpus : NameSet) (p : Progress) : Progress :=
  { a.idle corpus p with
    released := (a.circles corpus p).foldl NameSet.insertAll p.released
    cycles := p.cycles ++ a.circles corpus p }

/-- A run after a pass that inserted something. -/
def advance (a : Annotator) (corpus : NameSet) (p : Progress) : Progress :=
  { p with
    passes := p.passes + 1
    blocked := (a.pass corpus p.released p.store).blocked
    store := (a.pass corpus p.released p.store).store
    productivePasses := p.productivePasses + 1
    inserted := p.inserted + (a.pass corpus p.released p.store).inserted
    changed := p.changed ++ (a.pass corpus p.released p.store).changed }

section Steps

variable {corpus : NameSet} {p : Progress}

theorem passes_succ_of_finished {bound : Nat}
    (hidle : (a.pass corpus p.released p.store).inserted = 0) (hnone : a.circles corpus p = []) :
    a.passes corpus (bound + 1) p = (a.idle corpus p, true) := by
  rw [circles] at hnone
  simp only [passes, if_pos hidle, hnone, idle]

theorem passes_succ_of_release {bound : Nat}
    (hidle : (a.pass corpus p.released p.store).inserted = 0) (hsome : a.circles corpus p ≠ []) :
    a.passes corpus (bound + 1) p = a.passes corpus bound (a.release corpus p) := by
  rw [passes]
  simp only [if_pos hidle]
  split
  · rename_i hnone
    exact absurd hnone hsome
  · rfl

theorem passes_succ_of_advance {bound : Nat}
    (hinserted : (a.pass corpus p.released p.store).inserted ≠ 0) :
    a.passes corpus (bound + 1) p = a.passes corpus bound (a.advance corpus p) := by
  rw [passes]
  simp only [if_neg hinserted]
  rfl

/-- What every step keeps holds at the end of a run; if the run finished, it did so with a pass
    that inserted nothing and found no circle. -/
theorem passes_induction {P : Progress → Prop}
    (hidle : ∀ p, P p → (a.pass corpus p.released p.store).inserted = 0 → P (a.idle corpus p))
    (hrelease : ∀ p, P p → (a.pass corpus p.released p.store).inserted = 0 →
      a.circles corpus p ≠ [] → P (a.release corpus p))
    (hadvance : ∀ p, P p → (a.pass corpus p.released p.store).inserted ≠ 0 →
      P (a.advance corpus p))
    (bound : Nat) (hp : P p) :
    P (a.passes corpus bound p).1 ∧ ((a.passes corpus bound p).2 = true →
      ∃ q, P q ∧ (a.passes corpus bound p).1 = a.idle corpus q ∧
        (a.pass corpus q.released q.store).inserted = 0 ∧ a.circles corpus q = []) := by
  induction bound generalizing p with
  | zero =>
    -- a run without passes did not finish
    exact ⟨hp, fun hfinished => by cases hfinished⟩
  | succ bound ih =>
    -- every pass but the finishing one hands its progress on to the next
    by_cases hinserted : (a.pass corpus p.released p.store).inserted = 0
    · by_cases hnone : a.circles corpus p = []
      · rw [passes_succ_of_finished hinserted hnone]
        exact ⟨hidle p hp hinserted, fun _ => ⟨p, hp, rfl, hinserted, hnone⟩⟩
      · rw [passes_succ_of_release hinserted hnone]
        exact ih (hrelease p hp hinserted hnone)
    · rw [passes_succ_of_advance hinserted]
      exact ih (hadvance p hp hinserted)

/-- Passes may be made in two goes: the second one goes on where the first one stopped, unless that
    was the end of the run. -/
theorem passes_add (corpus : NameSet) (count bound : Nat) (p : Progress) :
    a.passes corpus (count + bound) p
      = if (a.passes corpus count p).2 then a.passes corpus count p
        else a.passes corpus bound (a.passes corpus count p).1 := by
  induction count generalizing p with
  | zero => simp [passes]
  | succ count ih =>
    rw [Nat.add_right_comm]
    by_cases hinserted : (a.pass corpus p.released p.store).inserted = 0
    · by_cases hnone : a.circles corpus p = []
      · simp [passes_succ_of_finished hinserted hnone]
      · rw [passes_succ_of_release hinserted hnone, passes_succ_of_release hinserted hnone, ih]
    · rw [passes_succ_of_advance hinserted, passes_succ_of_advance hinserted, ih]

/-- Until a run has finished, every pass it may make is made. -/
theorem passes_of_unfinished {count : Nat} (h : (a.passes corpus count p).2 = false) :
    (a.passes corpus count p).1.passes = p.passes + count := by
  induction count generalizing p with
  | zero => rfl
  | succ count ih =>
    by_cases hinserted : (a.pass corpus p.released p.store).inserted = 0
    · by_cases hnone : a.circles corpus p = []
      · rw [passes_succ_of_finished hinserted hnone] at h
        cases h
      · rw [passes_succ_of_release hinserted hnone] at h ⊢
        rw [ih h]
        exact Nat.add_right_comm p.passes 1 count
    · rw [passes_succ_of_advance hinserted] at h ⊢
      rw [ih h]
      exact Nat.add_right_comm p.passes 1 count

/-- A pass that inserts nothing leaves the store as it is. -/
theorem store_pass_of_idle (hidle : (a.pass corpus p.released p.store).inserted = 0) :
    (a.pass corpus p.released p.store).store = p.store := by
  rw [inserted_pass, List.countP_eq_zero] at hidle
  rw [store_pass]
  refine Store.edit_eq_self fun f hf => ?_
  have hnone : (a.openIn f.content).filter
      (a.isReady (a.knowledge corpus p.released p.store)) = [] := by
    rw [List.filter_eq_nil_iff]
    exact fun m hm => hidle m (mem_openMatches.mpr ⟨f, hf, hm⟩)
  rw [hnone]
  rfl

/-- Whatever comes of a pass, the run has its store and the sites it deferred. -/
theorem passes_one (corpus : NameSet) (p : Progress) :
    (a.passes corpus 1 p).1.store = (a.pass corpus p.released p.store).store ∧
      (a.passes corpus 1 p).1.blocked = (a.pass corpus p.released p.store).blocked ∧
      (a.passes corpus 1 p).1.passes = p.passes + 1 := by
  by_cases hinserted : (a.pass corpus p.released p.store).inserted = 0
  · rw [store_pass_of_idle hinserted]
    by_cases hnone : a.circles corpus p = []
    · rw [passes_succ_of_finished hinserted hnone]
      exact ⟨rfl, rfl, rfl⟩
    · rw [passes_succ_of_release hinserted hnone]
      exact ⟨rfl, rfl, rfl⟩
  · rw [passes_succ_of_advance hinserted]
    exact ⟨rfl, rfl, rfl⟩

/-- A run that may make a pass ends with one, after passes that did not finish it. -/
theorem exists_last_pass (corpus : NameSet) {bound : Nat} (hbound : 0 < bound) (p : Progress) :
    ∃ count, (a.passes corpus count p).2 = false ∧
      (a.passes corpus bound p).1.passes = p.passes + count + 1 ∧
      a.passes corpus bound p = a.passes corpus 1 (a.passes corpus count p).1 := by
  induction bound with
  | zero => exact absurd hbound (Nat.lt_irrefl 0)
  | succ count ih =>
    have hsplit := passes_add (a := a) corpus count 1 p
    cases hfinished : (a.passes corpus count p).2 with
    | true =>
      -- the run was over before, so it had made a pass
      have hpos : 0 < count := by
        apply Nat.pos_of_ne_zero
        rintro rfl
        cases hfinished
      rw [if_pos hfinished] at hsplit
      rw [hsplit]
      exact ih hpos
    | false =>
      rw [if_neg (by simp [hfinished])] at hsplit
      refine ⟨count, hfinished, ?_, hsplit⟩
      rw [hsplit, (passes_one _ _).2.2, passes_of_unfinished hfinished]

end Steps

/-! ## The invariant of a run -/

/-- A run has written the class lines of some of the constructions that were open at first, and
    has counted them. -/
def HasWritten (a : Annotator) (store : Store) (p : Progress) : Prop :=
  ∃ choice, IgnoresPlace choice ∧ p.store = a.annotateWhere choice store ∧
    p.inserted = (a.openMatches store).countP choice

theorem hasWritten_start : a.HasWritten store (.start store) := by
  refine ⟨fun _ => false, fun _ _ => rfl, annotateWhere_false.symm, ?_⟩
  simp [Progress.start]

theorem countP_or {α : Type} (l : List α) (p q : α → Bool) :
    l.countP (fun x => p x || q x) = l.countP p + l.countP fun x => !p x && q x := by
  induction l with
  | nil => rfl
  | cons x l ih =>
    simp only [List.countP_cons, ih]
    cases p x <;> cases q x <;> simp <;> omega

theorem HasWritten.advance (h : a.Writable store) {corpus : NameSet} {p : Progress}
    (hp : a.HasWritten store p) : a.HasWritten store (a.advance corpus p) := by
  obtain ⟨choice, hplace, hstore, hinserted⟩ := hp
  have hready := ignoresPlace_isReady (a := a) (a.knowledge corpus p.released p.store)
  -- what was chosen before and what is ready now make one choice
  refine ⟨fun m => choice m || a.isReady (a.knowledge corpus p.released p.store) m, ?_, ?_, ?_⟩
  · intro m q
    show (choice (m.moveTo q) || _) = _
    rw [hplace]
    rfl
  · show (a.pass corpus p.released p.store).store = _
    rw [store_pass, ← h.annotateWhere_annotateWhere hready, ← hstore]
  · show p.inserted + (a.pass corpus p.released p.store).inserted = _
    rw [inserted_pass, countP_or, ← h.countP_openMatches_annotateWhere hready, ← hstore, hinserted]

theorem hasWritten_passes (h : a.Writable store) {corpus : NameSet} {p : Progress}
    (hp : a.HasWritten store p) (bound : Nat) :
    a.HasWritten store (a.passes corpus bound p).1 ∧ ((a.passes corpus bound p).2 = true →
      ∃ q, a.HasWritten store q ∧ (a.passes corpus bound p).1 = a.idle corpus q ∧
        (a.pass corpus q.released q.store).inserted = 0 ∧ a.circles corpus q = []) :=
  passes_induction (fun _ hp _ => hp) (fun _ hp _ _ => hp) (fun _ hp _ => hp.advance h) bound hp

theorem HasWritten.writable (h : a.Writable store) {p : Progress} (hp : a.HasWritten store p) :
    a.Writable p.store := by
  obtain ⟨choice, -, hstore, -⟩ := hp
  rw [hstore]
  exact h.annotateWhere choice

theorem HasWritten.corpusBundles_eq (h : a.Writable store) {p : Progress}
    (hp : a.HasWritten store p) : a.corpusBundles p.store = a.corpusBundles store := by
  obtain ⟨choice, -, hstore, -⟩ := hp
  rw [hstore]
  exact h.corpusBundles_annotateWhere choice

end Annotator

end Lineage
