import Lineage.Proofs.Annotation.Convergence

/-!
# A run as a list of insertions

All that a run does to a file is to put class lines in, one after the other. A pass works from the
last construction to the first, so each line goes to a place up to which the text is still what the
pass began with: a line start, right in front of a construction that it found open. Taking the
lines out again, the last one first, gives the file back.

## Main definitions

- `Insertion` is a piece put in at an offset, `makeAll` and `undoAll` carry out several
- `Annotator.Inserts` tells which insertions one pass may make, `Annotator.InsertsEach` several
- `Annotator.Recorded` is an account of a run by its insertions

## Main statements

- `undoAll_makeAll`: insertions can be undone
- `Annotator.inserts_of_sublist`: a pass makes insertions only
- `Annotator.run_inserts`: so does a run, and it counts them and names the files
-/

namespace Lineage

/-! ## Insertions -/

/-- A piece that is put in at an offset. -/
structure Insertion where
  offset : Nat
  piece : Bytes

namespace Insertion

/-- Puts the piece in. -/
def make (i : Insertion) (content : Bytes) : Bytes := Annotator.insertAt content i.offset i.piece

/-- Takes the piece out again. -/
def undo (i : Insertion) (content : Bytes) : Bytes :=
  content.take i.offset ++ content.drop (i.offset + i.piece.length)

end Insertion

/-- Makes insertions one after the other. -/
def makeAll (content : Bytes) (is : List Insertion) : Bytes :=
  is.foldl (fun text i => i.make text) content

/-- Undoes insertions, the last one first. -/
def undoAll (is : List Insertion) (content : Bytes) : Bytes :=
  is.foldr (fun i text => i.undo text) content

variable {content : Bytes} {is js : List Insertion} {i : Insertion}

@[simp] theorem makeAll_nil : makeAll content [] = content := rfl

theorem undoAll_append : undoAll (is ++ js) content = undoAll is (undoAll js content) :=
  List.foldr_append

theorem makeAll_append : makeAll content (is ++ js) = makeAll (makeAll content is) js :=
  List.foldl_append

theorem makeAll_concat : makeAll content (is ++ [i]) = i.make (makeAll content is) :=
  makeAll_append

/-- Insertions take no byte away. -/
theorem sublist_makeAll (content : Bytes) (is : List Insertion) :
    content.Sublist (makeAll content is) := by
  induction is generalizing content with
  | nil => exact List.Sublist.refl content
  | cons i is ih => exact (Annotator.sublist_insertAt ..).trans (ih (i.make content))

/-- What stands in front of an insertion stays. -/
theorem Insertion.take_make (hoffset : i.offset ≤ content.length) {q : Nat} (hq : q ≤ i.offset) :
    (i.make content).take q = content.take q := by
  have hfront : q ≤ (content.take i.offset).length := by
    rw [List.length_take]
    omega
  rw [make, Annotator.insertAt, List.append_assoc, List.take_append_of_le_length hfront,
    List.take_take, Nat.min_eq_left hq]

theorem Insertion.undo_make (hoffset : i.offset ≤ content.length) :
    i.undo (i.make content) = content := by
  have hfront : (content.take i.offset).length = i.offset := List.length_take_of_le hoffset
  have hbehind : (i.make content).drop (i.offset + i.piece.length) = content.drop i.offset := by
    have hlength : (content.take i.offset ++ i.piece).length = i.offset + i.piece.length := by
      rw [List.length_append, hfront]
    rw [make, Annotator.insertAt, ← hlength, List.drop_left]
  rw [undo, take_make hoffset (Nat.le_refl _), hbehind, List.take_append_drop]

namespace Annotator

variable {a : Annotator} {store : Store} {corpus : NameSet} {p : Progress}

/-! ## The insertions of a pass -/

/-- The class line of a construction, put in where the construction stands. -/
def insertion (a : Annotator) (m : Match) : Insertion := ⟨m.start, a.line m⟩

/-- What a pass over a content may put in. Each piece is the class line of a construction that is
    open in the content. It goes to a line start, and the text up to the end of the construction is
    still what the pass began with, so the construction follows directly. -/
inductive Inserts (a : Annotator) (content : Bytes) : List Insertion → Prop where
  | nil : a.Inserts content []
  | concat {is : List Insertion} {m : Match} (before : a.Inserts content is)
      (isOpen : m ∈ a.openIn content)
      (atLineStart : lineStart (makeAll content is) m.start = m.start)
      (untouched : (makeAll content is).take m.stop = content.take m.stop) :
      a.Inserts content (is ++ [a.insertion m])

/-- What passes may put in one after the other, each going by the content it begins with. -/
inductive InsertsEach (a : Annotator) : Bytes → List (List Insertion) → Prop where
  | nil (content : Bytes) : a.InsertsEach content []
  | cons {content : Bytes} {is : List Insertion} {rest : List (List Insertion)}
      (first : a.Inserts content is) (later : a.InsertsEach (makeAll content is) rest) :
      a.InsertsEach content (is :: rest)

/-- The insertions of a pass can be undone. -/
theorem Inserts.undoAll_makeAll (h : a.Inserts content is) :
    undoAll is (makeAll content is) = content := by
  induction h with
  | nil => rfl
  | @concat is m _ _ hstart _ ih =>
    have hlast : undoAll [a.insertion m] (makeAll content (is ++ [a.insertion m]))
        = makeAll content is := by
      rw [makeAll_concat]
      exact Insertion.undo_make (le_length_of_lineStart hstart)
    rw [undoAll_append, hlast, ih]

/-- Every piece is at least one byte. -/
theorem Inserts.length_le (h : a.Inserts content is) :
    content.length + is.length ≤ (makeAll content is).length := by
  induction h with
  | nil => exact Nat.le_refl _
  | @concat is m _ _ hstart _ ih =>
    have hline : 0 < (a.line m).length := List.length_pos_of_ne_nil (line_ne_nil m)
    have hoffset := le_length_of_lineStart hstart
    have hlength : ((a.insertion m).make (makeAll content is)).length
        = (makeAll content is).length + (a.line m).length := by
      simp only [Insertion.make, insertion, insertAt, List.length_append, List.length_take,
        List.length_drop]
      omega
    rw [makeAll_concat, hlength, List.length_append, List.length_singleton]
    omega

/-- What stands in front of all insertions stays. -/
theorem Inserts.take_makeAll (h : a.Inserts content is) {q : Nat}
    (hq : ∀ i ∈ is, q ≤ i.offset) : (makeAll content is).take q = content.take q := by
  induction h with
  | nil => rfl
  | @concat is m _ _ hstart _ ih =>
    have hlast : q ≤ m.start := hq (a.insertion m) (by simp)
    rw [makeAll_concat, Insertion.take_make (le_length_of_lineStart hstart) hlast]
    exact ih fun i hi => hq i (List.mem_append_left _ hi)

/-- Writing class lines is inserting them, from the last construction to the first. -/
theorem annotate_eq_makeAll {ms : List Match} (hms : ∀ m ∈ ms, m ∈ a.constructionsIn content) :
    a.annotate content ms = makeAll content (ms.reverse.map a.insertion) := by
  induction ms with
  | nil => rfl
  | cons m ms ih =>
    have hstart : lineStart content m.start = m.start :=
      lineStart_start (hms m (List.mem_cons_self ..))
    have hrest := ih fun n hn => hms n (List.mem_cons_of_mem _ hn)
    rw [List.reverse_cons, List.map_append, List.map_singleton, makeAll_concat, ← hrest]
    show insertAt _ (lineStart content m.start) _ = insertAt _ m.start _
    rw [hstart]
    rfl

/-- A pass may put the class lines of open constructions in, from the last one to the first. -/
theorem inserts_of_sublist {ms : List Match} (hms : ms.Sublist (a.openIn content)) :
    a.Inserts content (ms.reverse.map a.insertion) := by
  have hordered : ms.Pairwise fun m n => m.start < m.stop ∧ m.stop ≤ n.start :=
    (pairwise_constructions _ content).sublist (hms.trans openIn_sublist)
  induction ms with
  | nil => exact .nil
  | cons m ms ih =>
    obtain ⟨hm, hrest⟩ := List.pairwise_cons.mp hordered
    have hbefore := ih ((List.sublist_cons_self m ms).trans hms) hrest
    have hopen : m ∈ a.openIn content := hms.subset (List.mem_cons_self ..)
    -- all that was put in so far stands behind this construction
    have hfront : ∀ q, q = m.start ∨ q = m.stop →
        (makeAll content (ms.reverse.map a.insertion)).take q = content.take q := by
      intro q hq
      apply hbefore.take_makeAll
      intro i hi
      obtain ⟨n, hn, rfl⟩ := List.mem_map.mp hi
      have hbehind := hm n (List.mem_reverse.mp hn)
      show q ≤ n.start
      omega
    rw [List.reverse_cons, List.map_append, List.map_singleton]
    refine .concat hbefore hopen ?_ (hfront _ (.inr rfl))
    rw [lineStart_congr (hfront _ (.inl rfl))]
    exact lineStart_start (mem_openIn.mp hopen).1

/-! ## The insertions of several passes -/

/-- The insertions of several passes can be undone. -/
theorem InsertsEach.undoAll_makeAll {each : List (List Insertion)}
    (h : a.InsertsEach content each) :
    undoAll each.flatten (makeAll content each.flatten) = content := by
  induction h with
  | nil => rfl
  | cons first _ ih =>
    rw [List.flatten_cons, makeAll_append, undoAll_append, ih, first.undoAll_makeAll]

theorem InsertsEach.length_le {each : List (List Insertion)} (h : a.InsertsEach content each) :
    content.length + each.flatten.length ≤ (makeAll content each.flatten).length := by
  induction h with
  | nil => exact Nat.le_refl _
  | @cons content is rest first _ ih =>
    have hfirst := first.length_le
    rw [List.flatten_cons, makeAll_append, List.length_append]
    omega

/-- A content changes as soon as something is put in. -/
theorem InsertsEach.makeAll_ne_iff {each : List (List Insertion)}
    (h : a.InsertsEach content each) :
    makeAll content each.flatten ≠ content ↔ each.flatten ≠ [] := by
  constructor
  · rintro hne hnil
    exact hne (by rw [hnil, makeAll_nil])
  · intro hne heq
    have hlength := h.length_le
    have hpos := List.length_pos_of_ne_nil hne
    rw [heq] at hlength
    omega

/-! ## The account of a run -/

/-- What a pass puts into a content. -/
def pieces (a : Annotator) (corpus : NameSet) (p : Progress) (content : Bytes) : List Insertion :=
  (a.chosen (a.knowledge corpus p.released p.store) content).reverse.map a.insertion

theorem inserts_pieces (content : Bytes) : a.Inserts content (a.pieces corpus p content) :=
  inserts_of_sublist List.filter_sublist

theorem store_pass_eq :
    (a.pass corpus p.released p.store).store
      = p.store.edit fun f => makeAll f.content (a.pieces corpus p f.content) := by
  refine Store.edit_congr fun f _ => annotate_eq_makeAll fun m hm => ?_
  exact (mem_openIn.mp (List.mem_of_mem_filter hm)).1

theorem inserted_pass_eq :
    (a.pass corpus p.released p.store).inserted
      = (p.store.files.map fun f => (a.pieces corpus p f.content).length).sum := by
  show (List.flatMap _ _).length = _
  rw [List.length_flatMap]
  simp only [pieces, List.length_map, List.length_reverse]
  rfl

/-- A pass changes the files into which it puts something. -/
theorem mem_changed_pass {f : SourceFile} (hf : f ∈ p.store.files) :
    f.path ∈ (a.pass corpus p.released p.store).changed ↔ a.pieces corpus p f.content ≠ [] := by
  have hpieces : ∀ content, a.pieces corpus p content ≠ [] ↔
      (!(a.chosen (a.knowledge corpus p.released p.store) content).isEmpty) = true := by
    simp [pieces]
  show f.path ∈ (p.store.files.filter _).map (·.path) ↔ _
  rw [hpieces]
  constructor
  · intro hmem
    obtain ⟨g, hg, hpath⟩ := List.mem_map.mp hmem
    obtain ⟨hg, hchosen⟩ := List.mem_filter.mp hg
    rw [← Store.eq_of_path hg hf hpath]
    exact hchosen
  · intro hchosen
    exact List.mem_map_of_mem (List.mem_filter.mpr ⟨hf, hchosen⟩)

/-- The progress of a run after one more pass. -/
structure After (a : Annotator) (corpus : NameSet) (p q : Progress) : Prop where
  store : q.store = p.store.edit fun f => makeAll f.content (a.pieces corpus p f.content)
  passes : q.passes = p.passes + 1
  inserted : q.inserted
    = p.inserted + (p.store.files.map fun f => (a.pieces corpus p f.content).length).sum
  changed : ∀ f ∈ p.store.files,
    (f.path ∈ q.changed ↔ f.path ∈ p.changed ∨ a.pieces corpus p f.content ≠ [])

/-- An idle pass puts nothing in. -/
theorem pieces_of_idle (hidle : (a.pass corpus p.released p.store).inserted = 0) {f : SourceFile}
    (hf : f ∈ p.store.files) : a.pieces corpus p f.content = [] := by
  rw [inserted_pass_eq, List.sum_eq_zero_iff] at hidle
  exact List.length_eq_zero_iff.mp (hidle _ (List.mem_map_of_mem hf))

theorem after_idle (hidle : (a.pass corpus p.released p.store).inserted = 0) :
    a.After corpus p (a.idle corpus p) where
  store := by
    refine (Store.edit_eq_self fun f hf => ?_).symm
    rw [pieces_of_idle hidle hf, makeAll_nil]
  passes := rfl
  inserted := by
    rw [← inserted_pass_eq, hidle]
    rfl
  changed := by
    intro f hf
    simp only [pieces_of_idle hidle hf, ne_eq, not_true_eq_false, or_false]
    rfl

theorem after_advance : a.After corpus p (a.advance corpus p) where
  store := store_pass_eq
  passes := rfl
  inserted := by
    rw [← inserted_pass_eq]
    rfl
  changed := by
    intro f hf
    rw [← mem_changed_pass hf]
    exact List.mem_append

/-- A run goes on from its first pass, or it ends with it, however many passes it might make. -/
theorem exists_after (corpus : NameSet) (p : Progress) :
    ∃ q, a.After corpus p q ∧ ((∀ count, a.passes corpus (count + 1) p = (q, true)) ∨
      ∀ count, a.passes corpus (count + 1) p = a.passes corpus count q) := by
  by_cases hidle : (a.pass corpus p.released p.store).inserted = 0
  · have hafter := after_idle hidle
    by_cases hnone : a.circles corpus p = []
    · exact ⟨_, hafter, .inl fun _ => passes_succ_of_finished hidle hnone⟩
    · exact ⟨a.release corpus p, ⟨hafter.store, hafter.passes, hafter.inserted, hafter.changed⟩,
        .inr fun _ => passes_succ_of_release hidle hnone⟩
  · exact ⟨_, after_advance, .inr fun _ => passes_succ_of_advance hidle⟩

/-- An account of some passes, given the progress after any number of them: what each pass put into
    a file, by the content that the file had at first. The store is what the insertions so far make
    of it; in the end all of them are counted, and the files with an insertion are noted as
    changed. -/
structure Recorded (a : Annotator) (bound : Nat) (progress : Nat → Progress)
    (each : Bytes → List (List Insertion)) : Prop where
  insertsEach : ∀ content, a.InsertsEach content (each content)
  length_le : ∀ content, (each content).length ≤ bound
  passes : ∀ content, (progress bound).passes = (progress 0).passes + (each content).length
  store : ∀ count ≤ bound, (progress count).store
    = (progress 0).store.edit fun f => makeAll f.content ((each f.content).take count).flatten
  inserted : (progress bound).inserted = (progress 0).inserted
    + ((progress 0).store.files.map fun f => (each f.content).flatten.length).sum
  changed : ∀ f ∈ (progress 0).store.files, (f.path ∈ (progress bound).changed ↔
    f.path ∈ (progress 0).changed ∨ (each f.content).flatten ≠ [])

/-- Without progress nothing is put in. -/
theorem recorded_of_eq {bound : Nat} {progress : Nat → Progress}
    (h : ∀ count ≤ bound, progress count = progress 0) :
    a.Recorded bound progress fun _ => [] where
  insertsEach := .nil
  length_le := fun _ => Nat.zero_le _
  passes := by simp [h bound (Nat.le_refl _)]
  store := by
    intro count hcount
    rw [h count hcount]
    refine (Store.edit_eq_self fun f _ => ?_).symm
    rw [List.take_nil]
    rfl
  inserted := by simp [h bound (Nat.le_refl _)]
  changed := by simp [h bound (Nat.le_refl _)]

/-- A pass in front of an account is one more list of insertions for each content. -/
theorem Recorded.cons {bound : Nat} {progress later : Nat → Progress}
    {each : Bytes → List (List Insertion)} (h : a.Recorded bound later each)
    (hafter : a.After corpus (progress 0) (later 0))
    (hlater : ∀ count, progress (count + 1) = later count) :
    a.Recorded (bound + 1) progress fun content =>
      a.pieces corpus (progress 0) content
        :: each (makeAll content (a.pieces corpus (progress 0) content)) := by
  constructor
  case insertsEach => exact fun content => .cons (inserts_pieces content) (h.insertsEach _)
  case length_le => exact fun content => Nat.succ_le_succ (h.length_le _)
  case passes =>
    intro content
    rw [hlater, h.passes (makeAll content (a.pieces corpus (progress 0) content)), hafter.passes,
      List.length_cons]
    omega
  case store =>
    intro count hcount
    cases count with
    | zero => exact (Store.edit_eq_self fun f _ => rfl).symm
    | succ count =>
      rw [hlater, h.store count (Nat.le_of_succ_le_succ hcount), hafter.store, Store.edit_edit]
      · refine Store.edit_congr fun f _ => ?_
        rw [SourceFile.content_replace, List.take_succ_cons, List.flatten_cons, makeAll_append]
      · exact fun f _ => sublist_makeAll ..
      · intro f _
        rw [SourceFile.content_replace]
        exact sublist_makeAll ..
  case inserted =>
    rw [hlater, h.inserted, hafter.inserted, hafter.store, Store.files_edit, List.map_map]
    simp only [List.flatten_cons, List.length_append, List.sum_map_add, Function.comp_def,
      SourceFile.content_replace]
    omega
  case changed =>
    intro f hf
    have hlast := h.changed
      (f.replace (makeAll f.content (a.pieces corpus (progress 0) f.content))) (by
        rw [hafter.store]
        exact List.mem_map_of_mem hf)
    rw [SourceFile.path_replace, SourceFile.content_replace] at hlast
    rw [hlater, hlast, hafter.changed f hf, List.flatten_cons]
    simp only [ne_eq, List.append_eq_nil_iff]
    tauto

/-- Every run has an account. -/
theorem exists_recorded (a : Annotator) (corpus : NameSet) (bound : Nat) (p : Progress) :
    ∃ each, a.Recorded bound (fun count => (a.passes corpus count p).1) each := by
  induction bound generalizing p with
  | zero => exact ⟨_, recorded_of_eq fun count hcount => by rw [Nat.le_zero.mp hcount]⟩
  | succ bound ih =>
    obtain ⟨q, hafter, hend | hon⟩ := exists_after (a := a) corpus p
    · -- the run ended, so nothing happens in the passes that are left
      have hstill : a.Recorded bound (fun _ => q) fun _ => [] := recorded_of_eq fun _ _ => rfl
      exact ⟨_, hstill.cons hafter fun count => by rw [hend]⟩
    · obtain ⟨each, heach⟩ := ih q
      exact ⟨_, heach.cons hafter fun count => by rw [hon]⟩

/-- In the end all insertions are made. -/
theorem Recorded.store_run {each : Bytes → List (List Insertion)}
    (h : a.Recorded a.settings.maxPasses
      (fun count => (a.passes (a.corpusBundles store) count (.start store)).1) each) :
    (a.run store).1 = store.edit fun f => makeAll f.content (each f.content).flatten := by
  rw [Annotator.store_run, h.store _ (Nat.le_refl _)]
  refine Store.edit_congr fun f _ => ?_
  rw [List.take_of_length_le (h.length_le f.content)]

/-- All that a run does to a store are insertions of class lines. In each of its passes it puts
    pieces into the files, each at a line start and directly in front of a construction that was
    open when the pass began; after any number of passes the store is what the pieces so far make
    of it. Taking them out again, the last one first, gives back every file byte by byte. Their
    number is that of the inserted annotations, and the changed files are those whose content is
    another one in the end: they are listed in the order of paths, and they are dirty. -/
theorem run_inserts (a : Annotator) (store : Store) :
    ∃ (each : Bytes → List (List Insertion)) (final : Bytes → Bytes),
      (∀ content, a.InsertsEach content (each content) ∧
        (each content).length = (a.run store).2.passes ∧
        final content = makeAll content (each content).flatten ∧
        undoAll (each content).flatten (final content) = content) ∧
      (∀ count ≤ a.settings.maxPasses,
        (a.passes (a.corpusBundles store) count (.start store)).1.store
          = store.edit fun f => makeAll f.content ((each f.content).take count).flatten) ∧
      (a.run store).1 = store.edit (fun f => final f.content) ∧
      (a.run store).2.annotationsInserted
        = (store.files.map fun f => (each f.content).flatten.length).sum ∧
      (a.run store).2.changedFiles
        = (store.files.filter fun f => final f.content ≠ f.content).map (·.path) ∧
      (a.run store).2.changedFiles.Pairwise (fun path path' => path.compare path' = .lt) ∧
      ∀ path ∈ (a.run store).2.changedFiles,
        ∃ g ∈ (a.run store).1.files, g.path = path ∧ g.dirty = true := by
  obtain ⟨each, h⟩ := exists_recorded a (a.corpusBundles store) a.settings.maxPasses (.start store)
  let final : Bytes → Bytes := fun content => makeAll content (each content).flatten
  have hrun : (a.run store).1 = store.edit fun f => final f.content := h.store_run
  have hchanged : (a.run store).2.changedFiles
      = (store.files.filter fun f => final f.content ≠ f.content).map (·.path) := by
    have hpaths : (a.run store).1.files.map (·.path) = store.files.map (·.path) := by
      rw [hrun, Store.files_edit, List.map_map]
      simp only [Function.comp_def, SourceFile.path_replace]
    show ((a.run store).1.files.map (·.path)).filter _ = _
    rw [hpaths, List.filter_map]
    refine congrArg (List.map _) (List.filter_congr fun f hf => decide_eq_decide.mpr ?_)
    rw [(h.insertsEach f.content).makeAll_ne_iff, h.changed f hf, or_iff_right]
    exact List.not_mem_nil
  refine ⟨each, final, fun content => ⟨h.insertsEach content, ?_, rfl, ?_⟩, h.store, hrun, ?_,
    hchanged, ?_, ?_⟩
  · exact ((h.passes content).trans (Nat.zero_add _)).symm
  · exact (h.insertsEach content).undoAll_makeAll
  · exact h.inserted.trans (Nat.zero_add _)
  · rw [hchanged]
    exact (pathOrdered_iff.mp store.ordered).sublist (List.filter_sublist.map _)
  · intro path hpath
    rw [hchanged] at hpath
    obtain ⟨f, hf, rfl⟩ := List.mem_map.mp hpath
    obtain ⟨hf, hne⟩ := List.mem_filter.mp hf
    refine ⟨f.replace (final f.content), ?_, SourceFile.path_replace .., ?_⟩
    · rw [hrun]
      exact List.mem_map_of_mem hf
    · exact SourceFile.dirty_replace (of_decide_eq_true hne)

end Annotator

end Lineage
