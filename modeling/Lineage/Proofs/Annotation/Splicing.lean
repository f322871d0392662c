import Lineage.Proofs.Annotation.Insertions

/-!
# The walk of a pass through a file

A pass goes through the constructions of a file from the last one to the first. Whatever is to be
annotated gets its class line where the old content says, although the text that is built has been
growing behind that place. This is right because the text up to a construction is still the old one
when the walk comes to it: each split falls within the text, and what comes out is the old content,
cut at the chosen constructions, with a class line in front of each piece but the first.

## Main definitions

- `Annotator.splice?` is the walk, which fails where a split falls behind the end of the text
- `rebuild` puts segments of a content and the pieces between them together, from left to right

## Main statements

- `Annotator.splice?_eq`: the walk does not fail, and what it comes to
- `Annotator.annotate_eq_rebuild`: writing from right to left gives what is put together
- `Annotator.pass_splices`: what a pass makes of each file
-/

namespace Lineage

/-! ## From left to right -/

/-- A content from an offset on, cut where some constructions start, with a piece in front of each
    of them. -/
def rebuild (piece : Match → Bytes) (content : Bytes) : Nat → List Match → Bytes
  | start, [] => content.drop start
  | start, m :: ms =>
    (content.take m.start).drop start ++ piece m ++ rebuild piece content m.start ms

section

variable {piece : Match → Bytes} {content : Bytes} {ms : List Match} {p q r : Nat}

/-- Two segments that meet are one. -/
theorem drop_take_append (hpq : p ≤ q) (hqr : q ≤ r) (hq : q ≤ content.length) :
    (content.take q).drop p ++ (content.take r).drop q = (content.take r).drop p := by
  have hsplit : content.take q ++ (content.take r).drop q = content.take r := by
    have hfront : (content.take r).take q = content.take q := by
      rw [List.take_take, Nat.min_eq_left hqr]
    rw [← hfront, List.take_append_drop]
  have hle : p ≤ (content.take q).length := by
    rw [List.length_take]
    omega
  rw [← hsplit, List.drop_append_of_le_length hle, hsplit]

/-- In front of all constructions one may cut anywhere. -/
theorem rebuild_eq_append (hpq : p ≤ q) (hq : q ≤ content.length) (hms : ∀ m ∈ ms, q ≤ m.start) :
    rebuild piece content p ms = (content.take q).drop p ++ rebuild piece content q ms := by
  cases ms with
  | nil =>
    have hmeet := drop_take_append hpq hq hq
    rw [List.take_length] at hmeet
    exact hmeet.symm
  | cons m ms =>
    have hmeet := drop_take_append hpq (hms m (List.mem_cons_self ..)) hq
    rw [rebuild, rebuild, ← hmeet]
    simp only [List.append_assoc]

/-- With nothing between them the segments are the content. -/
theorem rebuild_nil (hms : ms.Pairwise fun m n => m.start < n.start)
    (hlt : ∀ m ∈ ms, m.start < content.length) (hp : ∀ m ∈ ms, p ≤ m.start) :
    rebuild (fun _ => []) content p ms = content.drop p := by
  induction ms generalizing p with
  | nil => rfl
  | cons m ms ih =>
    obtain ⟨hm, hrest⟩ := List.pairwise_cons.mp hms
    have hle : m.start ≤ content.length := Nat.le_of_lt (hlt m (List.mem_cons_self ..))
    have hbehind := ih hrest (fun n hn => hlt n (List.mem_cons_of_mem _ hn))
      fun n hn => Nat.le_of_lt (hm n hn)
    have hmeet := drop_take_append (hp m (List.mem_cons_self ..)) hle hle
    rw [List.take_length] at hmeet
    rw [rebuild, hbehind, List.append_nil, hmeet]

end

namespace Annotator

variable {a : Annotator} {k : Knowledge} {f : SourceFile} {content : Bytes} {ms : List Match}

/-- Class lines that are written from the last construction to the first go in front of the segments
    of the content that was there before. -/
theorem annotate_eq_rebuild (hms : ms.Sublist (a.constructionsIn content)) :
    a.annotate content ms = rebuild a.line content 0 ms := by
  have hordered := pairwise_start_of_sublist hms
  induction ms with
  | nil => rfl
  | cons m ms ih =>
    obtain ⟨hm, hrest⟩ := List.pairwise_cons.mp hordered
    have hmem : m ∈ a.constructionsIn content := hms.subset (List.mem_cons_self ..)
    have hle : m.start ≤ content.length := Nat.le_of_lt (start_lt_length hmem)
    have hbehind := ih ((List.sublist_cons_self m ms).trans hms) hrest
    -- all lines written so far are behind this construction
    have hsplit : a.annotate content ms
        = content.take m.start ++ rebuild a.line content m.start ms := by
      have hcut : rebuild a.line content 0 ms
          = (content.take m.start).drop 0 ++ rebuild a.line content m.start ms :=
        rebuild_eq_append (Nat.zero_le m.start) hle fun n hn => Nat.le_of_lt (hm n hn)
      rw [hbehind, hcut, List.drop_zero]
    have hlength : (content.take m.start).length = m.start := List.length_take_of_le hle
    have hwritten : a.annotate content (m :: ms)
        = insertAt (a.annotate content ms) m.start (a.line m) := by
      have hstart : lineStart content m.start = m.start := lineStart_start hmem
      show insertAt (a.annotate content ms) (lineStart content m.start) (a.line m) = _
      rw [hstart]
    rw [hwritten, hsplit, insertAt, List.take_left' hlength, List.drop_left' hlength]
    rfl

/-! ## From right to left -/

/-- What the walk through a file has come to. -/
structure Splice where
  /-- The text built so far. -/
  text : Bytes
  inserted : Nat
  blocked : List BlockedSite

/-- The two parts of a text around an offset that lies within it. -/
def splitOff? (text : Bytes) (offset : Nat) : Option (Bytes × Bytes) :=
  if offset ≤ text.length then some (text.take offset, text.drop offset) else none

/-- The walk at one construction. A construction that is annotated or declared elsewhere is passed
    over. One that waits is deferred, unless its bundle was released. Any other one gets its class
    line at the start of its line. -/
def visit? (a : Annotator) (k : Knowledge) (f : SourceFile) (s : Splice) (m : Match) :
    Option Splice :=
  if a.annotated f.content m || decide (m.bundle ∈ a.authoritative) then some s
  else if !(a.waitingOn k m).isEmpty && !decide (m.bundle ∈ k.released) then
    some { s with
      blocked := s.blocked ++
        [⟨m.bundle, f.path, lineNumber f.content m.start, a.waitingOn k m⟩] }
  else
    (splitOff? s.text (lineStart f.content m.start)).map fun (front, behind) =>
      { s with text := front ++ a.line m ++ behind, inserted := s.inserted + 1 }

/-- The walk through all constructions of a file, the last one first. -/
def splice? (a : Annotator) (k : Knowledge) (f : SourceFile) : Option Splice :=
  (a.constructionsIn f.content).reverse.foldlM (a.visit? k f) ⟨f.content, 0, []⟩

theorem visit?_of_not_open {s : Splice} {m : Match} (h : a.isOpen f.content m = false) :
    a.visit? k f s m = some s := by
  rw [isOpen, ← Bool.not_or, Bool.not_eq_false'] at h
  rw [visit?, if_pos h]

theorem visit?_of_open {s : Splice} {m : Match} (h : a.isOpen f.content m = true) :
    a.visit? k f s m =
      if a.isReady k m then
        (splitOff? s.text (lineStart f.content m.start)).map fun (front, behind) =>
          { s with text := front ++ a.line m ++ behind, inserted := s.inserted + 1 }
      else
        some { s with
          blocked := s.blocked ++
            [⟨m.bundle, f.path, lineNumber f.content m.start, a.waitingOn k m⟩] } := by
  rw [isOpen, ← Bool.not_or, Bool.not_eq_true', ← Bool.not_eq_true] at h
  rw [visit?, if_neg h, isReady]
  cases (a.waitingOn k m).isEmpty <;> cases decide (m.bundle ∈ k.released) <;> rfl

/-- An offset of the old content lies within every text that has grown from it. -/
theorem splitOff?_annotate (a : Annotator) (ms : List Match) {q : Nat} (hq : q ≤ content.length) :
    splitOff? (a.annotate content ms) q
      = some ((a.annotate content ms).take q, (a.annotate content ms).drop q) := by
  have hgrown : content.length ≤ (a.annotate content ms).length :=
    (sublist_annotate a content ms).length_le
  rw [splitOff?, if_pos (hq.trans hgrown)]

/-- What the walk has come to when it is through with some constructions at the end of the file. -/
def spliced (a : Annotator) (k : Knowledge) (f : SourceFile) (ms : List Match) : Splice where
  text := a.annotate f.content ((ms.filter (a.isOpen f.content)).filter (a.isReady k))
  inserted := ((ms.filter (a.isOpen f.content)).filter (a.isReady k)).length
  blocked := ((ms.filter (a.isOpen f.content)).filter fun m => !a.isReady k m).reverse.map fun m =>
    ⟨m.bundle, f.path, lineNumber f.content m.start, a.waitingOn k m⟩

/-- One more construction in front of those that the walk is through with. -/
theorem visit?_spliced {m : Match} (hm : m ∈ a.constructionsIn f.content) :
    a.visit? k f (a.spliced k f ms) m = some (a.spliced k f (m :: ms)) := by
  cases hopen : a.isOpen f.content m with
  | false =>
    rw [visit?_of_not_open hopen]
    simp only [spliced, List.filter_cons, hopen, Bool.false_eq_true, if_false]
  | true =>
    rw [visit?_of_open hopen]
    cases hready : a.isReady k m with
    | false =>
      simp only [spliced, List.filter_cons, hopen, hready, Bool.false_eq_true, if_false, if_true,
        Bool.not_false, List.reverse_cons, List.map_append, List.map_singleton]
    | true =>
      -- the line starts within the old content, so the split falls within the text
      have hstart : lineStart f.content m.start ≤ f.content.length := by
        rw [lineStart_start hm]
        exact Nat.le_of_lt (start_lt_length hm)
      have hsplit := splitOff?_annotate a
        ((ms.filter (a.isOpen f.content)).filter (a.isReady k)) hstart
      simp only [spliced, List.filter_cons, hopen, hready, if_true, hsplit, Option.map_some,
        Bool.not_true, Bool.false_eq_true, if_false, List.length_cons]
      rfl

/-- The walk never fails. It inserts the class lines of the chosen constructions and defers the open
    ones that are not ready. -/
theorem splice?_eq :
    a.splice? k f
      = some ⟨a.annotate f.content (a.chosen k f.content), (a.chosen k f.content).length,
          a.deferred k f⟩ := by
  have hwalk : ∀ ms : List Match, (∀ m ∈ ms, m ∈ a.constructionsIn f.content) →
      ms.reverse.foldlM (a.visit? k f) ⟨f.content, 0, []⟩ = some (a.spliced k f ms) := by
    intro ms hms
    induction ms with
    | nil => rfl
    | cons m ms ih =>
      obtain ⟨hm, hrest⟩ := List.forall_mem_cons.mp hms
      rw [List.reverse_cons, List.foldlM_append, ih hrest]
      show (a.visit? k f (a.spliced k f ms) m >>= fun s => pure s) = _
      rw [visit?_spliced hm]
      rfl
  exact hwalk _ fun _ hm => hm

/-! ## A pass -/

/-- Something is written as soon as a construction is chosen. -/
theorem annotate_ne_iff (hms : ms.Sublist (a.openIn content)) :
    a.annotate content ms ≠ content ↔ ms ≠ [] := by
  have hinserts := inserts_of_sublist hms
  have hmade : a.annotate content ms = makeAll content (ms.reverse.map a.insertion) :=
    annotate_eq_makeAll fun m hm => openIn_sublist.subset (hms.subset hm)
  have hlength := hinserts.length_le
  rw [← hmade, List.length_map, List.length_reverse] at hlength
  constructor
  · rintro hne rfl
    exact hne rfl
  · intro hne heq
    have hpos := List.length_pos_of_ne_nil hne
    rw [heq] at hlength
    omega

/-- Whatever a pass knows, its walk through a file does not fail: every split falls within the text
    built so far. The text that comes out consists of the segments of the old content between the
    starts of the chosen constructions, each with the class line of its construction in front, and
    the number of insertions is that of the chosen constructions. Without the lines the segments are
    the old content; with them it is another content as soon as one construction is chosen. What a
    pass makes of a store is what these walks make of its files. -/
theorem pass_splices (a : Annotator) :
    (∀ (k : Knowledge) (f : SourceFile),
      a.splice? k f
        = some ⟨rebuild a.line f.content 0 (a.chosen k f.content), (a.chosen k f.content).length,
            a.deferred k f⟩ ∧
      (a.chosen k f.content).Pairwise (fun m n => m.start < n.start) ∧
      rebuild (fun _ => []) f.content 0 (a.chosen k f.content) = f.content ∧
      (rebuild a.line f.content 0 (a.chosen k f.content) ≠ f.content ↔
        a.chosen k f.content ≠ [])) ∧
    ∀ (corpus released : NameSet) (store : Store),
      (a.pass corpus released store).store
        = store.edit (fun f =>
            rebuild a.line f.content 0 (a.chosen (a.knowledge corpus released store) f.content)) ∧
      (a.pass corpus released store).inserted
        = (store.files.map fun f =>
            (a.chosen (a.knowledge corpus released store) f.content).length).sum ∧
      (a.pass corpus released store).blocked
        = store.files.flatMap (a.deferred (a.knowledge corpus released store)) := by
  have hchosen : ∀ k content, (a.chosen k content).Sublist (a.constructionsIn content) :=
    fun k content => List.filter_sublist.trans openIn_sublist
  have hbuilt : ∀ k content, a.annotate content (a.chosen k content)
      = rebuild a.line content 0 (a.chosen k content) :=
    fun k content => annotate_eq_rebuild (hchosen k content)
  refine ⟨fun k f => ?_, fun corpus released store => ?_⟩
  · have hordered := pairwise_start_of_sublist (hchosen k f.content)
    refine ⟨?_, hordered, ?_, ?_⟩
    · rw [splice?_eq, hbuilt]
    · apply rebuild_nil hordered
      · exact fun m hm => start_lt_length ((hchosen k f.content).subset hm)
      · exact fun _ _ => Nat.zero_le _
    · rw [← hbuilt]
      exact annotate_ne_iff List.filter_sublist
  · refine ⟨Store.edit_congr fun f _ => hbuilt _ f.content, ?_, rfl⟩
    show (store.files.flatMap _).length = _
    rw [List.length_flatMap]
    rfl

end Annotator

end Lineage
