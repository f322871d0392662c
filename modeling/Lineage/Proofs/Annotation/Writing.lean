import Lineage.Proofs.Annotation.MarkedLines

/-!
# Writing class lines into a content

Writing class lines above some constructions weaves them in. If they are lines, the content has the
same constructions as before, the ones just written are closed, and writing the missing lines
later gives the same content as writing all of them at once.

## Main definitions

- `Annotator.linesAt` are the class lines that belong at an offset
- `Annotator.annotateAll` writes the class line of every open construction

## Main statements

- `Annotator.sublist_annotate`: writing only adds
- `Annotator.annotate_eq_weave`: what writing does, offset by offset
- `Annotator.openIn_annotate`: the open constructions that are left
- `Annotator.annotate_annotate`: writing in two steps
-/

namespace Lineage

namespace Annotator

variable {a : Annotator} {content : Bytes} {ms : List Match}

/-! ## Nothing is taken away -/

theorem sublist_insertAt (content : Bytes) (offset : Nat) (piece : Bytes) :
    content.Sublist (insertAt content offset piece) := by
  have hsplit : content.take offset ++ content.drop offset = content := List.take_append_drop ..
  have hpiece : (content.take offset ++ content.drop offset).Sublist
      (content.take offset ++ (piece ++ content.drop offset)) :=
    (List.sublist_append_right piece _).append_left _
  rw [hsplit] at hpiece
  rw [insertAt, List.append_assoc]
  exact hpiece

/-- Writing takes no byte away, whatever is written. -/
theorem sublist_annotate (a : Annotator) (content : Bytes) (ms : List Match) :
    content.Sublist (a.annotate content ms) := by
  induction ms with
  | nil => exact List.Sublist.refl content
  | cons m ms ih => exact ih.trans (sublist_insertAt ..)

/-! ## Lines at offsets -/

/-- The class lines of the constructions that start at an offset. -/
def linesAt (a : Annotator) (ms : List Match) (q : Nat) : Bytes :=
  (ms.filter fun m => m.start = q).flatMap a.line

/-- Writes the class line of every open construction, each once at the start of the construction,
    and nothing else. -/
def annotateAll (a : Annotator) (content : Bytes) : Bytes :=
  weave (a.linesAt (a.openIn content)) content

theorem linesAt_cons (m : Match) (q : Nat) :
    a.linesAt (m :: ms) q = (if m.start = q then a.line m else []) ++ a.linesAt ms q :=
  piecesAt_cons m q

theorem linesAt_eq_nil {q : Nat} (h : ∀ m ∈ ms, m.start ≠ q) : a.linesAt ms q = [] :=
  piecesAt_eq_nil h

theorem linesAt_start (hms : ms.Pairwise fun m n => m.start < n.start) {m : Match}
    (hm : m ∈ ms) : a.linesAt ms m.start = a.line m :=
  piecesAt_start hms hm

theorem linesAt_filter (hms : ms.Pairwise fun m n => m.start < n.start) {m : Match} (hm : m ∈ ms)
    (choice : Match → Bool) :
    a.linesAt (ms.filter choice) m.start = if choice m then a.line m else [] := by
  split
  · rename_i hchoice
    exact linesAt_start (hms.sublist List.filter_sublist) (List.mem_filter.mpr ⟨hm, hchoice⟩)
  · rename_i hchoice
    refine linesAt_eq_nil fun n hn hstart => hchoice ?_
    obtain ⟨hn, hchosen⟩ := List.mem_filter.mp hn
    -- a construction at the same start is the same one
    rwa [← eq_of_pairwise_start hms hn hm hstart]

/-- Where lines are, one construction starts. -/
theorem exists_of_linesAt_ne_nil {q : Nat} (h : a.linesAt ms q ≠ []) : ∃ m ∈ ms, m.start = q :=
  exists_of_piecesAt_ne_nil h

/-- Moving a construction does not change its class line. -/
@[simp] theorem parentsFor_moveTo (m : Match) (p : Nat) :
    a.parentsFor (m.moveTo p) = a.parentsFor m := rfl

@[simp] theorem line_moveTo (m : Match) (p : Nat) : a.line (m.moveTo p) = a.line m := rfl

/-! ## Writing is weaving -/

theorem pairwise_start_of_sublist (hms : ms.Sublist (a.constructionsIn content)) :
    ms.Pairwise fun m n => m.start < n.start :=
  (pairwise_start_constructions _ content).sublist hms

/-- A piece put in at an offset with no other piece up to there. -/
theorem insertAt_weave {piece : Nat → Bytes} {pre post line : Bytes}
    (hpiece : ∀ q, q ≤ pre.length → piece q = []) (hpost : post ≠ []) :
    insertAt (weave piece (pre ++ post)) pre.length line
      = weave (fun q => (if pre.length = q then line else []) ++ piece q) (pre ++ post) := by
  obtain ⟨b, rest, rfl⟩ := List.exists_cons_of_ne_nil hpost
  -- in front of the offset no piece is put in, and behind it the pieces are the same
  have hfront : ∀ other : Nat → Bytes, (∀ q, q < pre.length → other q = []) →
      weaveFrom other 0 pre = pre := by
    intro other hother
    refine weaveFrom_eq_self fun q _ hlt => hother q ?_
    simpa using hlt
  have hbehind : weaveFrom (fun q => (if pre.length = q then line else []) ++ piece q)
      (pre.length + 1) rest = weaveFrom piece (pre.length + 1) rest := by
    refine weaveFrom_congr fun q hq _ => ?_
    rw [if_neg (by omega), List.nil_append]
  have hold : weave piece (pre ++ b :: rest)
      = pre ++ b :: weaveFrom piece (pre.length + 1) rest := by
    rw [weave, weaveFrom_append, hfront piece fun q hq => hpiece q (Nat.le_of_lt hq),
      Nat.zero_add, weaveFrom, hpiece _ (Nat.le_refl _), List.nil_append]
  have hnew : weave (fun q => (if pre.length = q then line else []) ++ piece q) (pre ++ b :: rest)
      = pre ++ (line ++ b :: weaveFrom piece (pre.length + 1) rest) := by
    rw [weave, weaveFrom_append, hfront, Nat.zero_add, weaveFrom, hbehind, if_pos rfl,
      hpiece _ (Nat.le_refl _), List.append_nil]
    intro q hq
    rw [if_neg (Nat.ne_of_gt hq), hpiece q (Nat.le_of_lt hq), List.append_nil]
  rw [hold, hnew, insertAt, List.take_left, List.drop_left, List.append_assoc]

/-- Writing class lines from the last construction to the first puts each in front of its own. -/
theorem annotate_eq_weave (hms : ms.Sublist (a.constructionsIn content)) :
    a.annotate content ms = weave (a.linesAt ms) content := by
  have hordered := pairwise_start_of_sublist hms
  induction ms with
  | nil => exact (weaveFrom_eq_self fun q _ _ => rfl).symm
  | cons m ms ih =>
    obtain ⟨hm, hrest⟩ := List.pairwise_cons.mp hordered
    have htail : ms.Sublist (a.constructionsIn content) := (List.sublist_cons_self m ms).trans hms
    have hmem : m ∈ a.constructionsIn content := hms.subset (List.mem_cons_self ..)
    have hwritten : a.annotate content (m :: ms)
        = insertAt (weave (a.linesAt ms) content) (lineStart content m.start) (a.line m) := by
      rw [← ih htail hrest]
      rfl
    have hlt : m.start < content.length := start_lt_length hmem
    -- the first construction stands at a line start, so its line goes right in front of it
    obtain ⟨pre, post, c, rfl, hpre, -, rfl⟩ := mem_constructions hmem
    have hstart : (c.matchAt pre.length).start = pre.length := rfl
    have hpost : post ≠ [] := by
      rintro rfl
      simp [hstart] at hlt
    rw [hwritten, hstart, lineStart_append hpre, insertAt_weave _ hpost]
    · refine congrArg (weave · (pre ++ post)) (funext fun q => ?_)
      rw [linesAt_cons, hstart]
    · -- all other lines are put in behind
      intro q hq
      refine linesAt_eq_nil fun n hn => ?_
      have hbehind : pre.length < n.start := hm n hn
      omega

/-- Writing all class lines is writing those of the open constructions. -/
theorem annotateAll_eq_annotate :
    a.annotateAll content = a.annotate content (a.openIn content) :=
  (annotate_eq_weave List.filter_sublist).symm

theorem linesAbove_linesAt (hms : ms.Sublist (a.constructionsIn content))
    (hlines : ∀ m ∈ ms, IsLine (a.line m)) :
    LinesAbove a.settings.composeFunction (a.linesAt ms) 0 0 true content := by
  intro q _ hne
  obtain ⟨m, hm, rfl⟩ := exists_of_linesAt_ne_nil hne
  rw [linesAt_start (pairwise_start_of_sublist hms) hm]
  exact ⟨hlines m hm, m, hms.subset hm, rfl⟩

/-! ## The constructions afterwards -/

/-- A construction where it stands after class lines were written. -/
def moved (a : Annotator) (content : Bytes) (ms : List Match) (m : Match) : Match :=
  m.moveTo (place (a.linesAt ms) content m.start)

@[simp] theorem bundle_moved (m : Match) : (a.moved content ms m).bundle = m.bundle := rfl

@[simp] theorem parents_moved (m : Match) : (a.moved content ms m).parents = m.parents := rfl

@[simp] theorem parentsFor_moved (m : Match) :
    a.parentsFor (a.moved content ms m) = a.parentsFor m := rfl

@[simp] theorem line_moved (m : Match) : a.line (a.moved content ms m) = a.line m := rfl

/-- The lines of moved constructions are the lines of the constructions, moved. -/
theorem linesAt_map_moved {others : List Match} (hothers : ∀ m ∈ others, m.start < content.length)
    {q : Nat} (hq : q < content.length) :
    a.linesAt (others.map (a.moved content ms)) (place (a.linesAt ms) content q)
      = a.linesAt others q := by
  rw [linesAt, List.filter_map, List.flatMap_map, linesAt]
  congr 1
  refine List.filter_congr fun m hm => decide_eq_decide.mpr ⟨fun h => ?_, fun h => ?_⟩
  · exact place_injective (hothers m hm) hq h
  · rw [← h]
    rfl

section Lines

variable (hms : ms.Sublist (a.constructionsIn content)) (hlines : ∀ m ∈ ms, IsLine (a.line m))

include hms hlines

/-- Writing lines adds no construction and hides none. -/
theorem constructionsIn_annotate (hcompose : IsWord a.settings.composeFunction) :
    a.constructionsIn (a.annotate content ms)
      = (a.constructionsIn content).map (a.moved content ms) := by
  rw [annotate_eq_weave hms]
  exact constructions_weave hcompose.ofWordChars (linesAbove_linesAt hms hlines)

/-- The constructions with a line are annotated, besides those that were. -/
theorem annotated_annotate (hmarker : a.settings.annotationMarker ≠ "") {m : Match}
    (hm : m ∈ a.constructionsIn content) :
    a.annotated (a.annotate content ms) (a.moved content ms m)
      = (a.annotated content m || decide (m ∈ ms)) := by
  have hordered := pairwise_start_of_sublist hms
  have hmarked : ∀ q, a.linesAt ms q ≠ [] →
      Utf8.ofString a.settings.annotationMarker <:+: a.linesAt ms q := by
    intro q hne
    obtain ⟨n, hn, rfl⟩ := exists_of_linesAt_ne_nil hne
    rw [linesAt_start hordered hn]
    exact (marker_prefix_line n).isInfix
  -- a line is put in at the start of a construction if it is one of those to be written
  have hwritten : (!(a.linesAt ms m.start).isEmpty) = decide (m ∈ ms) := by
    by_cases hmem : m ∈ ms
    · have hne : a.line m ≠ [] := line_ne_nil m
      simp [hmem, linesAt_start hordered hmem, hne]
    · have hnil : a.linesAt ms m.start = [] := by
        refine linesAt_eq_nil fun n hn hstart => hmem ?_
        have hall := pairwise_start_constructions a.settings.composeFunction content
        rwa [← eq_of_pairwise_start hall (hms.subset hn) hm hstart]
      simp [hmem, hnil]
  rw [annotate_eq_weave hms, ← hwritten]
  exact isAnnotated_weave hmarker (linesAbove_linesAt hms hlines) hmarked hm

end Lines

theorem mem_openIn {m : Match} :
    m ∈ a.openIn content ↔ m ∈ a.constructionsIn content ∧ a.isOpen content m = true :=
  List.mem_filter

theorem openIn_sublist : (a.openIn content).Sublist (a.constructionsIn content) :=
  List.filter_sublist

section Chosen

variable (hsettings : a.settings.LineSafe)
  (hlines : ∀ m ∈ a.openIn content, IsLine (a.line m)) (choice : Match → Bool)

include hsettings hlines

theorem constructionsIn_annotate_filter :
    a.constructionsIn (a.annotate content ((a.openIn content).filter choice))
      = (a.constructionsIn content).map (a.moved content ((a.openIn content).filter choice)) := by
  refine constructionsIn_annotate ?_ ?_ hsettings.isWord
  · exact List.filter_sublist.trans openIn_sublist
  · intro m hm
    exact hlines m (List.mem_of_mem_filter hm)

/-- A construction is annotated afterwards if it was, or if it was open and chosen. -/
theorem annotated_annotate_filter {m : Match} (hm : m ∈ a.constructionsIn content) :
    a.annotated (a.annotate content ((a.openIn content).filter choice))
        (a.moved content ((a.openIn content).filter choice) m)
      = (a.annotated content m || (a.isOpen content m && choice m)) := by
  have hchosen : decide (m ∈ (a.openIn content).filter choice)
      = (a.isOpen content m && choice m) := by
    rw [Bool.eq_iff_iff, decide_eq_true_iff, List.mem_filter, mem_openIn, Bool.and_eq_true]
    exact ⟨fun h => ⟨h.1.2, h.2⟩, fun h => ⟨⟨hm, h.1⟩, h.2⟩⟩
  rw [← hchosen]
  apply annotated_annotate (List.filter_sublist.trans openIn_sublist) _
    hsettings.marker_ne_empty hm
  exact fun n hn => hlines n (List.mem_of_mem_filter hn)

/-- The open constructions that are left are those that were not chosen. -/
theorem openIn_annotate :
    a.openIn (a.annotate content ((a.openIn content).filter choice))
      = ((a.openIn content).filter fun m => !choice m).map
          (a.moved content ((a.openIn content).filter choice)) := by
  have hleft : (a.openIn content).filter (fun m => !choice m)
      = (a.constructionsIn content).filter fun m => !choice m && a.isOpen content m :=
    List.filter_filter ..
  show (a.constructionsIn _).filter _ = _
  rw [constructionsIn_annotate_filter hsettings hlines, List.filter_map, hleft]
  refine congrArg (List.map _) (List.filter_congr fun m hm => ?_)
  -- a construction is open afterwards if it was open and not chosen
  have hannotated := annotated_annotate_filter hsettings hlines choice hm
  show a.isOpen _ (a.moved content _ m) = (!choice m && a.isOpen content m)
  rw [isOpen, hannotated, bundle_moved, isOpen]
  cases a.annotated content m <;> cases choice m <;> simp

/-- Lines that are written in two steps might as well have been written at once. -/
theorem annotate_annotate (later : Match → Bool) :
    a.annotate (a.annotate content ((a.openIn content).filter choice))
        ((a.openIn (a.annotate content ((a.openIn content).filter choice))).filter later)
      = a.annotate content ((a.openIn content).filter fun m =>
          choice m || later (a.moved content ((a.openIn content).filter choice) m)) := by
  have hcompose := hsettings.isWord
  have hordered : (a.openIn content).Pairwise fun m n => m.start < n.start :=
    pairwise_start_of_sublist openIn_sublist
  have hlt : ∀ m ∈ a.openIn content, m.start < content.length :=
    fun m hm => start_lt_length (mem_openIn.mp hm).1
  have hfirst : ∀ choice : Match → Bool,
      ((a.openIn content).filter choice).Sublist (a.constructionsIn content) :=
    fun choice => List.filter_sublist.trans openIn_sublist
  rw [annotate_eq_weave (List.filter_sublist.trans openIn_sublist),
    openIn_annotate hsettings hlines, List.filter_map, annotate_eq_weave (hfirst choice),
    annotate_eq_weave (hfirst _), weave_weave]
  · refine weaveFrom_congr fun q _ hq => ?_
    rw [Nat.zero_add] at hq
    have hleft_lt : ∀ m ∈ ((a.openIn content).filter fun m => !choice m).filter
        (later ∘ a.moved content ((a.openIn content).filter choice)), m.start < content.length :=
      fun m hm => hlt m (List.mem_of_mem_filter (List.mem_of_mem_filter hm))
    rw [linesAt_map_moved hleft_lt hq]
    by_cases hnone : ∀ m ∈ a.openIn content, m.start ≠ q
    · rw [linesAt_eq_nil fun m hm => hnone m (List.mem_of_mem_filter hm),
        linesAt_eq_nil fun m hm => hnone m (List.mem_of_mem_filter (List.mem_of_mem_filter hm)),
        linesAt_eq_nil fun m hm => hnone m (List.mem_of_mem_filter hm), List.nil_append]
    · -- the one construction at this offset is written first, later or not at all
      obtain ⟨m, hm, rfl⟩ : ∃ m ∈ a.openIn content, m.start = q := by
        simpa using hnone
      rw [List.filter_filter, linesAt_filter hordered hm, linesAt_filter hordered hm,
        linesAt_filter hordered hm]
      cases hchoice : choice m <;> simp
  · -- later lines are put in where constructions went
    intro p hne
    obtain ⟨n, hn, rfl⟩ := exists_of_linesAt_ne_nil hne
    obtain ⟨m, hm, rfl⟩ := List.mem_map.mp hn
    exact ⟨m.start, hlt m (List.mem_of_mem_filter (List.mem_of_mem_filter hm)), rfl⟩

/-- Writing the lines that are left writes all of them. -/
theorem annotateAll_annotate :
    a.annotateAll (a.annotate content ((a.openIn content).filter choice))
      = a.annotateAll content := by
  have htwice := annotate_annotate hsettings hlines choice fun _ => true
  rw [List.filter_true] at htwice
  rw [annotateAll_eq_annotate, annotateAll_eq_annotate, htwice]
  simp

/-- Nothing is left open once all lines are written. -/
theorem openIn_annotateAll : a.openIn (a.annotateAll content) = [] := by
  have hleft := openIn_annotate hsettings hlines fun _ => true
  rw [List.filter_true] at hleft
  rw [annotateAll_eq_annotate, hleft]
  simp

end Chosen

end Annotator

end Lineage
