import Lineage.Proofs.Annotation.LineSafety

/-!
# Marked lines above constructions

Pieces that belong to constructions are woven into a content, each at the start of its construction.
A byte then moves by the pieces that were put in up to it. If the pieces are lines with the marker,
the content has the same constructions as before, each moved as a whole, and exactly those are newly
annotated that were given a line.

## Main definitions

- `piecesAt` are the pieces of the constructions that start at an offset
- `withLines` puts a marked line above some constructions of a content

## Main statements

- `place_piecesAt`: how far a byte moves
- `constructions_withLines`: the constructions afterwards, and which of them are annotated
-/

namespace Lineage

/-! ## Pieces of constructions -/

/-- The pieces of the constructions that start at an offset. -/
def piecesAt (piece : Match → Bytes) (ms : List Match) (q : Nat) : Bytes :=
  (ms.filter fun m => m.start = q).flatMap piece

variable {piece : Match → Bytes} {ms : List Match}

@[simp] theorem piecesAt_nil (q : Nat) : piecesAt piece [] q = [] := rfl

theorem piecesAt_cons (m : Match) (q : Nat) :
    piecesAt piece (m :: ms) q = (if m.start = q then piece m else []) ++ piecesAt piece ms q := by
  rw [piecesAt, List.filter_cons]
  split <;> simp_all [piecesAt]

theorem piecesAt_eq_nil {q : Nat} (h : ∀ m ∈ ms, m.start ≠ q) : piecesAt piece ms q = [] := by
  induction ms with
  | nil => rfl
  | cons m ms ih =>
    have hm : m.start ≠ q := h m (List.mem_cons_self ..)
    have hms : piecesAt piece ms q = [] := ih fun n hn => h n (List.mem_cons_of_mem _ hn)
    rw [piecesAt_cons, if_neg hm, hms, List.append_nil]

/-- At the start of a construction stands its own piece. -/
theorem piecesAt_start (hms : ms.Pairwise fun m n => m.start < n.start) {m : Match}
    (hm : m ∈ ms) : piecesAt piece ms m.start = piece m := by
  induction ms with
  | nil => cases hm
  | cons n ms ih =>
    obtain ⟨hn, hrest⟩ := List.pairwise_cons.mp hms
    rcases List.mem_cons.mp hm with rfl | hm
    · have hnil : piecesAt piece ms m.start = [] :=
        piecesAt_eq_nil fun k hk => Nat.ne_of_gt (hn k hk)
      rw [piecesAt_cons, if_pos rfl, hnil, List.append_nil]
    · have hne : n.start ≠ m.start := Nat.ne_of_lt (hn m hm)
      rw [piecesAt_cons, if_neg hne, List.nil_append, ih hrest hm]

/-- Where pieces are, a construction starts. -/
theorem exists_of_piecesAt_ne_nil {q : Nat} (h : piecesAt piece ms q ≠ []) :
    ∃ m ∈ ms, m.start = q := by
  by_contra hnone
  apply h
  apply piecesAt_eq_nil
  intro m hm hq
  exact hnone ⟨m, hm, hq⟩

/-! ## How far bytes move -/

/-- The bytes of a kind in woven bytes are those there were and those of the pieces. -/
theorem countP_weaveFrom (p : UInt8 → Bool) (pieces : Nat → Bytes) (pos : Nat) (bs : Bytes) :
    (weaveFrom pieces pos bs).countP p
      = bs.countP p + ∑ i ∈ Finset.range bs.length, (pieces (pos + i)).countP p := by
  induction bs generalizing pos with
  | nil => rfl
  | cons b rest ih =>
    have hshift : ∀ i, pos + 1 + i = pos + (i + 1) := fun i => by omega
    rw [weaveFrom, List.countP_append, List.countP_cons, ih, List.countP_cons, List.length_cons,
      Finset.sum_range_succ']
    simp only [hshift, Nat.add_zero]
    omega

/-- What stands in front of a byte of a content, pieces included. -/
theorem take_place (pieces : Nat → Bytes) {content : Bytes} {q : Nat} (hq : q < content.length) :
    (weave pieces content).take (place pieces content q)
      = weave pieces (content.take q) ++ pieces q := by
  have hlength : (content.take q).length = q := List.length_take_of_le (Nat.le_of_lt hq)
  have hrest : content.drop q ≠ [] := by
    simpa using hq
  have hplace : place pieces (content.take q ++ content.drop q) (content.take q).length
      = (weave pieces (content.take q) ++ pieces (content.take q).length).length :=
    place_append ..
  have hweave : weave pieces (content.take q ++ content.drop q)
      = weave pieces (content.take q) ++ pieces (content.take q).length
        ++ weaveTail pieces (content.take q).length (content.drop q) :=
    weave_append hrest
  rw [List.take_append_drop, hlength] at hplace hweave
  rw [hplace, hweave, List.take_left]

/-- The bytes of a kind in front of a byte are those there were and those of the pieces up to it. -/
theorem countP_take_place (p : UInt8 → Bool) (pieces : Nat → Bytes) {content : Bytes} {q : Nat}
    (hq : q < content.length) :
    ((weave pieces content).take (place pieces content q)).countP p
      = (content.take q).countP p + ∑ i ∈ Finset.range (q + 1), (pieces i).countP p := by
  have hlength : (content.take q).length = q := List.length_take_of_le (Nat.le_of_lt hq)
  rw [take_place pieces hq, List.countP_append, weave, countP_weaveFrom, hlength,
    Finset.sum_range_succ]
  simp only [Nat.zero_add, Nat.add_assoc]

/-- What is counted in the pieces of all offsets is counted in the pieces of all constructions. -/
theorem sum_countP_piecesAt (p : UInt8 → Bool) (piece : Match → Bytes) (ms : List Match) (q : Nat) :
    ∑ i ∈ Finset.range (q + 1), (piecesAt piece ms i).countP p
      = ((ms.filter fun m => m.start ≤ q).map fun m => (piece m).countP p).sum := by
  induction ms with
  | nil => simp
  | cons m ms ih =>
    simp only [piecesAt_cons, List.countP_append, Finset.sum_add_distrib, ih, List.filter_cons]
    by_cases hm : m.start ≤ q
    · simp [hm, apply_ite (List.countP p), Nat.lt_succ_of_le hm]
    · have hout : ∀ i ∈ Finset.range (q + 1), ¬ m.start = i := by
        intro i hi hstart
        rw [Finset.mem_range] at hi
        omega
      rw [Finset.sum_eq_zero fun i hi => by rw [if_neg (hout i hi), List.countP_nil]]
      simp [hm]

/-- A byte moves by the pieces of the constructions that start up to it. -/
theorem place_piecesAt {content : Bytes} {q : Nat} (hq : q < content.length) :
    place (piecesAt piece ms) content q
      = q + ((ms.filter fun m => m.start ≤ q).map fun m => (piece m).length).sum := by
  have hlength : (content.take q).length = q := List.length_take_of_le (Nat.le_of_lt hq)
  have hfront : ((weave (piecesAt piece ms) content).take
      (place (piecesAt piece ms) content q)).length = place (piecesAt piece ms) content q := by
    rw [take_place _ hq, place, placeFrom, Nat.sub_zero, List.length_append, weave]
  have hcount := countP_take_place (fun _ => true) (piecesAt piece ms) hq
  rw [sum_countP_piecesAt] at hcount
  simp only [List.countP_true, hfront, hlength] at hcount
  exact hcount

/-- With lines put in, a byte stands so many lines lower as there are lines put in up to it. -/
theorem lineNumber_place {content : Bytes} {q : Nat} (hq : q < content.length)
    (hlines : ∀ m ∈ ms, IsLine (piece m)) :
    lineNumber (weave (piecesAt piece ms) content) (place (piecesAt piece ms) content q)
      = lineNumber content q + (ms.filter fun m => m.start ≤ q).length := by
  have hcount := countP_take_place (· == newline) (piecesAt piece ms) hq
  -- every line has one newline
  have hone : ∀ m ∈ ms.filter fun m => m.start ≤ q, (piece m).countP (· == newline) = 1 := by
    intro m hm
    obtain ⟨body, hbody, hnewline⟩ := (hlines m (List.mem_of_mem_filter hm)).exists_bytes
    have hnone : body.countP (· == newline) = 0 := List.count_eq_zero.mpr hnewline
    rw [hbody, List.countP_cons, List.countP_append, hnone]
    rfl
  rw [sum_countP_piecesAt, List.map_congr_left hone] at hcount
  simp only [List.map_const', List.sum_replicate, smul_eq_mul, Nat.mul_one] at hcount
  rw [lineNumber, lineNumber, List.count_eq_countP, hcount, List.count_eq_countP]
  omega

/-! ## Lines above some constructions -/

/-- What is put in above a construction: the marked line of its text, if it has one. -/
def lineAbove (marker : String) (text : Match → Option String) (m : Match) : Bytes :=
  ((text m).map (markedLine marker)).getD []

/-- A content with a marked line put in at the start of every construction that has a text. -/
def withLines (compose marker : String) (text : Match → Option String) (content : Bytes) : Bytes :=
  weave (piecesAt (lineAbove marker text) (constructions compose content)) content

/-- How far a construction moves: by the length of all lines put in at its start or before it. -/
def shift (compose marker : String) (text : Match → Option String) (content : Bytes) (m : Match) :
    Nat :=
  (((constructions compose content).filter fun n => n.start ≤ m.start).map
    fun n => (lineAbove marker text n).length).sum

section

variable {compose marker : String} {text : Match → Option String} {content : Bytes} {m : Match}

theorem lineAbove_of_some {t : String} (h : text m = some t) :
    lineAbove marker text m = markedLine marker t := by
  simp [lineAbove, h]

theorem exists_of_lineAbove_ne_nil (h : lineAbove marker text m ≠ []) :
    ∃ t, text m = some t := by
  cases htext : text m with
  | none => simp [lineAbove, htext] at h
  | some t => exact ⟨t, rfl⟩

theorem isEmpty_lineAbove : (!(lineAbove marker text m).isEmpty) = (text m).isSome := by
  cases htext : text m with
  | none => simp [lineAbove, htext]
  | some t => simp [lineAbove, htext, markedLine_ne_nil]

theorem piecesAt_lineAbove (hm : m ∈ constructions compose content) :
    piecesAt (lineAbove marker text) (constructions compose content) m.start
      = lineAbove marker text m :=
  piecesAt_start (pairwise_start_constructions compose content) hm

theorem place_start (hm : m ∈ constructions compose content) :
    place (piecesAt (lineAbove marker text) (constructions compose content)) content m.start
      = m.start + shift compose marker text content m :=
  place_piecesAt (start_lt_length hm)

/-- Moving a construction keeps its length. -/
theorem moveTo_start_add (hm : m ∈ constructions compose content) (n : Nat) :
    m.moveTo (m.start + n) = { m with start := m.start + n, stop := m.stop + n } := by
  obtain ⟨pre, post, c, -, -, -, rfl⟩ := mem_constructions hm
  simp only [Match.moveTo, Construction.matchAt, Match.mk.injEq, true_and, and_true]
  omega

variable (hcompose : OfWordChars compose) (hdash : marker.toList.head? = some '-')
  (hmarker : StaysInLine marker)
  (htext : ∀ m ∈ constructions compose content, ∀ t ∈ text m, StaysInLine t)

include hdash hmarker htext

/-- What is put in are lines, each above a construction. -/
theorem linesAbove_lineAbove :
    LinesAbove compose (piecesAt (lineAbove marker text) (constructions compose content)) 0 0 true
      content := by
  intro q _ hne
  obtain ⟨m, hm, rfl⟩ := exists_of_piecesAt_ne_nil hne
  rw [piecesAt_lineAbove hm] at hne ⊢
  obtain ⟨t, ht⟩ := exists_of_lineAbove_ne_nil hne
  rw [lineAbove_of_some ht]
  exact ⟨isLine_markedLine hdash hmarker (htext m hm t ht), m, hm, rfl⟩

include hcompose

/-- Lines with the marker above some constructions of a content, each in a text that stays on its
    line, neither add nor hide a construction nor change one. There are the same constructions in
    the same order, with the same bundles and parents, each moved by the length of the lines that
    were put in at its start or before it; and one of them is annotated if it was or if it was given
    a line. -/
theorem constructions_withLines :
    constructions compose (withLines compose marker text content)
        = (constructions compose content).map (fun m =>
            { m with
              start := m.start + shift compose marker text content m
              stop := m.stop + shift compose marker text content m }) ∧
      ∀ m ∈ constructions compose content,
        isAnnotated marker (withLines compose marker text content)
            (m.start + shift compose marker text content m)
          = (isAnnotated marker content m.start || (text m).isSome) := by
  have hlines := linesAbove_lineAbove hdash hmarker htext
  constructor
  · rw [withLines, constructions_weave hcompose hlines]
    refine List.map_congr_left fun m hm => ?_
    rw [place_start hm, moveTo_start_add hm]
  · intro m hm
    have hmarker_ne : marker ≠ "" := by
      rintro rfl
      cases hdash
    -- every line that was put in carries the marker
    have hmarked : ∀ q, piecesAt (lineAbove marker text) (constructions compose content) q ≠ [] →
        Utf8.ofString marker
          <:+: piecesAt (lineAbove marker text) (constructions compose content) q := by
      intro q hne
      obtain ⟨n, hn, rfl⟩ := exists_of_piecesAt_ne_nil hne
      rw [piecesAt_lineAbove hn] at hne ⊢
      obtain ⟨t, ht⟩ := exists_of_lineAbove_ne_nil hne
      rw [lineAbove_of_some ht]
      exact (marker_prefix_markedLine marker t).isInfix
    rw [withLines, ← place_start hm, isAnnotated_weave hmarker_ne hlines hmarked hm,
      piecesAt_lineAbove hm, isEmpty_lineAbove]

end

/-- A composition whose arguments stand on a line of their own, between two tables. -/
def spread : Bytes :=
  Utf8.ofString "A = \x7b\x7d\nB = CreateFromMixins(\nA)\nC = \x7b\x7d\n"

/-- A text for the composition and one for the table behind it. -/
def textOfSpread (m : Match) : Option String :=
  if m.bundle = "A" then none else some m.bundle

theorem constructions_withLines_spread :
    OfWordChars "CreateFromMixins" ∧ "---@class".toList.head? = some '-' ∧
      StaysInLine "---@class" ∧
      (∀ m ∈ constructions "CreateFromMixins" spread, ∀ t ∈ textOfSpread m, StaysInLine t) ∧
      constructions "CreateFromMixins" (withLines "CreateFromMixins" "---@class" textOfSpread spread)
        = [⟨0, 5, "A", []⟩, ⟨19, 43, "B", ["A"]⟩, ⟨56, 61, "C", []⟩] := by
  have hcompose : OfWordChars "CreateFromMixins" := SiteSettings.lineSafe_default.isWord.ofWordChars
  have hmarker : StaysInLine "---@class" := SiteSettings.lineSafe_default.staysInLine
  have htext : ∀ m ∈ constructions "CreateFromMixins" spread, ∀ t ∈ textOfSpread m,
      StaysInLine t := by
    decide +kernel
  refine ⟨hcompose, rfl, hmarker, htext, ?_⟩
  rw [(constructions_withLines hcompose rfl hmarker htext).1]
  decide +kernel

end Lineage
