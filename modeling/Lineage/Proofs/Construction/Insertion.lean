import Lineage.Proofs.Construction.Weave

/-!
# Lines above constructions

Lines put above constructions hide no construction and add none: the same constructions are found
in the same order, moved by what was put in front of them. A construction is annotated afterwards
if it was or if a line with the marker was put above it.

## Main statements

- `constructions_weave`: the constructions of a content with lines put above some of them
- `isAnnotated_weave`: which of them are annotated
- `constructions_line_append`: a line in front of a whole content
-/

namespace Lineage

open Utf8 (encode span Stops next?)

/-- A match that starts elsewhere. -/
def Match.moveTo (m : Match) (start : Nat) : Match :=
  { m with start, stop := start + (m.stop - m.start) }

@[simp] theorem Match.start_moveTo (m : Match) (p : Nat) : (m.moveTo p).start = p := rfl

@[simp] theorem Match.bundle_moveTo (m : Match) (p : Nat) : (m.moveTo p).bundle = m.bundle := rfl

@[simp] theorem Match.parents_moveTo (m : Match) (p : Nat) : (m.moveTo p).parents = m.parents := rfl

theorem Construction.moveTo_matchAt (c : Construction) (pos p : Nat) :
    (c.matchAt pos).moveTo p = c.matchAt p := by
  simp [Construction.matchAt, Match.moveTo]

variable {piece : Nat → Bytes} {compose : String}

/-! ## Reading past a line -/

theorem constructionsFrom_newline {compose body : Bytes} (hbody : newline ∉ body) (pos : Nat)
    (rest : Bytes) :
    constructionsFrom compose pos 0 false (body ++ newline :: rest)
      = constructionsFrom compose (pos + body.length + 1) 0 true rest := by
  induction body generalizing pos with
  | nil => simp [constructionsFrom]
  | cons b body ih =>
    simp only [List.mem_cons, not_or] at hbody
    have hb : (b == newline) = false := by
      rw [beq_eq_false_iff_ne]
      exact fun h => hbody.1 h.symm
    have hlen : pos + 1 + body.length + 1 = pos + (b :: body).length + 1 := by
      simp only [List.length_cons]
      omega
    rw [List.cons_append, constructionsFrom, hb, ih hbody.2, hlen]
    rfl

/-- A line holds no construction, and the one below it is read as if nothing stood above. -/
theorem constructionsFrom_line_append {line : Bytes} (h : IsLine line) (compose : Bytes)
    (pos : Nat) (rest : Bytes) :
    constructionsFrom compose pos 0 true (line ++ rest)
      = constructionsFrom compose (pos + line.length) 0 true rest := by
  have hnone : construction? compose (line ++ rest) = none :=
    construction?_eq_none_of_stops (h.stops (by decide) rest)
  obtain ⟨body, rfl, hbody⟩ := h.exists_bytes
  have hbytes : 0x2D :: (body ++ [newline]) ++ rest = 0x2D :: (body ++ newline :: rest) := by simp
  have hdash : ((0x2D : UInt8) == newline) = false := by decide
  have hlen : pos + 1 + body.length + 1 = pos + (0x2D :: (body ++ [newline])).length := by
    simp only [List.length_cons, List.length_append, List.length_nil]
    omega
  rw [hbytes] at hnone ⊢
  rw [constructionsFrom, if_pos rfl, hnone]
  simp only [hdash, constructionsFrom_newline hbody, hlen]

/-- Constructions found from another offset on. -/
theorem constructionsFrom_add (compose : Bytes) (k pos skip : Nat) (atLineStart : Bool)
    (bs : Bytes) :
    constructionsFrom compose (k + pos) skip atLineStart bs
      = (constructionsFrom compose pos skip atLineStart bs).map
          fun m => m.moveTo (k + m.start) := by
  induction bs generalizing pos skip atLineStart with
  | nil => rfl
  | cons b rest ih =>
    cases skip with
    | succ skip => exact ih (pos + 1) skip (b == newline)
    | zero =>
      cases hread : constructionAt? compose atLineStart (b :: rest) with
      | none =>
        rw [constructionsFrom_of_none _ hread, constructionsFrom_of_none _ hread, Nat.add_assoc, ih]
      | some c =>
        rw [constructionsFrom_of_some _ hread, constructionsFrom_of_some _ hread, Nat.add_assoc, ih,
          List.map_cons, Construction.moveTo_matchAt]
        rfl

/-- A line in front of a content only moves its constructions. -/
theorem constructions_line_append {line : Bytes} (h : IsLine line) (compose : String)
    (content : Bytes) :
    constructions compose (line ++ content)
      = (constructions compose content).map fun m => m.moveTo (line.length + m.start) := by
  have hadd := constructionsFrom_add (Utf8.ofString compose) line.length 0 0 true content
  rw [constructions, constructionsFrom_line_append h, Nat.zero_add]
  exact hadd

/-! ## Annotations -/

theorem occursIn_iff {part bs : Bytes} : Bytes.occursIn part bs = true ↔ part <:+: bs := by
  induction bs with
  | nil => simp [Bytes.occursIn]
  | cons b rest ih =>
    rw [Bytes.occursIn, Bool.or_eq_true, List.isPrefixOf_iff_prefix, ih, List.infix_cons_iff]

/-- The line above decides whether a place is annotated. -/
theorem isAnnotated_append {xs line : Bytes} (hxs : EndsLine xs) (hline : newline ∉ line)
    (marker : String) (post : Bytes) :
    isAnnotated marker (xs ++ (line ++ [newline]) ++ post) (xs ++ (line ++ [newline])).length
      = (decide (marker ≠ "") && Bytes.occursIn (Utf8.ofString marker) (line ++ [newline])) := by
  have hstart : EndsLine (xs ++ (line ++ [newline])) :=
    hxs.append (endsLine_append_newline line)
  simp only [isAnnotated, lineStart_append hstart, previousLine_append hxs hline]

/-- Right behind whole lines the last of them decides, whatever is in front of them. -/
theorem isAnnotated_append_append {front piece : Bytes} (hfront : EndsLine front)
    (hpiece : EndsLine piece) (hne : piece ≠ []) (marker : String) (post : Bytes) :
    isAnnotated marker (front ++ piece ++ post) (front ++ piece).length
      = isAnnotated marker piece piece.length := by
  obtain ⟨xs, line, rfl, hxs, hline⟩ := hpiece.exists_last hne
  have halone := isAnnotated_append hxs hline marker []
  rw [List.append_nil] at halone
  rw [← List.append_assoc, isAnnotated_append (hfront.append hxs) hline, halone]

/-- Right below a line the line itself decides. -/
theorem IsLine.isAnnotated_append {line : Bytes} (h : IsLine line) (marker : String)
    (post : Bytes) :
    isAnnotated marker (line ++ post) line.length
      = (decide (marker ≠ "") && Bytes.occursIn (Utf8.ofString marker) line) := by
  obtain ⟨body, rfl, hbody⟩ := h.exists_bytes
  have hline : newline ∉ 0x2D :: body := by
    simp only [List.mem_cons, not_or]
    exact ⟨by decide, hbody⟩
  have habove := Lineage.isAnnotated_append endsLine_nil hline marker post
  rw [List.nil_append] at habove
  exact habove

/-- Below a line with the marker everything is annotated. -/
theorem IsLine.isAnnotated {line : Bytes} (h : IsLine line) {marker : String}
    (hmarker : marker ≠ "") (hmarked : Utf8.ofString marker <:+: line) :
    isAnnotated marker line line.length = true := by
  have halone := h.isAnnotated_append marker []
  rw [List.append_nil, occursIn_iff.mpr hmarked] at halone
  rw [halone]
  simp [hmarker]

/-- Nothing stands above the first byte. -/
theorem isAnnotated_zero (marker : String) (content : Bytes) :
    isAnnotated marker content 0 = false := by
  have hstart : lineStart content 0 = 0 := lineStart_append endsLine_nil content
  rw [isAnnotated, hstart, previousLine_zero]

/-! ## Lines above some constructions -/

/-- A construction is read from a core that does not end with a newline and from the byte behind
    it. -/
theorem exists_core_of_construction? (hcompose : OfWordChars compose) {bs : Bytes} {c : Construction}
    (h : construction? (Utf8.ofString compose) bs = some c) :
    ∃ core rest, bs = core ++ rest ∧ core ≠ [] ∧ core.getLast? ≠ some newline ∧
      core.length ≤ c.length ∧
      ∀ rest', rest'.head? = rest.head? →
        construction? (Utf8.ofString compose) (core ++ rest') = some c := by
  obtain ⟨s, rest, hvalid, rfl, rfl⟩ := (construction?_eq_some_iff hcompose).mp h
  have hne : definitionBytes (Utf8.ofString compose) s.arguments ≠ [] := by
    cases s.arguments <;> simp [definitionBytes]
  refine ⟨s.bytes (Utf8.ofString compose), rest, rfl, ?_, ?_, ?_, ?_⟩
  · simp [Spelling.bytes]
  · -- it ends with a brace or a parenthesis
    have hlast : (s.bytes (Utf8.ofString compose)).getLast?
        = (definitionBytes (Utf8.ofString compose) s.arguments).getLast? := by
      simp only [Spelling.bytes, List.getLast?_append, List.getLast?_cons]
      cases hdef : (definitionBytes (Utf8.ofString compose) s.arguments).getLast? with
      | none => exact absurd (List.getLast?_eq_none_iff.mp hdef) hne
      | some b => simp
    rw [hlast]
    cases s.arguments with
    | none => simp [definitionBytes, newline]
    | some arguments =>
      simp [definitionBytes, newline, List.getLast?_append, List.getLast?_cons]
  · simp only [Spelling.construction]
    omega
  · -- of what follows only the semicolon is looked at
    intro rest' hhead
    rw [construction?_bytes hcompose hvalid]
    simp only [Spelling.construction, semicolonWidth_congr hhead s.arguments]

theorem head?_weaveFrom {pos : Nat} (h : piece pos = []) (bs : Bytes) :
    (weaveFrom piece pos bs).head? = bs.head? := by
  cases bs with
  | nil => rfl
  | cons b rest => rw [weaveFrom, h, List.nil_append, List.head?_cons, List.head?_cons]

section Reading

variable {pos skip : Nat} {atLineStart : Bool} {bs : Bytes}

/-- Every piece from `pos` on is a line in front of a construction that is found there. -/
def LinesAbove (compose : String) (piece : Nat → Bytes) (pos skip : Nat) (atLineStart : Bool)
    (bs : Bytes) : Prop :=
  ∀ q, pos ≤ q → piece q ≠ [] → IsLine (piece q) ∧
    ∃ m ∈ constructionsFrom (Utf8.ofString compose) pos skip atLineStart bs, m.start = q

theorem LinesAbove.piece_eq_nil (h : LinesAbove compose piece pos skip atLineStart bs) {q : Nat}
    (hpos : pos ≤ q) (hstart : ∀ m ∈ constructionsFrom (Utf8.ofString compose) pos skip atLineStart
      bs, m.start ≠ q) : piece q = [] := by
  by_contra hne
  obtain ⟨-, m, hm, hq⟩ := h q hpos hne
  exact hstart m hm hq

/-- What is known of the pieces of a list is known of those behind its first byte. -/
theorem LinesAbove.tail {b : UInt8} {skip' : Nat}
    (h : LinesAbove compose piece pos skip atLineStart (b :: bs))
    (heq : ∀ m ∈ constructionsFrom (Utf8.ofString compose) pos skip atLineStart (b :: bs),
      m.start = pos ∨
        m ∈ constructionsFrom (Utf8.ofString compose) (pos + 1) skip' (b == newline) bs) :
    LinesAbove compose piece (pos + 1) skip' (b == newline) bs := by
  intro q hq hne
  obtain ⟨hline, m, hm, hstart⟩ := h q (by omega) hne
  refine ⟨hline, m, ?_, hstart⟩
  rcases heq m hm with hpos | hm
  · omega
  · exact hm

/-- Where a construction fails to be read, the lines behind do not help. -/
theorem LinesAbove.construction?_eq_none (hcompose : OfWordChars compose) {b : UInt8}
    (h : LinesAbove compose piece (pos + 1) 0 (b == newline) bs)
    (hnone : construction? (Utf8.ofString compose) (b :: bs) = none) :
    construction? (Utf8.ofString compose) (b :: weaveFrom piece (pos + 1) bs) = none := by
  have hwoven : Woven (Utf8.ofString compose) (b :: bs) (weaveTail piece pos (b :: bs)) := by
    refine woven_weaveTail fun q hq hne => ?_
    obtain ⟨hline, m, hm, hstart⟩ := h q hq hne
    obtain ⟨pre, post, c, rfl, -, hempty, hlast, hc, rfl⟩ := mem_constructionsFrom hm
    have hq : q = pos + (b :: pre).length := by
      rw [← hstart]
      simp only [Construction.matchAt, List.length_cons]
      omega
    exact ⟨hline, b :: pre, post, rfl, hq, getLast?_cons_eq_newline hempty hlast,
      Option.isSome_iff_exists.mpr ⟨c, hc⟩⟩
  exact hwoven.construction?_eq_none hcompose hnone

/-- A construction is read with the lines behind it as without them. -/
theorem LinesAbove.construction?_eq_some (hcompose : OfWordChars compose) {b : UInt8} {c : Construction}
    (h : LinesAbove compose piece (pos + 1) (c.length - 1) (b == newline) bs)
    (hc : construction? (Utf8.ofString compose) (b :: bs) = some c) :
    construction? (Utf8.ofString compose) (b :: weaveFrom piece (pos + 1) bs) = some c := by
  obtain ⟨core, post, hbs, hcore, hlast, hlength, hread⟩ := exists_core_of_construction? hcompose hc
  obtain ⟨b', core, rfl⟩ := List.exists_cons_of_ne_nil hcore
  obtain ⟨rfl, rfl⟩ : b = b' ∧ bs = core ++ post := by simpa using hbs
  simp only [List.length_cons] at hlength
  -- the next construction starts behind this one, so no line stands in its core
  have hinside : weaveFrom piece (pos + 1) core = core := by
    refine weaveFrom_eq_self fun q hq hlt => h.piece_eq_nil hq fun m hm hstart => ?_
    have hle := (le_start_of_mem_constructionsFrom hm).1
    omega
  -- and none right behind its core, which does not end a line
  have hbehind : piece (pos + 1 + core.length) = [] := by
    refine h.piece_eq_nil (Nat.le_add_right ..) fun m hm hstart => ?_
    obtain ⟨pre, post', c', hsplit, -, hempty, hnewline, -, rfl⟩ := mem_constructionsFrom hm
    have hpre : pre = core := by
      refine (List.append_inj_left hsplit ?_).symm
      simp only [Construction.matchAt] at hstart
      omega
    subst hpre
    exact hlast (getLast?_cons_eq_newline hempty hnewline)
  rw [weaveFrom_append, hinside, ← List.cons_append]
  exact hread _ (head?_weaveFrom hbehind post)

/-- No line is put above a byte with all constructions behind it. -/
theorem LinesAbove.piece_pos_eq_nil (h : LinesAbove compose piece pos skip atLineStart bs)
    (hbehind : ∀ m ∈ constructionsFrom (Utf8.ofString compose) pos skip atLineStart bs,
      pos < m.start) : piece pos = [] :=
  h.piece_eq_nil (Nat.le_refl pos) fun m hm => Nat.ne_of_gt (hbehind m hm)

/-- The constructions behind a byte move by the same bytes, counted from that byte or from behind
    it. -/
theorem map_moveTo_cons {compose : Bytes} (pos' skip : Nat) (atLineStart : Bool) (b : UInt8)
    (rest : Bytes) :
    (constructionsFrom compose (pos + 1) skip atLineStart rest).map
        (fun m => m.moveTo (pos' + (piece pos).length + 1 + placeFrom piece (pos + 1) rest m.start))
      = (constructionsFrom compose (pos + 1) skip atLineStart rest).map
        fun m => m.moveTo (pos' + placeFrom piece pos (b :: rest) m.start) := by
  refine List.map_congr_left fun m hm => ?_
  have hle := (le_start_of_mem_constructionsFrom hm).1
  rw [placeFrom_cons (by omega)]
  congr 1
  omega

/-- With lines put above some constructions the same constructions are found, each moved. -/
theorem constructionsFrom_weaveFrom (hcompose : OfWordChars compose)
    (h : LinesAbove compose piece pos skip atLineStart bs) (pos' : Nat) :
    constructionsFrom (Utf8.ofString compose) pos' skip atLineStart (weaveFrom piece pos bs)
      = (constructionsFrom (Utf8.ofString compose) pos skip atLineStart bs).map
          fun m => m.moveTo (pos' + placeFrom piece pos bs m.start) := by
  induction bs generalizing pos skip atLineStart pos' with
  | nil => rfl
  | cons b rest ih =>
    cases skip with
    | succ skip =>
      -- a construction found before is still being skipped
      have hpiece : piece pos = [] := h.piece_pos_eq_nil fun m hm =>
        Nat.lt_of_succ_le (Nat.le_trans (by omega) (le_start_of_mem_constructionsFrom hm).1)
      have htail : LinesAbove compose piece (pos + 1) skip (b == newline) rest :=
        h.tail fun m hm => .inr hm
      have hrest := ih htail (pos' + (piece pos).length + 1)
      rw [map_moveTo_cons pos' skip _ b, hpiece, List.length_nil, Nat.add_zero] at hrest
      rw [weaveFrom, hpiece, List.nil_append]
      exact hrest
    | zero =>
      cases hread : constructionAt? (Utf8.ofString compose) atLineStart (b :: rest) with
      | none =>
        have hfound := constructionsFrom_of_none pos hread
        have hpiece : piece pos = [] := by
          refine h.piece_pos_eq_nil fun m hm => ?_
          rw [hfound] at hm
          exact Nat.lt_of_succ_le (le_start_of_mem_constructionsFrom hm).1
        have htail : LinesAbove compose piece (pos + 1) 0 (b == newline) rest :=
          h.tail fun m hm => .inr (hfound ▸ hm)
        -- nothing is read here with the lines behind, either
        have hnone : constructionAt? (Utf8.ofString compose) atLineStart
            (b :: weaveFrom piece (pos + 1) rest) = none := by
          rw [constructionAt?_eq_none_iff] at hread ⊢
          exact fun hstart => htail.construction?_eq_none hcompose (hread hstart)
        have hrest := ih htail (pos' + (piece pos).length + 1)
        rw [map_moveTo_cons pos' 0 _ b, hpiece, List.length_nil, Nat.add_zero] at hrest
        rw [hfound, weaveFrom, hpiece, List.nil_append, constructionsFrom_of_none _ hnone]
        exact hrest
      | some c =>
        have hfound := constructionsFrom_of_some pos hread
        obtain ⟨rfl, hc⟩ := constructionAt?_eq_some_iff.mp hread
        have htail : LinesAbove compose piece (pos + 1) (c.length - 1) (b == newline) rest := by
          refine h.tail fun m hm => ?_
          rw [hfound, List.mem_cons] at hm
          exact hm.imp_left fun h => by rw [h]; rfl
        -- the piece above is a line, or there is none
        have habove : constructionsFrom (Utf8.ofString compose) pos' 0 true
              (weaveFrom piece pos (b :: rest))
            = constructionsFrom (Utf8.ofString compose) (pos' + (piece pos).length) 0 true
              (b :: weaveFrom piece (pos + 1) rest) := by
          by_cases hnil : piece pos = []
          · rw [weaveFrom, hnil]
            rfl
          · exact constructionsFrom_line_append (h pos (Nat.le_refl _) hnil).1 _ _ _
        have hsome : constructionAt? (Utf8.ofString compose) true
            (b :: weaveFrom piece (pos + 1) rest) = some c :=
          constructionAt?_eq_some_iff.mpr ⟨rfl, htail.construction?_eq_some hcompose hc⟩
        have hrest := ih htail (pos' + (piece pos).length + 1)
        rw [map_moveTo_cons pos' _ _ b] at hrest
        rw [habove, constructionsFrom_of_some _ hsome, hrest, hfound, List.map_cons,
          Construction.moveTo_matchAt]
        simp only [Construction.matchAt, placeFrom_self]

end Reading

/-! ## Whole contents -/

theorem constructions_weave (hcompose : OfWordChars compose) {content : Bytes}
    (h : LinesAbove compose piece 0 0 true content) :
    constructions compose (weave piece content)
      = (constructions compose content).map fun m => m.moveTo (place piece content m.start) := by
  have hmoved := constructionsFrom_weaveFrom hcompose h 0
  simp only [Nat.zero_add] at hmoved
  exact hmoved

/-- Lines stand only where lines start. -/
theorem LinesAbove.piece_eq_nil_of_line {content xs line post : Bytes}
    (h : LinesAbove compose piece 0 0 true content)
    (hcontent : content = xs ++ (line ++ post)) (hline : newline ∉ line) {q : Nat}
    (hlt : xs.length < q) (hle : q ≤ xs.length + line.length) : piece q = [] := by
  refine h.piece_eq_nil (Nat.zero_le q) fun m hm hstart => ?_
  obtain ⟨pre, post', c, hsplit, hpre, -, rfl⟩ := mem_constructions hm
  have hlen : pre.length = q := hstart
  have hfront : pre = xs ++ line.take (q - xs.length) := by
    have htake := congrArg (List.take q) (hcontent.symm.trans hsplit)
    rw [← hlen, List.take_left, hlen, List.take_append, List.take_of_length_le (by omega),
      List.take_append_of_le_length (by omega)] at htake
    exact htake.symm
  have hne : line.take (q - xs.length) ≠ [] := by
    rw [← List.length_pos_iff, List.length_take]
    omega
  rw [hfront, endsLine_append_iff hne] at hpre
  -- the last byte in front of `q` is on the line
  have hmem := List.mem_of_getLast? (hpre.resolve_left hne)
  exact hline (List.mem_of_mem_take hmem)

/-- What stands in front of a line start keeps its last line. -/
theorem LinesAbove.weave_lines {content xs line post : Bytes}
    (h : LinesAbove compose piece 0 0 true content)
    (hcontent : content = xs ++ (line ++ [newline]) ++ post) (hline : newline ∉ line) :
    weave piece (xs ++ (line ++ [newline]))
      = (weave piece xs ++ piece xs.length) ++ (line ++ [newline]) := by
  have hrest : weaveFrom piece xs.length (line ++ [newline])
      = piece xs.length ++ (line ++ [newline]) := by
    have hne : line ++ [newline] ≠ [] := by simp
    obtain ⟨b, tail, htail⟩ := List.exists_cons_of_ne_nil hne
    have hlen : line.length = tail.length := by
      have := congrArg List.length htail
      simpa using this
    -- no line starts inside this one
    have hnone : weaveFrom piece (xs.length + 1) tail = tail := by
      refine weaveFrom_eq_self fun q hq hlt => ?_
      have hsplit : content = xs ++ (line ++ newline :: post) := by simp [hcontent]
      exact h.piece_eq_nil_of_line hsplit hline (by omega) (by omega)
    rw [htail, weaveFrom, hnone]
  rw [weave, weaveFrom_append, Nat.zero_add, hrest, List.append_assoc, weave]

theorem LinesAbove.endsLine (h : LinesAbove compose piece 0 0 true bs) (q : Nat) :
    EndsLine (piece q) := by
  by_cases hnil : piece q = []
  · exact .inl hnil
  · exact (h q (Nat.zero_le q) hnil).1.endsLine

/-- Below a piece that is put in, the piece decides what is annotated. -/
theorem isAnnotated_weave_of_ne_nil {pre post : Bytes} (hpre : EndsLine pre) (hpost : post ≠ [])
    (hends : EndsLine (piece pre.length)) (hne : piece pre.length ≠ []) (marker : String) :
    isAnnotated marker (weave piece (pre ++ post)) (place piece (pre ++ post) pre.length)
      = isAnnotated marker (piece pre.length) (piece pre.length).length := by
  have hfront : EndsLine (weave piece pre) := (endsLine_weaveFrom_iff 0 pre).mpr hpre
  rw [weave_append hpost, place_append]
  exact isAnnotated_append_append hfront hends hne marker _

/-- With no piece put in, the line above is the same as before. -/
theorem isAnnotated_weave_of_eq_nil {pre post : Bytes}
    (h : LinesAbove compose piece 0 0 true (pre ++ post)) (hpre : EndsLine pre) (hpost : post ≠ [])
    (hnil : piece pre.length = []) (marker : String) :
    isAnnotated marker (weave piece (pre ++ post)) (place piece (pre ++ post) pre.length)
      = isAnnotated marker (pre ++ post) pre.length := by
  rw [weave_append hpost, place_append, hnil, List.append_nil]
  by_cases hempty : pre = []
  · subst hempty
    exact (isAnnotated_zero marker _).trans (isAnnotated_zero marker _).symm
  · -- what is put in above the line does not matter
    obtain ⟨xs, line, rfl, hxs, hline⟩ := hpre.exists_last hempty
    have hwoven : EndsLine (weave piece xs ++ piece xs.length) :=
      ((endsLine_weaveFrom_iff 0 xs).mpr hxs).append (h.endsLine _)
    rw [h.weave_lines rfl hline, isAnnotated_append hwoven hline, isAnnotated_append hxs hline]

/-- A construction is annotated with the lines put in if it was before or got one of them. -/
theorem isAnnotated_weave {marker : String} (hmarker : marker ≠ "") {content : Bytes}
    (h : LinesAbove compose piece 0 0 true content)
    (hmarked : ∀ q, piece q ≠ [] → Utf8.ofString marker <:+: piece q) {m : Match}
    (hm : m ∈ constructions compose content) :
    isAnnotated marker (weave piece content) (place piece content m.start)
      = (isAnnotated marker content m.start || !(piece m.start).isEmpty) := by
  obtain ⟨pre, post, c, rfl, hpre, -, rfl⟩ := mem_constructions hm
  show isAnnotated marker (weave piece (pre ++ post)) (place piece (pre ++ post) pre.length)
      = (isAnnotated marker (pre ++ post) pre.length || !(piece pre.length).isEmpty)
  have hpost : post ≠ [] := by
    have hlt := start_lt_length hm
    rintro rfl
    simp [Construction.matchAt] at hlt
  by_cases hnil : piece pre.length = []
  · rw [isAnnotated_weave_of_eq_nil h hpre hpost hnil, hnil, List.isEmpty_nil, Bool.not_true,
      Bool.or_false]
  · rw [isAnnotated_weave_of_ne_nil hpre hpost (h.endsLine _) hnil,
      (h _ (Nat.zero_le _) hnil).1.isAnnotated hmarker (hmarked _ hnil)]
    simp [hnil]

end Lineage
