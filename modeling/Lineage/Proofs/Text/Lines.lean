import Lineage.Text.Lines
import Mathlib.Tactic

/-!
# Lines by what stands in front of them

Offsets are compared through the bytes in front of them: where the bytes in front end a line, the
offset is a line start, the line above it is the last line of these bytes, and nothing behind the
offset matters.

## Main statements

- `lineStart_eq_length`: the start of a line, from a split of the bytes in front
- `previousLine_append`: the line above a line start
- `lineStart_append_add`, `previousLine_append_add`, `lineNumber_append_add`: places behind whole
  lines
-/

namespace Lineage

/-- Whether a line starts right behind a byte list. -/
def EndsLine (bs : Bytes) : Prop := bs = [] ∨ bs.getLast? = some newline

theorem endsLine_nil : EndsLine [] := .inl rfl

theorem endsLine_append_newline (bs : Bytes) : EndsLine (bs ++ [newline]) :=
  .inr (by simp)

/-- The end of a byte list decides, if there is one. -/
theorem endsLine_append_iff {xs ys : Bytes} (h : ys ≠ []) :
    EndsLine (xs ++ ys) ↔ EndsLine ys := by
  simp [EndsLine, h]

theorem EndsLine.append {xs ys : Bytes} (hx : EndsLine xs) (hy : EndsLine ys) :
    EndsLine (xs ++ ys) := by
  by_cases h : ys = []
  · simpa [h] using hx
  · exact (endsLine_append_iff h).mpr hy

/-- Whole lines in front decide whether a content starts with a part of a line. -/
theorem EndsLine.prefix_append_iff {head pre : Bytes} (hpre : EndsLine pre)
    (hhead : newline ∉ head) (hne : pre ≠ []) (post : Bytes) :
    head <+: pre ++ post ↔ head <+: pre := by
  constructor
  · intro h
    rcases List.prefix_or_prefix_of_prefix h (List.prefix_append pre post) with hhead | hlonger
    · exact hhead
    · -- a longer text would have the newline that ends the lines
      have hlast : newline ∈ pre := List.mem_of_getLast? (hpre.resolve_left hne)
      exact absurd (hlonger.subset hlast) hhead
  · exact fun h => h.trans (List.prefix_append pre post)

/-- Every byte list is some whole lines and a last one that is not ended. -/
theorem exists_lines_append (bs : Bytes) :
    ∃ xs line, bs = xs ++ line ∧ EndsLine xs ∧ newline ∉ line := by
  induction bs using List.reverseRecOn with
  | nil => exact ⟨[], [], rfl, endsLine_nil, by simp⟩
  | append_singleton bs b ih =>
    -- a newline ends the last line, and any other byte is on it
    by_cases hb : b = newline
    · subst hb
      exact ⟨bs ++ [newline], [], by simp, endsLine_append_newline bs, by simp⟩
    · obtain ⟨xs, line, rfl, hxs, hline⟩ := ih
      refine ⟨xs, line ++ [b], by simp, hxs, ?_⟩
      simp only [List.mem_append, List.mem_singleton, not_or]
      exact ⟨hline, fun h => hb h.symm⟩

/-- Whole lines end with a last line, unless there are none. -/
theorem EndsLine.exists_last {bs : Bytes} (h : EndsLine bs) (hne : bs ≠ []) :
    ∃ xs line, bs = xs ++ (line ++ [newline]) ∧ EndsLine xs ∧ newline ∉ line := by
  have hlast : bs.getLast? = some newline := h.resolve_left hne
  obtain ⟨front, rfl⟩ : ∃ front, bs = front ++ [newline] := by
    rw [List.getLast?_eq_some_iff] at hlast
    exact hlast
  obtain ⟨xs, line, rfl, hxs, hline⟩ := exists_lines_append front
  exact ⟨xs, line, by simp, hxs, hline⟩

/-! ## Line starts -/

private theorem takeWhile_reverse_append {xs line : Bytes} (hxs : EndsLine xs)
    (hline : newline ∉ line) :
    ((xs ++ line).reverse.takeWhile (· != newline)) = line.reverse := by
  have hall : ∀ b ∈ line.reverse, (b != newline) = true := by
    intro b hb
    simp only [List.mem_reverse] at hb
    simp only [bne_iff_ne, ne_eq]
    rintro rfl
    exact hline hb
  rw [List.reverse_append, List.takeWhile_append_of_pos hall]
  rcases hxs with rfl | hlast
  · simp
  · obtain ⟨front, rfl⟩ : ∃ front, xs = front ++ [newline] := by
      rw [List.getLast?_eq_some_iff] at hlast
      exact hlast
    simp

/-- A line starts behind the whole lines in front of a position. -/
theorem lineStart_eq_length {content xs line : Bytes} {pos : Nat}
    (h : content.take pos = xs ++ line) (hxs : EndsLine xs) (hline : newline ∉ line) :
    lineStart content pos = xs.length := by
  simp only [lineStart, h, takeWhile_reverse_append hxs hline, List.length_reverse,
    List.length_append]
  omega

/-- Only the bytes in front matter. -/
theorem lineStart_congr {content content' : Bytes} {pos : Nat}
    (h : content.take pos = content'.take pos) :
    lineStart content pos = lineStart content' pos := by
  simp only [lineStart, h]

/-- Where the bytes in front end a line, a line starts. -/
theorem lineStart_append {pre : Bytes} (hpre : EndsLine pre) (post : Bytes) :
    lineStart (pre ++ post) pre.length = pre.length :=
  lineStart_eq_length (by rw [List.take_left, List.append_nil]) hpre (List.not_mem_nil)

/-- The line above a line start is the last one in front of it. -/
theorem previousLine_append {xs line : Bytes} (hxs : EndsLine xs) (hline : newline ∉ line)
    (post : Bytes) :
    previousLine (xs ++ (line ++ [newline]) ++ post) (xs ++ (line ++ [newline])).length
      = some (line ++ [newline]) := by
  have hstart : lineStart (xs ++ (line ++ [newline]) ++ post)
      ((xs ++ (line ++ [newline])).length - 1) = xs.length := by
    have hlen : (xs ++ (line ++ [newline])).length - 1 = (xs ++ line).length := by simp
    refine lineStart_eq_length ?_ hxs hline
    rw [hlen, ← List.append_assoc, List.append_assoc (xs ++ line), List.take_left]
  have htake : (xs ++ (line ++ [newline]) ++ post).take (xs ++ (line ++ [newline])).length
      = xs ++ (line ++ [newline]) := List.take_left
  rw [previousLine, if_neg (by simp), hstart, htake, List.drop_left]

/-- There is no line above the first one. -/
theorem previousLine_zero (content : Bytes) : previousLine content 0 = none := by
  simp [previousLine]

/-! ## Places in front and behind -/

section

variable {front behind behind' : Bytes} {p : Nat}

/-- Of what stands behind a place nothing matters. -/
theorem take_append_congr (hp : p ≤ front.length) :
    (front ++ behind).take p = (front ++ behind').take p := by
  rw [List.take_append_of_le_length hp, List.take_append_of_le_length hp]

theorem lineNumber_congr {content content' : Bytes} (h : content.take p = content'.take p) :
    lineNumber content p = lineNumber content' p := by
  rw [lineNumber, lineNumber, h]

/-- The line above a place stands in front of it. -/
theorem previousLine_append_congr (hp : p ≤ front.length) :
    previousLine (front ++ behind) p = previousLine (front ++ behind') p := by
  have hin : ∀ ys : Bytes, ¬ (front ++ ys).length < p := by
    intro ys
    rw [List.length_append]
    omega
  have hstart : lineStart (front ++ behind) (p - 1) = lineStart (front ++ behind') (p - 1) :=
    lineStart_congr (take_append_congr ((Nat.sub_le p 1).trans hp))
  have htake : (front ++ behind).take p = (front ++ behind').take p := take_append_congr hp
  simp only [previousLine, hin, or_false, hstart, htake]

/-- Behind whole lines a line starts as far behind them as it would without them. -/
theorem lineStart_append_add (hfront : EndsLine front) (behind : Bytes) (p : Nat) :
    lineStart (front ++ behind) (front.length + p) = front.length + lineStart behind p := by
  obtain ⟨xs, line, hsplit, hxs, hline⟩ := exists_lines_append (behind.take p)
  have hwhole : (front ++ behind).take (front.length + p) = (front ++ xs) ++ line := by
    rw [List.take_length_add_append, hsplit, List.append_assoc]
  rw [lineStart_eq_length hwhole (hfront.append hxs) hline, lineStart_eq_length hsplit hxs hline,
    List.length_append]

/-- Below the first line behind whole lines, these do not matter for what stands above. -/
theorem previousLine_append_add (hfront : EndsLine front) (behind : Bytes) (hp : 0 < p) :
    previousLine (front ++ behind) (front.length + p) = previousLine behind p := by
  have hlength : (front ++ behind).length < front.length + p ↔ behind.length < p := by
    rw [List.length_append]
    omega
  have hzero : front.length + p = 0 ↔ p = 0 := by omega
  have hstart : lineStart (front ++ behind) (front.length + p - 1)
      = front.length + lineStart behind (p - 1) := by
    rw [Nat.add_sub_assoc hp, lineStart_append_add hfront]
  simp only [previousLine, hlength, hzero, hstart, List.take_length_add_append,
    List.drop_length_add_append]

/-- Behind some bytes the lines are counted on. -/
theorem lineNumber_append_add (front behind : Bytes) (p : Nat) :
    lineNumber (front ++ behind) (front.length + p)
      = front.count newline + lineNumber behind p := by
  rw [lineNumber, lineNumber, List.take_length_add_append, List.count_append, Nat.add_assoc]

end

/-- Where a line starts, the bytes in front end one. -/
theorem endsLine_take_of_lineStart {content : Bytes} {pos : Nat}
    (h : lineStart content pos = pos) : EndsLine (content.take pos) := by
  obtain ⟨xs, line, hsplit, hxs, hline⟩ := exists_lines_append (content.take pos)
  have hlength : xs.length = pos := (lineStart_eq_length hsplit hxs hline).symm.trans h
  -- the last line in front is empty
  have hle : (content.take pos).length ≤ pos := List.length_take_le ..
  have hnil : line = [] := by
    rw [hsplit, List.length_append] at hle
    exact List.length_eq_zero_iff.mp (by omega)
  rw [hsplit, hnil, List.append_nil]
  exact hxs

/-- A line start is within the content. -/
theorem le_length_of_lineStart {content : Bytes} {pos : Nat} (h : lineStart content pos = pos) :
    pos ≤ content.length := by
  have hlength : (content.take pos).length ≤ content.length := List.length_take_le' ..
  simp only [lineStart] at h
  omega

end Lineage
