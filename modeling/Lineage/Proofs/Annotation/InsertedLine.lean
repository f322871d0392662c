import Lineage.Annotation.Annotator
import Lineage.Proofs.Text.Lines

/-!
# A line that is put in

A line that is put in where another one starts leaves all lines whole. What stands in front of it
keeps its place, what stands behind it goes down by one line, and each line but the one right below
still has the same line above it.

## Main statements

- `insertAt_length`: a content around an offset, with a piece put in
- `lines_insertAt`: the lines of a content in which a line was put in
-/

namespace Lineage

namespace Annotator

variable {content front behind piece : Bytes} {q : Nat}

/-- A piece that is put in stands between what was in front of its offset and what was behind. -/
theorem insertAt_length :
    insertAt (front ++ behind) front.length piece = front ++ piece ++ behind := by
  rw [insertAt, List.take_left, List.drop_left]

/-- A line ends with its newline and has no other one. -/
theorem exists_line (hlast : piece.getLast? = some newline) (hcount : piece.count newline = 1) :
    ∃ line, piece = line ++ [newline] ∧ newline ∉ line := by
  obtain ⟨line, rfl⟩ := List.getLast?_eq_some_iff.mp hlast
  have hnone : line.count newline = 0 := by
    rw [List.count_append, List.count_singleton_self] at hcount
    omega
  exact ⟨line, rfl, List.count_eq_zero.mp hnone⟩

/-- A line that is put in at a line start. It is the line above what stood there before. Above every
    other place there stands what stood there before, whether a line starts at it or not: behind the
    line that was put in places are moved by its length, and in front of it they are not. Behind it
    line numbers are greater by one and line starts are moved, and in front of it both are as
    before. -/
theorem lines_insertAt (hq : lineStart content q = q) (hlast : piece.getLast? = some newline)
    (hcount : piece.count newline = 1) :
    previousLine (insertAt content q piece) (q + piece.length) = some piece ∧
    (∀ p, q < p →
      previousLine (insertAt content q piece) (p + piece.length) = previousLine content p) ∧
    (∀ p ≤ q, previousLine (insertAt content q piece) p = previousLine content p) ∧
    (∀ p, q ≤ p →
      lineNumber (insertAt content q piece) (p + piece.length) = lineNumber content p + 1 ∧
      lineStart (insertAt content q piece) (p + piece.length)
        = lineStart content p + piece.length) ∧
    ∀ p < q, lineNumber (insertAt content q piece) p = lineNumber content p ∧
      lineStart (insertAt content q piece) p = lineStart content p := by
  obtain ⟨line, hpiece, hline⟩ := exists_line hlast hcount
  -- the bytes in front end a line, and with the piece they still do
  obtain ⟨front, behind, hfront, rfl, rfl⟩ : ∃ front behind,
      EndsLine front ∧ front ++ behind = content ∧ front.length = q :=
    ⟨content.take q, content.drop q, endsLine_take_of_lineStart hq, List.take_append_drop ..,
      List.length_take_of_le (le_length_of_lineStart hq)⟩
  have hends : EndsLine (front ++ piece) := by
    rw [hpiece]
    exact hfront.append (endsLine_append_newline line)
  have hplace : ∀ d, front.length + d + piece.length = (front ++ piece).length + d := by
    intro d
    rw [List.length_append]
    omega
  rw [insertAt_length]
  refine ⟨?_, fun p hp => ?_, fun p hp => ?_, fun p hp => ?_, fun p hp => ?_⟩
  · rw [← List.length_append, hpiece]
    exact previousLine_append hfront hline behind
  · obtain ⟨d, rfl⟩ := Nat.exists_eq_add_of_le (Nat.le_of_lt hp)
    have hd : 0 < d := by omega
    rw [hplace, previousLine_append_add hends behind hd, previousLine_append_add hfront behind hd]
  · rw [List.append_assoc]
    exact previousLine_append_congr hp
  · obtain ⟨d, rfl⟩ := Nat.exists_eq_add_of_le hp
    rw [hplace, lineNumber_append_add, lineNumber_append_add, lineStart_append_add hends,
      lineStart_append_add hfront, List.count_append, List.length_append, hcount]
    omega
  · -- only what stands in front of a place matters
    have hsame : (front ++ piece ++ behind).take p = (front ++ behind).take p := by
      rw [List.append_assoc]
      exact take_append_congr (Nat.le_of_lt hp)
    exact ⟨lineNumber_congr hsame, lineStart_congr hsame⟩

/-- A line is put in below an empty one, where the last line starts, which is not ended. -/
theorem lines_insertAt_unended :
    lineStart (Utf8.ofString "A\n\nB = \x7b\x7d") 3 = 3 ∧
      (Utf8.ofString "---@class B\n").getLast? = some newline ∧
      (Utf8.ofString "---@class B\n").count newline = 1 ∧
      previousLine (insertAt (Utf8.ofString "A\n\nB = \x7b\x7d") 3 (Utf8.ofString "---@class B\n"))
        15 = some (Utf8.ofString "---@class B\n") ∧
      lineNumber (insertAt (Utf8.ofString "A\n\nB = \x7b\x7d") 3 (Utf8.ofString "---@class B\n"))
        21 = 4 := by
  have hstart : lineStart (Utf8.ofString "A\n\nB = \x7b\x7d") 3 = 3 := by decide +kernel
  have hlast : (Utf8.ofString "---@class B\n").getLast? = some newline := by decide +kernel
  have hcount : (Utf8.ofString "---@class B\n").count newline = 1 := by decide +kernel
  obtain ⟨habove, -, -, hbehind, -⟩ := lines_insertAt hstart hlast hcount
  refine ⟨hstart, hlast, hcount, habove, ?_⟩
  exact (hbehind 9 (by decide)).1.trans (by decide +kernel)

end Annotator

end Lineage
