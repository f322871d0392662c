import Lineage.Text.Utf8

/-!
# Lines of a byte string

A line runs up to and including its newline byte. Positions are byte offsets; one past the end of
the content counts as its end.
-/

namespace Lineage

/-- The newline byte. -/
def newline : UInt8 := 10

/-- The offset at which the line holding position `pos` starts. -/
def lineStart (content : Bytes) (pos : Nat) : Nat :=
  let before := content.take pos
  before.length - (before.reverse.takeWhile (· != newline)).length

/-- The line that ends at offset `start`, newline included: what stands directly above a line
    starting there. The first line has none above it. -/
def previousLine (content : Bytes) (start : Nat) : Option Bytes :=
  if start = 0 ∨ content.length < start then none
  else some ((content.take start).drop (lineStart content (start - 1)))

/-- The number of the line holding position `pos`, counted from one. -/
def lineNumber (content : Bytes) (pos : Nat) : Nat :=
  (content.take pos).count newline + 1

end Lineage
