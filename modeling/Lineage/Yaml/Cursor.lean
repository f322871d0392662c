/-!
# Reading positions

A place in a YAML text: what is left to read, and where that starts. Lines end with any of the
usual breaks; a carriage return and a newline make one break.

## Main definitions

- `Cursor` with `Cursor.skip`, `Cursor.span` and `Cursor.break?`
- `Cursor.blankLines` skips to the next line that holds something
-/

namespace Lineage.Yaml

/-! ## Characters -/

/-- Whether a character may stand in a YAML text. -/
def isAllowed (c : Char) : Bool :=
  let n := c.toNat
  n == 0x09 || n == 0x0A || n == 0x0D || (0x20 ≤ n && n ≤ 0x7E) || n == 0x85
    || (0xA0 ≤ n && n ≤ 0xD7FF) || (0xE000 ≤ n && n ≤ 0xFFFD) || 0x10000 ≤ n

/-- Whether a character separates words. -/
def isGap (c : Char) : Bool := c = ' ' || c = '\t'

/-- Whether a character ends a line. -/
def isBreak (c : Char) : Bool :=
  c = '\r' || c = '\n' || c = '\u0085' || c = '\u2028' || c = '\u2029'

/-- Whether a word ends in front of what comes next: a separator, a break or the end. -/
def endsWord : Option Char → Bool
  | none => true
  | some c => isGap c || isBreak c

/-- Whether a character may stand in a name. -/
def isNameChar (c : Char) : Bool := c.isAlphanum || c = '_' || c = '-'

/-! ## Cursors -/

/-- A place in a text. -/
structure Cursor where
  /-- What is left to read. -/
  rest : List Char
  /-- The number of characters in front. -/
  index : Nat
  line : Nat
  /-- The number of characters in front on the same line. -/
  column : Nat
  deriving DecidableEq, Repr

namespace Cursor

/-- The start of a text. -/
def start (text : List Char) : Cursor := ⟨text, 0, 0, 0⟩

/-- The next character. -/
def peek (c : Cursor) : Option Char := c.rest.head?

/-- The character some places ahead. -/
def peekAt (c : Cursor) (n : Nat) : Option Char := c.rest[n]?

/-- Behind some characters, none of which is a break. -/
def skip (c : Cursor) (n : Nat) : Cursor :=
  ⟨c.rest.drop n, c.index + n, c.line, c.column + n⟩

/-- The run of characters of a class that comes next; no break is in the class. -/
def span (c : Cursor) (p : Char → Bool) : List Char × Cursor :=
  let run := c.rest.takeWhile p
  (run, c.skip run.length)

/-- At the start of the next line, behind a break of some characters. -/
def nextLine (c : Cursor) (n : Nat) : Cursor := ⟨c.rest.drop n, c.index + n, c.line + 1, 0⟩

/-- Reads a break. It counts as a newline, but for the two separators of lines and paragraphs. -/
def break? (c : Cursor) : Option (Char × Cursor) :=
  match c.rest with
  | '\r' :: '\n' :: _ => some ('\n', c.nextLine 2)
  | b :: _ =>
    if b = '\u2028' ∨ b = '\u2029' then some (b, c.nextLine 1)
    else if isBreak b then some ('\n', c.nextLine 1)
    else none
  | [] => none

/-- Behind the rest of a line, which holds nothing but separators and a comment. -/
def restOfLine? (c : Cursor) : Option Cursor :=
  let next := (c.span isGap).2
  let next := if next.peek = some '#' then (next.span (!isBreak ·)).2 else next
  match next.break? with
  | some (_, next) => some next
  | none => if next.rest.isEmpty then some next else none

theorem length_skip_le (c : Cursor) (n : Nat) : (c.skip n).rest.length ≤ c.rest.length := by
  simp [skip]

theorem length_lt_nextLine {c : Cursor} {n : Nat} (hn : 0 < n) (hc : 0 < c.rest.length) :
    (c.nextLine n).rest.length < c.rest.length := by
  have h : (c.nextLine n).rest.length = c.rest.length - n := List.length_drop
  omega

theorem length_lt_of_break? {c c' : Cursor} {b : Char} (h : c.break? = some (b, c')) :
    c'.rest.length < c.rest.length := by
  unfold break? at h
  split at h
  · rename_i hr
    cases h
    exact length_lt_nextLine (by decide) (hr ▸ Nat.succ_pos _)
  · rename_i hr
    have hc : 0 < c.rest.length := hr ▸ Nat.succ_pos _
    split at h
    · cases h
      exact length_lt_nextLine (by decide) hc
    · split at h
      · cases h
        exact length_lt_nextLine (by decide) hc
      · cases h
  · cases h

/-- Whether a document marker of three equal characters stands here, at the start of a line. -/
def atMarker (c : Cursor) (mark : Char) : Bool :=
  c.column = 0 && (List.replicate 3 mark).isPrefixOf c.rest && endsWord (c.peekAt 3)

/-- Whether either document marker stands here. -/
def atDocumentMarker (c : Cursor) : Bool := c.atMarker '-' || c.atMarker '.'

/-- Whether separators are fine as indentation: below a column, no tab is. -/
def indentsWell (c : Cursor) (indent : Nat) : Bool :=
  !((c.rest.takeWhile isGap).take (indent - c.column)).contains '\t'

/-- Skips separators and breaks, and gives the breaks. The lines must indent well. -/
def blankLines (indent : Nat) (c : Cursor) : Option (List Char × Cursor) :=
  if c.indentsWell indent then
    match _h : (c.span isGap).2.break? with
    | none => some ([], (c.span isGap).2)
    | some (b, next) => (blankLines indent next).map fun (breaks, c) => (b :: breaks, c)
  else none
  termination_by c.rest.length
  decreasing_by exact Nat.lt_of_lt_of_le (length_lt_of_break? _h) (length_skip_le ..)

/-- What a first break and the breaks on empty lines behind it stand for inside a text: a single
    newline is a space, of several the first one is dropped. -/
def folded (first : Char) (others : List Char) : List Char :=
  if first = '\n' then (if others.isEmpty then [' '] else others) else first :: others

end Cursor

end Lineage.Yaml
