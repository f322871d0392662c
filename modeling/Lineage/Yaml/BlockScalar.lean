import Lineage.Yaml.Cursor

/-!
# Block scalars

Texts that are written as an indented block of lines behind a bar or an angle bracket: with their
line breaks as they are, or folded. The header says how the block is indented and what becomes of
the breaks at its end.

## Main definitions

- `blockHeader?` reads the header
- `block?` reads header and lines
-/

namespace Lineage.Yaml

/-- What becomes of the breaks at the end of a block. -/
inductive Chomping where
  /-- No break is kept. -/
  | strip
  /-- One break is kept. -/
  | clip
  /-- All breaks are kept. -/
  | keep
  deriving DecidableEq, Repr

/-- The header of a block. -/
structure BlockHeader where
  chomping : Chomping
  /-- By how much the block is indented; found out from its first line if not given. -/
  increment : Option Nat

/-! ## Header -/

/-- The chomping that a character asks for. -/
def chomping? : Char → Option Chomping
  | '+' => some .keep
  | '-' => some .strip
  | _ => none

/-- The increment that a digit gives; zero is none. -/
def increment? (c : Char) : Option Nat :=
  if '1' ≤ c ∧ c ≤ '9' then some (c.toNat - '0'.toNat) else none

/-- Reads the indicators of a header, in either order, each at most once. -/
def blockIndicators? (c : Cursor) : Option (BlockHeader × Cursor) :=
  match c.peek with
  | none => some (⟨.clip, none⟩, c)
  | some first =>
    match chomping? first with
    | some chomping =>
      match c.peekAt 1 with
      | some '0' => none
      | second =>
        match second.bind increment? with
        | some n => some (⟨chomping, some n⟩, c.skip 2)
        | none => some (⟨chomping, none⟩, c.skip 1)
    | none =>
      if first = '0' then none
      else
        match increment? first with
        | some n =>
          match (c.peekAt 1).bind chomping? with
          | some chomping => some (⟨chomping, some n⟩, c.skip 2)
          | none => some (⟨.clip, some n⟩, c.skip 1)
        | none => some (⟨.clip, none⟩, c)

/-- Reads a header with the rest of its line. -/
def blockHeader? (c : Cursor) : Option (BlockHeader × Cursor) := do
  let (header, next) ← blockIndicators? c
  return (header, ← next.restOfLine?)

/-! ## Lines -/

/-- Empty lines of a block, and the cursor at the first character that is not indentation. -/
structure EmptyLines where
  breaks : List Char
  /-- The greatest column that was come to. -/
  widest : Nat
  next : Cursor

/-- Skips empty lines of a block with a known indentation, or any spaces if it is not known yet. A
    tab must not stand for indentation. -/
def emptyLines? (indent : Option Nat) (widest : Nat) (c : Cursor) : Option EmptyLines :=
  let spaces := (c.rest.takeWhile (· = ' ')).length
  let next := c.skip (indent.elim spaces fun n => min spaces (n - c.column))
  let widest := max widest next.column
  if next.peek = some '\t' ∧ indent.all (next.column < ·) then none
  else
    match _h : next.break? with
    | none => some ⟨[], widest, next⟩
    | some (b, after) => do
      let more ← emptyLines? indent widest after
      return { more with breaks := b :: more.breaks }
  termination_by c.rest.length
  decreasing_by exact Nat.lt_of_lt_of_le (Cursor.length_lt_of_break? _h) (c.length_skip_le _)

/-- The break at the end of the last line that was read, and what was read of a block. -/
structure BlockState where
  /-- The text in reverse. -/
  read : List Char
  lastBreak : List Char
  /-- The breaks on empty lines behind it. -/
  emptyBreaks : List Char
  /-- Whether the last line started with a separator. -/
  indented : Bool
  next : Cursor

/-- Reads the line at the cursor and the empty lines behind it. Folding turns a single break
    between two lines that are not indented further into a space. -/
def blockLine? (fold : Bool) (indent : Nat) (s : BlockState) : Option BlockState := do
  let startsIndented := s.next.peek.any isGap
  let joined :=
    if fold && s.lastBreak == ['\n'] && !s.indented && !startsIndented then
      if s.emptyBreaks.isEmpty then [' '] else s.emptyBreaks
    else s.lastBreak ++ s.emptyBreaks
  let (line, next) := s.next.span (!isBreak ·)
  let (lastBreak, next) :=
    match next.break? with
    | some (b, after) => ([b], after)
    | none => ([], next)
  let empty ← emptyLines? (some indent) 0 next
  return ⟨line.reverse ++ joined.reverse ++ s.read, lastBreak, empty.breaks, startsIndented,
    empty.next⟩

/-- Reads lines while they stand at the indentation of the block. Every line takes up at least one
    character, so the characters left bound the lines. -/
def blockLines? (fold : Bool) (indent : Nat) : Nat → BlockState → Option BlockState
  | 0, s => some s
  | lines + 1, s =>
    if s.next.column = indent ∧ s.next.peek.isSome then
      (blockLine? fold indent s).bind (blockLines? fold indent lines)
    else some s

/-- The text of a block that was read. -/
def BlockState.text (s : BlockState) (chomping : Chomping) : List Char :=
  s.read.reverse ++
    match chomping with
    | .strip => []
    | .clip => s.lastBreak
    | .keep => s.lastBreak ++ s.emptyBreaks

/-- Reads a block below the column of the collection it stands in, if there is one; the cursor
    stands behind the bar or bracket. -/
def block? (fold : Bool) (outer : Option Nat) (c : Cursor) : Option (List Char × Cursor) := do
  let (header, c) ← blockHeader? c
  let given := header.increment.map (outer.getD 0 + ·)
  let empty ← emptyLines? given 0 c
  let indent := given.getD (max empty.widest (max (outer.elim 0 (· + 1)) 1))
  let s ← blockLines? fold indent (c.rest.length + 1) ⟨[], [], empty.breaks, false, empty.next⟩
  return (s.text header.chomping, s.next)

end Lineage.Yaml
