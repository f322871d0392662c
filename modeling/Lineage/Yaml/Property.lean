import Lineage.Text.Digits
import Lineage.Yaml.Cursor

/-!
# Anchors, tags and directives

The properties that can stand in front of a value, and the directives in front of a document.

## Main definitions

- `anchorName?` reads the name of an anchor or an alias
- `tag?` reads a tag as a handle and a suffix
- `directive?` reads a directive
-/

namespace Lineage.Yaml

/-! ## Anchors -/

/-- Reads the name behind an ampersand or a star. -/
def anchorName? (c : Cursor) : Option (List Char × Cursor) :=
  let (name, next) := (c.skip 1).span isNameChar
  let ended := endsWord next.peek || next.peek.any "?:,]\x7d%@\x60".toList.contains
  if !name.isEmpty && ended then some (name, next) else none

/-! ## Tags -/

/-- A tag as written: its suffix belongs to what its handle stands for. -/
structure TagText where
  handle : List Char
  suffix : List Char
  deriving DecidableEq, Repr

/-- Reads a handle: an exclamation mark, and maybe a name and another mark. -/
def handle? (c : Cursor) : Option (List Char × Cursor) :=
  if c.peek = some '!' then
    let (name, next) := (c.skip 1).span isNameChar
    if next.peek = some '!' then some ('!' :: name ++ ['!'], next.skip 1)
    else some ('!' :: name, next)
  else none

/-- The number of further bytes of a scalar that starts with a byte. -/
def tailBytes? (b : Nat) : Option Nat :=
  if b < 0x80 then some 0
  else if b / 0x20 = 6 then some 1
  else if b / 0x10 = 14 then some 2
  else if b / 0x08 = 30 then some 3
  else none

/-- The byte that a percent sign and two digits stand for, with the rest. -/
def percentByte? : List Char → Option (Nat × List Char)
  | '%' :: a :: b :: rest => (digits? 16 [a, b]).map (·, rest)
  | _ => none

/-- Reads further bytes of a scalar, each in the form of a percent sign and two digits. -/
def percentTail? : Nat → List Char → Option (List Char)
  | 0, rest => some rest
  | n + 1, rest => do
    let (b, rest) ← percentByte? rest
    if b / 0x40 = 2 then percentTail? n rest else none

/-- Reads a scalar whose bytes are written with percent signs: the scalar and the number of
    characters taken up. Scalars of several bytes belong to no tag with a meaning and are read as
    the replacement character. -/
def percentScalar? (rest : List Char) : Option (Char × Nat) := do
  let (b, more) ← percentByte? rest
  let n ← tailBytes? b
  let _ ← percentTail? n more
  return (if n = 0 then Char.ofNat b else '\ufffd', 3 * (n + 1))

/-- Whether a character may stand in a tag; commas and brackets may if the tag is enclosed. -/
def isTagChar (enclosed : Bool) (c : Char) : Bool :=
  isNameChar c || ";/?:@&=+$.!~*'()".toList.contains c || enclosed && ",[]".toList.contains c

/-- Reads the characters of a tag behind what was read in reverse. Each takes up at least one
    character of the text, so the characters left bound them. -/
def tagCharsFrom? (enclosed : Bool) : Nat → List Char → Cursor → Option (List Char × Cursor)
  | 0, _, _ => none
  | n + 1, read, c =>
    match c.peek with
    | none => some (read.reverse, c)
    | some first =>
      if first = '%' then do
        let (scalar, length) ← percentScalar? c.rest
        tagCharsFrom? enclosed n (scalar :: read) (c.skip length)
      else if isTagChar enclosed first then tagCharsFrom? enclosed n (first :: read) (c.skip 1)
      else some (read.reverse, c)

/-- Reads the characters of a tag. -/
def tagChars? (enclosed : Bool) (c : Cursor) : Option (List Char × Cursor) :=
  tagCharsFrom? enclosed (c.rest.length + 1) [] c

/-- Reads the characters of a tag, at least one. -/
def someTagChars? (enclosed : Bool) (c : Cursor) : Option (List Char × Cursor) := do
  let (cs, next) ← tagChars? enclosed c
  if cs.isEmpty then none else some (cs, next)

/-- Reads a tag without checking what follows it. -/
def tagText? (c : Cursor) : Option (TagText × Cursor) := do
  if c.peekAt 1 = some '<' then
    let (suffix, next) ← someTagChars? true (c.skip 2)
    if next.peek = some '>' then return (⟨[], suffix⟩, next.skip 1) else none
  else
    let (handle, next) ← handle? c
    if 1 < handle.length ∧ handle.getLast? = some '!' then
      let (suffix, next) ← someTagChars? false next
      return (⟨handle, suffix⟩, next)
    else
      let (more, next) ← tagChars? false next
      let suffix := handle.drop 1 ++ more
      return (if suffix.isEmpty then ⟨[], ['!']⟩ else ⟨['!'], suffix⟩, next)

/-- Reads a tag. A word must end behind it; between brackets a comma may follow. -/
def tag? (inFlow : Bool) (c : Cursor) : Option (TagText × Cursor) := do
  let (tag, next) ← tagText? c
  if endsWord next.peek ∨ inFlow ∧ next.peek = some ',' then return (tag, next) else none

/-! ## Directives -/

/-- A directive in front of a document. -/
inductive Directive where
  | version (major minor : Nat)
  /-- A handle stands for the start of a tag. -/
  | handle (name start : List Char)
  deriving DecidableEq, Repr

/-- Reads a number of at most nine digits. -/
def versionNumber? (c : Cursor) : Option (Nat × Cursor) :=
  let (digits, next) := c.span Char.isDigit
  if digits.isEmpty ∨ 9 < digits.length then none
  else (String.ofList digits).toNat?.map (·, next)

/-- Reads the rest of a version directive. -/
def versionDirective? (c : Cursor) : Option (Directive × Cursor) := do
  let (major, next) ← versionNumber? (c.span isGap).2
  if next.peek = some '.' then
    let (minor, next) ← versionNumber? (next.skip 1)
    return (.version major minor, next)
  else none

/-- Reads the rest of a directive for a handle. -/
def handleDirective? (c : Cursor) : Option (Directive × Cursor) := do
  let (name, next) ← handle? (c.span isGap).2
  if name.getLast? = some '!' ∧ next.peek.any isGap then
    let (start, next) ← someTagChars? true (next.span isGap).2
    if endsWord next.peek then return (.handle name start, next) else none
  else none

/-- Reads a directive with the rest of its line; the cursor stands at the percent sign. -/
def directive? (c : Cursor) : Option (Directive × Cursor) := do
  let (name, next) := (c.skip 1).span isNameChar
  if !endsWord next.peek then none
  let (directive, next) ←
    if name = "YAML".toList then versionDirective? next
    else if name = "TAG".toList then handleDirective? next
    else none
  return (directive, ← next.restOfLine?)

end Lineage.Yaml
