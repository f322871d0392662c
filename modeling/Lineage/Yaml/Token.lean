import Lineage.Yaml.BlockScalar
import Lineage.Yaml.FlowScalar
import Lineage.Yaml.Property

/-!
# Tokens

A YAML text is a sequence of tokens: indicators, scalars and their properties, and the starts and
ends of collections that indentation alone shows. A scalar turns out to be a key only when its
colon comes, so the marks of a key are put in front of it then. A key must stand on one line and
take up at most 1024 characters.

## Main definitions

- `Token`
- `Scanner` is the state between two tokens, `Scanner.tokenAt?` reads the next one
- `Token.scan?` gives all tokens of a text
-/

namespace Lineage.Yaml

/-- How a scalar is written. -/
inductive Style where
  | plain
  | quoted
  | literal
  | folded
  deriving DecidableEq, Repr

/-- The kinds of collections. -/
inductive Shape where
  | sequence
  | mapping
  deriving DecidableEq, Repr

/-- A token of a text. -/
inductive Token where
  | directive (d : Directive)
  | documentStart
  | documentEnd
  | textEnd
  /-- A collection starts by indentation. -/
  | blockStart (shape : Shape)
  | blockEnd
  /-- A bracket opens a collection. -/
  | flowStart (shape : Shape)
  | flowEnd (shape : Shape)
  /-- A dash in front of an item. -/
  | entry
  /-- A comma between items. -/
  | comma
  | key
  | value
  | alias (name : List Char)
  | anchor (name : List Char)
  | tag (t : TagText)
  | scalar (style : Style) (text : List Char)
  deriving DecidableEq, Repr

/-- A place where a key may have started. -/
structure PossibleKey where
  /-- Whether nothing but a key may stand here. -/
  required : Bool
  /-- The number of tokens in front. -/
  tokens : Nat
  index : Nat
  line : Nat
  column : Nat

/-- Whether a key that started here could still end at a cursor. -/
def PossibleKey.isFresh (k : PossibleKey) (c : Cursor) : Bool :=
  k.line = c.line && c.index ≤ k.index + 1024

/-- The state between two tokens. -/
structure Scanner where
  cursor : Cursor
  /-- The tokens so far, the last one first. -/
  read : List Token
  /-- The number of tokens so far. -/
  count : Nat
  /-- The column of the innermost block collection. -/
  indent : Option Nat
  /-- The columns of the collections around it. -/
  outer : List (Option Nat)
  /-- The possible key at the innermost level of brackets. -/
  possible : Option PossibleKey
  /-- The possible keys at the levels around it; there is one for each open bracket. -/
  enclosing : List (Option PossibleKey)
  /-- Whether a key may start here. -/
  keyAllowed : Bool

namespace Scanner

/-- The start of a text. -/
def start (text : List Char) : Scanner :=
  { cursor := .start text, read := [], count := 0, indent := none, outer := []
    possible := none, enclosing := [], keyAllowed := true }

/-- Whether brackets are open. -/
def inFlow (s : Scanner) : Bool := !s.enclosing.isEmpty

/-- Adds a token. -/
def push (s : Scanner) (t : Token) : Scanner :=
  { s with read := t :: s.read, count := s.count + 1 }

/-- Puts a token behind the first ones. -/
def pushAt (s : Scanner) (position : Nat) (t : Token) : Scanner :=
  let later := s.count - position
  { s with read := s.read.take later ++ t :: s.read.drop later, count := s.count + 1 }

/-- Moves behind some characters and adds a token. -/
def take (s : Scanner) (n : Nat) (t : Token) : Scanner :=
  { s.push t with cursor := s.cursor.skip n }

/-! ## Indentation -/

/-- Starts a block collection at a column that lies deeper than the innermost one; the token stands
    behind so many others. -/
def openBlock (s : Scanner) (column : Nat) (position : Nat) (shape : Shape) : Scanner :=
  if s.inFlow || s.indent.any (column ≤ ·) then s
  else
    { s.pushAt position (.blockStart shape) with
      indent := some column, outer := s.indent :: s.outer }

/-- Ends the block collections of a list of columns that lie deeper than a column. -/
def closeBlocksFrom (column : Option Nat) : List (Option Nat) → Scanner → Scanner
  | [], s => s
  | next :: outer, s =>
    match s.indent with
    | some n =>
      if column.all (· < n) then
        closeBlocksFrom column outer { s.push .blockEnd with indent := next, outer := outer }
      else s
    | none => s

/-- Ends the block collections that lie deeper than a column, or all of them. -/
def closeBlocks (s : Scanner) (column : Option Nat) : Scanner :=
  if s.inFlow then s else closeBlocksFrom column s.outer s

/-! ## Keys -/

/-- Gives a possible key up, unless it had to be one. -/
def dropKey? (s : Scanner) : Option Scanner :=
  if s.possible.any (·.required) then none else some { s with possible := none }

/-- Gives a possible key up if it has become too long. -/
def refresh? (c : Cursor) : Option PossibleKey → Option (Option PossibleKey)
  | none => some none
  | some k => if k.isFresh c then some (some k) else if k.required then none else some none

/-- Gives up the possible keys that have become too long. -/
def dropStale? (s : Scanner) : Option Scanner := do
  let possible ← refresh? s.cursor s.possible
  let enclosing ← s.enclosing.mapM (refresh? s.cursor)
  return { s with possible, enclosing }

/-- Notes that a key may start here. -/
def noteKey? (s : Scanner) : Option Scanner :=
  if s.keyAllowed then do
    let s ← s.dropKey?
    let c := s.cursor
    return { s with
      possible := some
        { required := !s.inFlow && s.indent == some c.column
          tokens := s.count, index := c.index, line := c.line, column := c.column } }
  else some s

/-! ## Blanks -/

/-- Skips blanks, comments and breaks in front of the next token. Every break makes the text left
    shorter, so the characters left bound the lines. A break outside brackets lets a key start. -/
def skipBlanks : Nat → Scanner → Scanner
  | 0, s => s
  | lines + 1, s =>
    let c := s.cursor
    -- a byte order mark at the start takes up a column
    let c := if c.index = 0 ∧ c.peek = some '\ufeff' then c.skip 1 else c
    let c := (c.span fun x => x = ' ' || (s.inFlow || !s.keyAllowed) && x = '\t').2
    let c := if c.peek = some '#' then (c.span (!isBreak ·)).2 else c
    match c.break? with
    | some (_, next) =>
      skipBlanks lines { s with cursor := next, keyAllowed := !s.inFlow || s.keyAllowed }
    | none => { s with cursor := c }

/-! ## Tokens -/

/-- Reads the token of a document marker or a directive, which ends all block collections. -/
def topLevel? (s : Scanner) (t : Token) (next : Cursor) : Option Scanner := do
  let s ← (s.closeBlocks none).dropKey?
  return { s.push t with cursor := next, keyAllowed := false }

/-- Reads an opening bracket. -/
def openBracket? (s : Scanner) (shape : Shape) : Option Scanner := do
  let s ← s.noteKey?
  return { s.take 1 (.flowStart shape) with
    possible := none, enclosing := s.possible :: s.enclosing, keyAllowed := true }

/-- Reads a closing bracket. -/
def closeBracket? (s : Scanner) (shape : Shape) : Option Scanner := do
  let s ← s.dropKey?
  let s := { s.take 1 (.flowEnd shape) with keyAllowed := false }
  match s.enclosing with
  | possible :: enclosing => return { s with possible, enclosing }
  | [] => return s

/-- Reads a comma. -/
def comma? (s : Scanner) : Option Scanner := do
  return { (← s.dropKey?).take 1 .comma with keyAllowed := true }

/-- Reads a dash in front of an item. -/
def entry? (s : Scanner) : Option Scanner := do
  if !s.inFlow ∧ !s.keyAllowed then none
  let s ← (s.openBlock s.cursor.column s.count .sequence).dropKey?
  return { s.take 1 .entry with keyAllowed := true }

/-- Reads a question mark in front of a key. -/
def key? (s : Scanner) : Option Scanner := do
  if !s.inFlow ∧ !s.keyAllowed then none
  let s ← (s.openBlock s.cursor.column s.count .mapping).dropKey?
  return { s.take 1 .key with keyAllowed := !s.inFlow }

/-- Reads a colon. If a key was possible, it is one. -/
def value? (s : Scanner) : Option Scanner :=
  match s.possible with
  | some k =>
    -- the marks go in front of the tokens that turned out to be the key
    let s := (s.pushAt k.tokens .key).openBlock k.column k.tokens .mapping
    some { s.take 1 .value with possible := none, keyAllowed := false }
  | none =>
    if !s.inFlow ∧ !s.keyAllowed then none
    else
      let s := s.openBlock s.cursor.column s.count .mapping
      some { s.take 1 .value with keyAllowed := !s.inFlow }

/-- Adds a token that a key may start with. -/
def keyPart? (s : Scanner) (t : Token) (next : Cursor) : Option Scanner := do
  let s ← s.noteKey?
  return { s.push t with cursor := next, keyAllowed := false }

/-- Reads a block scalar. -/
def block? (s : Scanner) (style : Style) : Option Scanner := do
  let s ← s.dropKey?
  let (text, next) ← Yaml.block? (style == .folded) s.indent (s.cursor.skip 1)
  return { s.push (.scalar style text) with cursor := next, keyAllowed := true }

/-- Reads a plain scalar. -/
def plain? (s : Scanner) : Option Scanner := do
  let s ← s.noteKey?
  let p ← Yaml.plain? s.inFlow (s.indent.elim 0 (· + 1)) s.cursor
  return { s.push (.scalar .plain p.text) with cursor := p.next, keyAllowed := p.crossed }

/-- Reads the token that starts with a character. -/
def tokenAt? (s : Scanner) (first : Char) : Option Scanner :=
  let c := s.cursor
  let wordEnds := endsWord (c.peekAt 1)
  if c.column = 0 ∧ first = '%' then do
    let (d, next) ← directive? c
    s.topLevel? (.directive d) next
  else if c.atMarker '-' then s.topLevel? .documentStart (c.skip 3)
  else if c.atMarker '.' then s.topLevel? .documentEnd (c.skip 3)
  else if first = '[' then s.openBracket? .sequence
  else if first = '\x7b' then s.openBracket? .mapping
  else if first = ']' then s.closeBracket? .sequence
  else if first = '\x7d' then s.closeBracket? .mapping
  else if first = ',' then s.comma?
  else if first = '-' ∧ wordEnds then s.entry?
  else if first = '?' ∧ (s.inFlow ∨ wordEnds) then s.key?
  else if first = ':' ∧ (s.inFlow ∨ wordEnds) then s.value?
  else if first = '*' then do
    let (name, next) ← anchorName? c
    s.keyPart? (.alias name) next
  else if first = '&' then do
    let (name, next) ← anchorName? c
    s.keyPart? (.anchor name) next
  else if first = '!' then do
    let (t, next) ← tag? s.inFlow c
    s.keyPart? (.tag t) next
  else if first = '|' ∧ !s.inFlow then s.block? .literal
  else if first = '>' ∧ !s.inFlow then s.block? .folded
  else if first = '\'' ∨ first = '"' then do
    let (text, next) ← quoted? c
    s.keyPart? (.scalar .quoted text) next
  else if startsPlain s.inFlow c then s.plain?
  else none

/-- Reads the next token with the starts and ends of collections in front of it, up to the end of
    the text, or fails. Every token but the last takes up a character, so the characters left bound
    the tokens. -/
def tokens? : Nat → Scanner → Option (List Token)
  | 0, _ => none
  | bound + 1, s => do
    let s ← (s.skipBlanks (s.cursor.rest.length + 1)).dropStale?
    match s.cursor.peek with
    | none =>
      let s ← (s.closeBlocks none).dropKey?
      return (s.push .textEnd).read.reverse
    | some first =>
      let s ← (s.closeBlocks (some s.cursor.column)).tokenAt? first
      tokens? bound s

end Scanner

/-- The tokens of a text. -/
def Token.scan? (text : String) : Option (List Token) :=
  let cs := text.toList
  if cs.all isAllowed then (Scanner.start cs).tokens? (cs.length + 1) else none

end Lineage.Yaml
