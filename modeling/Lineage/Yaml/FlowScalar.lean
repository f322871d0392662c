import Lineage.Text.Digits
import Lineage.Yaml.Cursor

/-!
# Flow scalars

Texts that are written in a running line: plain ones and those in single or double quotes. A line
break inside one is folded with the blanks around it.

## Main definitions

- `quoted?` reads a text in quotes
- `plain?` reads a plain text
-/

namespace Lineage.Yaml

/-! ## Quoted texts -/

/-- The character that an escape of one letter stands for. -/
def shortEscape? : Char → Option Char
  | '0' => some '\x00'
  | 'a' => some '\x07'
  | 'b' => some '\x08'
  | 't' | '\t' => some '\t'
  | 'n' => some '\n'
  | 'v' => some '\x0b'
  | 'f' => some '\x0c'
  | 'r' => some '\r'
  | 'e' => some '\x1b'
  | ' ' => some ' '
  | '"' => some '"'
  | '/' => some '/'
  | '\\' => some '\\'
  | 'N' => some '\u0085'
  | '_' => some '\u00a0'
  | 'L' => some '\u2028'
  | 'P' => some '\u2029'
  | _ => none

/-- The number of digits of an escape by number. -/
def escapeDigits? : Char → Option Nat
  | 'x' => some 2
  | 'u' => some 4
  | 'U' => some 8
  | _ => none

/-- Reads what follows a backslash, unless that is a break: the character and the number of
    characters taken up. -/
def escape? (rest : List Char) : Option (Char × Nat) :=
  match rest with
  | [] => none
  | letter :: more =>
    match escapeDigits? letter with
    | some n =>
      if more.length < n then none
      else
        (digits? 16 (more.take n)).bind fun code =>
          if code.isValidChar then some (Char.ofNat code, n + 1) else none
    | none => (shortEscape? letter).map (·, 1)

/-- What comes next in a quoted text: some characters, or its end. -/
inductive Piece where
  | text (cs : List Char) (next : Cursor)
  | stop (next : Cursor)

/-- Reads the next piece of a text in quotes. -/
def quotedPiece? (quote : Char) (c : Cursor) : Option Piece :=
  match c.rest with
  | [] => none
  | first :: rest =>
    if isGap first ∨ isBreak first then
      let (gap, afterGap) := c.span isGap
      match afterGap.break? with
      | none => some (.text gap afterGap)
      | some (b, next) => do
        let (others, next) ← next.blankLines 0
        if next.atDocumentMarker then none
        return .text (Cursor.folded b others) next
    else if first = quote then
      if quote = '\'' ∧ rest.head? = some '\'' then some (.text ['\''] (c.skip 2))
      else some (.stop (c.skip 1))
    else if quote = '"' ∧ first = '\\' then
      match (c.skip 1).break? with
      | some (_, next) => do
        let (others, next) ← next.blankLines 0
        if next.atDocumentMarker then none
        return .text others next
      | none => (escape? rest).map fun (e, n) => .text [e] (c.skip (n + 1))
    else some (.text [first] (c.skip 1))

/-- Reads the rest of a text in quotes behind what was read in reverse. Every piece takes up at
    least one character, so the characters left bound the pieces. -/
def quotedFrom? (quote : Char) : Nat → List Char → Cursor → Option (List Char × Cursor)
  | 0, _, _ => none
  | pieces + 1, read, c =>
    match quotedPiece? quote c with
    | none => none
    | some (.stop next) => some (read.reverse, next)
    | some (.text cs next) => quotedFrom? quote pieces (cs.reverse ++ read) next

/-- Reads a text in quotes; the cursor stands at the opening one. -/
def quoted? (c : Cursor) : Option (List Char × Cursor) :=
  match c.rest with
  | [] => none
  | quote :: rest => quotedFrom? quote (rest.length + 1) [] (c.skip 1)

/-! ## Plain texts -/

/-- Whether a plain text can start here. -/
def startsPlain (inFlow : Bool) (c : Cursor) : Bool :=
  match c.peek with
  | none => false
  | some first =>
    !endsWord (some first) && !"-?:,[]\x7b\x7d#&*!|>'\"%@`".toList.contains first
      || first = '-' && !(c.peekAt 1).any isGap
      || !inFlow && (first = '?' || first = ':') && !endsWord (c.peekAt 1)

/-- Reads one word of a plain text behind what was read in reverse. It ends at a colon that ends a
    word, and between brackets also at a comma or bracket; there a colon must not touch one. -/
def plainWord? (inFlow : Bool) (read : List Char) : List Char → Option (List Char)
  | [] => some read.reverse
  | c :: rest =>
    let brackets := ",[]\x7b\x7d".toList
    if endsWord (some c) then some read.reverse
    else if inFlow && c = ':' && rest.head?.any ('?' :: brackets).contains then none
    else if c = ':' && endsWord rest.head? || inFlow && brackets.contains c then
      some read.reverse
    else plainWord? inFlow (c :: read) rest

/-- A plain text that was read. -/
structure Plain where
  text : List Char
  next : Cursor
  /-- Whether the cursor has come to another line. -/
  crossed : Bool

/-- Reads the rest of a plain text, of which some was read in reverse, with the blanks in front of
    the next word. Every word takes up at least one character, so the characters left bound the
    words. -/
def plainFrom? (inFlow : Bool) (indent : Nat) :
    Nat → List Char → List Char → Bool → Cursor → Option Plain
  | 0, _, _, _, _ => none
  | words + 1, read, gap, crossed, c =>
    if c.atDocumentMarker ∨ c.peek = some '#' then some ⟨read.reverse, c, crossed⟩
    else do
      -- the gap in front of a word belongs to the text only if a word follows
      let word ← plainWord? inFlow [] c.rest
      if word.isEmpty then return ⟨read.reverse, c, crossed⟩
      let read := word.reverse ++ gap.reverse ++ read
      let (gap, next) := (c.skip word.length).span isGap
      match next.break? with
      | some (b, next) =>
        let (others, next) ← next.blankLines indent
        -- outside brackets a line that is indented less belongs to something else
        if !inFlow ∧ next.column < indent then return ⟨read.reverse, next, true⟩
        plainFrom? inFlow indent words read (Cursor.folded b others) true next
      | none =>
        if gap.isEmpty then return ⟨read.reverse, next, false⟩
        plainFrom? inFlow indent words read gap false next

/-- Reads a plain text, of which further lines must be indented. -/
def plain? (inFlow : Bool) (indent : Nat) (c : Cursor) : Option Plain :=
  plainFrom? inFlow indent (c.rest.length + 1) [] [] false c

end Lineage.Yaml
