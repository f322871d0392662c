import Lineage.Yaml.Cursor
import Lineage.Yaml.Scalar

/-!
# Writing YAML

Mappings are written with a member a line and the members of inner mappings indented by two
columns, lists with a dash in front of every item. A text is written plain where it reads back as
itself, else in single quotes; one with newlines as a block of lines; and in double quotes where it
holds what the others cannot.

## Main definitions

- `Value` is what is written, `Value.render` its text
- `TextForm.of` chooses the form of a text
-/

namespace Lineage.Yaml

/-! ## Values -/

/-- A single value. -/
inductive Scalar where
  | null
  | bool (b : Bool)
  | nat (n : Nat)
  | text (s : String)
  deriving DecidableEq, Repr

/-- A value to be written. -/
inductive Value where
  | scalar (s : Scalar)
  | list (items : List Scalar)
  | map (members : List (String × Value))

/-! ## The form of a text -/

/-- Whether a character is shown as it is. -/
def isPrintable (c : Char) : Bool :=
  let n := c.toNat
  n == 0x0A || (0x20 ≤ n && n ≤ 0x7E) || (0xA0 ≤ n && n ≤ 0xD7FF)
    || (0xE000 ≤ n && n ≤ 0xFFFD && n ≠ 0xFEFF) || 0x10000 ≤ n

/-- How a text is written. -/
inductive TextForm where
  | plain
  | single
  | double
  | block
  deriving DecidableEq, Repr

namespace TextForm

/-- Whether a plain text with this start would be taken for something else. -/
def startMisleads (cs : List Char) : Bool :=
  "---".toList.isPrefixOf cs || "...".toList.isPrefixOf cs ||
    match cs with
    | [] => false
    | first :: rest =>
      "#,[]\x7b\x7d&*!|>'\"%@\x60".toList.contains first
        || "?:-".toList.contains first && endsWord rest.head?

/-- Whether a plain text would end inside: at a colon in front of a gap, or at a number sign behind
    one. -/
def endsInside (before : Char) : List Char → Bool
  | [] => false
  | c :: rest =>
    c = ':' && endsWord rest.head? || c = '#' && endsWord (some before) || endsInside c rest

/-- Whether two characters that follow each other satisfy two conditions. -/
def hasPair (p q : Char → Bool) : List Char → Bool
  | a :: b :: rest => p a && q b || hasPair p q (b :: rest)
  | _ => false

/-- Whether a text must be in double quotes unless it is plain: a space in front of a break, or a
    character that is not shown. -/
def needsEscapes (cs : List Char) : Bool :=
  !cs.all isPrintable || hasPair (· = ' ') isBreak cs

/-- Whether a text can be written plain. -/
def allowsPlain (cs : List Char) : Bool :=
  match cs with
  | [] => true
  | first :: rest =>
    first ≠ ' ' && cs.getLast? ≠ some ' ' && !cs.any isBreak && !needsEscapes cs
      && !startMisleads cs && !endsInside first rest

/-- Whether a text can be written in single quotes. -/
def allowsSingle (cs : List Char) : Bool := !needsEscapes cs && !hasPair isBreak (· = ' ') cs

/-- Whether a text can be written as a block. -/
def allowsBlock (cs : List Char) : Bool :=
  !cs.isEmpty && cs.getLast? ≠ some ' ' && !needsEscapes cs

/-- The form of a text. -/
def of (s : String) : TextForm :=
  let cs := s.toList
  if cs.contains '\n' then (if allowsBlock cs then .block else .double)
  else if readsAsText s && allowsPlain cs then .plain
  else if allowsSingle cs then .single
  else .double

end TextForm

/-! ## Writing a text -/

/-- Spaces. -/
def spaces (n : Nat) : List Char := List.replicate n ' '

/-- The lines of a text, where every line but the first that holds something is indented. -/
def indentLines (indent : Nat) (escape : Char → List Char) (atStart : Bool) :
    List Char → List Char
  | [] => if atStart then spaces indent else []
  | c :: rest =>
    if isBreak c then c :: indentLines indent escape true rest
    else (if atStart then spaces indent else []) ++ escape c ++ indentLines indent escape false rest

/-- A text in single quotes. -/
def singleQuoted (indent : Nat) (cs : List Char) : List Char :=
  '\'' :: indentLines indent (fun c => if c = '\'' then ['\'', '\''] else [c]) false cs ++ ['\'']

/-- The lines of a block, each that holds something indented. -/
def blockLines (indent : Nat) (atStart : Bool) : List Char → List Char
  | [] => []
  | c :: rest =>
    if isBreak c then c :: blockLines indent true rest
    else (if atStart then spaces indent else []) ++ c :: blockLines indent false rest

/-- The header of a block: how it is indented, if its first line does not show that, and what
    becomes of the breaks at its end. -/
def blockMark (cs : List Char) : List Char :=
  let indentation := if cs.head?.any (fun c => c = ' ' || isBreak c) then ['2'] else []
  let ending :=
    match cs.reverse with
    | [] => ['-']
    | [last] => if isBreak last then ['+'] else ['-']
    | last :: before :: _ =>
      if !isBreak last then ['-'] else if isBreak before then ['+'] else []
  '|' :: indentation ++ ending

/-- A number with digits of base sixteen, capital letters among them. -/
def hexDigits (width : Nat) (n : Nat) : List Char :=
  let digits := (Nat.toDigits 16 n).map Char.toUpper
  List.replicate (width - digits.length) '0' ++ digits

/-- A character in double quotes. -/
def escapeInDouble (c : Char) : List Char :=
  if c = '"' then ['\\', '"']
  else if c = '\\' then ['\\', '\\']
  else if isPrintable c && !isBreak c then [c]
  else
    match c with
    | '\x00' => ['\\', '0']
    | '\x07' => ['\\', 'a']
    | '\x08' => ['\\', 'b']
    | '\t' => ['\\', 't']
    | '\n' => ['\\', 'n']
    | '\x0b' => ['\\', 'v']
    | '\x0c' => ['\\', 'f']
    | '\r' => ['\\', 'r']
    | '\x1b' => ['\\', 'e']
    | '\u0085' => ['\\', 'N']
    | '\u2028' => ['\\', 'L']
    | '\u2029' => ['\\', 'P']
    | _ =>
      let n := c.toNat
      if n ≤ 0xFF then '\\' :: 'x' :: hexDigits 2 n else '\\' :: 'u' :: hexDigits 4 n

/-- A text in double quotes. -/
def doubleQuoted (cs : List Char) : List Char := '"' :: cs.flatMap escapeInDouble ++ ['"']

/-- A text in its form, of which further lines are indented. -/
def renderText (indent : Nat) (s : String) : List Char :=
  let cs := s.toList
  match TextForm.of s with
  | .plain => cs
  | .single => singleQuoted indent cs
  | .double => doubleQuoted cs
  | .block => blockMark cs ++ '\n' :: blockLines indent true cs

/-! ## Writing a value -/

/-- A single value, of which further lines are indented. -/
def Scalar.render (indent : Nat) : Scalar → List Char
  | .null => "null".toList
  | .bool b => (if b then "true" else "false").toList
  | .nat n => (Nat.repr n).toList
  | .text s => renderText indent s

/-- A line with a single value at its end. A block that ends with a break ends the line. -/
def line (before : List Char) (indent : Nat) (s : Scalar) : List Char :=
  let text := s.render indent
  before ++ text ++ if text.getLast?.any isBreak then [] else ['\n']

mutual
/-- What follows the key of a member at a depth of nesting. -/
def renderMember (depth : Nat) (before : List Char) : Value → List Char
  | .scalar s => line (before ++ [' ']) (2 * depth + 2) s
  | .list [] => before ++ " []\n".toList
  | .list items =>
    before ++ '\n' :: items.flatMap (line (spaces (2 * depth) ++ ['-', ' ']) (2 * depth + 2))
  | .map [] => before ++ " \x7b\x7d\n".toList
  | .map (m :: members) => before ++ '\n' :: renderMembers (depth + 1) (m :: members)
/-- The members of a mapping at a depth of nesting. -/
def renderMembers (depth : Nat) : List (String × Value) → List Char
  | [] => []
  | (key, value) :: members =>
    renderMember depth (spaces (2 * depth) ++ key.toList ++ [':']) value
      ++ renderMembers depth members
end

/-- The text of a mapping. -/
def render (members : List (String × Value)) : String := String.ofList (renderMembers 0 members)

end Lineage.Yaml
