/-!
# JSON values

The values that reports are written in, with their indented text. Numbers are natural numbers; any
other number is kept by its text.
-/

namespace Lineage

/-- A JSON value. The members of an object keep their order. -/
inductive Json where
  | null
  | bool (b : Bool)
  | nat (n : Nat)
  | number (text : String)
  | string (s : String)
  | array (items : List Json)
  | object (members : List (String × Json))
  deriving Repr, Inhabited

namespace Json

/-- A digit of base sixteen. -/
def hexDigit (n : Nat) : Char :=
  if n < 10 then Char.ofNat (48 + n) else Char.ofNat (87 + n)

/-- A character as it stands inside a quoted text. -/
def escapeChar (c : Char) : List Char :=
  if c = '"' then ['\\', '"']
  else if c = '\\' then ['\\', '\\']
  else if c = '\n' then ['\\', 'n']
  else if c = '\r' then ['\\', 'r']
  else if c = '\t' then ['\\', 't']
  else if c.toNat = 8 then ['\\', 'b']
  else if c.toNat = 12 then ['\\', 'f']
  else if c.toNat < 32 then ['\\', 'u', '0', '0', hexDigit (c.toNat / 16), hexDigit (c.toNat % 16)]
  else [c]

/-- A text in quotes. -/
def quote (s : String) : String :=
  String.ofList ('"' :: s.toList.flatMap escapeChar ++ ['"'])

/-- A line break followed by the indentation of a nesting depth, two spaces a level. -/
def lineBreak (depth : Nat) : String :=
  String.ofList ('\n' :: List.replicate (2 * depth) ' ')

mutual
/-- The text of a value that stands at a nesting depth, one item or member a line. -/
def prettyAt (depth : Nat) : Json → String
  | .null => "null"
  | .bool b => if b then "true" else "false"
  | .nat n => toString n
  | .number text => text
  | .string s => quote s
  | .array [] => "[]"
  | .array (item :: items) =>
    "[" ++ lineBreak (depth + 1) ++ prettyAt (depth + 1) item
      ++ prettyItems (depth + 1) items ++ lineBreak depth ++ "]"
  | .object [] => "\x7b\x7d"
  | .object ((key, value) :: members) =>
    "\x7b" ++ lineBreak (depth + 1) ++ quote key ++ ": " ++ prettyAt (depth + 1) value
      ++ prettyMembers (depth + 1) members ++ lineBreak depth ++ "\x7d"
/-- The text of the further items of an array. -/
def prettyItems (depth : Nat) : List Json → String
  | [] => ""
  | item :: items => "," ++ lineBreak depth ++ prettyAt depth item ++ prettyItems depth items
/-- The text of the further members of an object. -/
def prettyMembers (depth : Nat) : List (String × Json) → String
  | [] => ""
  | (key, value) :: members =>
    "," ++ lineBreak depth ++ quote key ++ ": " ++ prettyAt depth value
      ++ prettyMembers depth members
end

/-- The indented text of a value. -/
def pretty (j : Json) : String := prettyAt 0 j

/-- An array of texts. -/
def strings (items : List String) : Json := .array (items.map .string)

/-! ## Taking values apart -/

/-- The natural number that a value is. -/
def nat? : Json → Option Nat
  | .nat n => some n
  | _ => none

/-- The text that a value is. -/
def string? : Json → Option String
  | .string s => some s
  | _ => none

/-- The list of texts that a value is. -/
def strings? : Json → Option (List String)
  | .array items => items.mapM string?
  | _ => none

end Json

end Lineage
