import Lineage.Text.Digits
import Lineage.Text.Utf8

/-!
# References in attribute values

An attribute value writes special characters as references: `&lt;` and the like by name, any other
scalar by its number, in base ten or, after an `x`, in base sixteen. Nothing else is special in a
value, but every `&` must start a reference.

## Main definitions

- `Reference.resolve` gives the character of one reference
- `Reference.expand` replaces all references of a value
-/

namespace Lineage

namespace Reference

/-! ## Faults -/

/-- Why a character number is refused. -/
inductive NumberFault where
  | sign
  | empty
  | notDigit
  /-- The number does not fit into 32 bits. -/
  | tooLarge
  | zero
  /-- The number belongs to no scalar. -/
  | notScalar (code : Nat)
  deriving DecidableEq, Repr

/-- The wording of a refused number. -/
def NumberFault.message : NumberFault → String
  | .sign => "unexpected number sign"
  | .empty => "cannot parse integer from empty string"
  | .notDigit => "invalid digit found in string"
  | .tooLarge => "number too large to fit in target type"
  | .zero => "0x0 character is not permitted in XML"
  | .notScalar code => s!"`{code}` is not a valid codepoint"

/-- Why a value cannot be read. Offsets count bytes of the value. -/
inductive Fault where
  /-- No semicolon before the next reference or the end. -/
  | unterminated (start length : Nat)
  | unknownName (start stop : Nat) (name : String)
  | number (fault : NumberFault)
  deriving DecidableEq, Repr

/-- The wording of a fault. -/
def Fault.message : Fault → String
  | .unterminated start length =>
    s!"Error while escaping character at range {start}..{length}: Cannot find ';' after '&'"
  | .unknownName start stop name => s!"at {start}..{stop}: unrecognized entity `{name}`"
  | .number fault => s!"invalid character reference: {fault.message}"

/-! ## One reference -/

/-- The number that digits denote behind a value read so far. -/
def digitsFrom (base value : Nat) : List Char → Except NumberFault Nat
  | [] => .ok value
  | c :: rest =>
    match digit? base c with
    | none => .error .notDigit
    | some d =>
      if base * value + d < Nat.pow 2 32 then digitsFrom base (base * value + d) rest
      else .error .tooLarge

/-- A number without a sign. -/
def number (base : Nat) : List Char → Except NumberFault Nat
  | [] => .error .empty
  | c :: rest => if c = '+' ∨ c = '-' then .error .sign else digitsFrom base 0 (c :: rest)

/-- The scalar that a character number stands for. -/
def scalar (text : List Char) : Except NumberFault Char := do
  let code ←
    match text with
    | 'x' :: hex => number 16 hex
    | _ => number 10 text
  if code = 0 then .error .zero
  else if code.isValidChar then .ok (Char.ofNat code)
  else .error (.notScalar code)

/-- The character that a name stands for. -/
def named? : List Char → Option Char
  | ['l', 't'] => some '<'
  | ['g', 't'] => some '>'
  | ['a', 'm', 'p'] => some '&'
  | ['a', 'p', 'o', 's'] => some '\''
  | ['q', 'u', 'o', 't'] => some '"'
  | _ => none

/-- The character of a reference, of which the text between `&` and `;` starts at an offset. -/
def resolve (start : Nat) (body : List Char) : Except Fault Char :=
  match body with
  | '#' :: text => (scalar text).mapError .number
  | _ =>
    match named? body with
    | some c => .ok c
    | none => .error (.unknownName start (start + Utf8.width body) (String.ofList body))

/-! ## Whole values -/

/-- Whether a character starts or ends a reference. -/
def isDelimiter (c : Char) : Bool := c = '&' || c = ';'

/-- Replaces the references of a value of a given length from an offset on, behind the characters
    read so far in reverse. -/
def expandFrom (length : Nat) (read : List Char) (offset : Nat) (cs : List Char) :
    Except Fault (List Char) :=
  match cs with
  | [] => .ok read.reverse
  | c :: rest =>
    if c = '&' then
      let body := rest.takeWhile (!isDelimiter ·)
      match _h : rest.dropWhile (!isDelimiter ·) with
      | ';' :: after =>
        match resolve (offset + 1) body with
        | .ok c => expandFrom length (c :: read) (offset + Utf8.width body + 2) after
        | .error fault => .error fault
      | _ => .error (.unterminated offset length)
    else expandFrom length (c :: read) (offset + c.utf8Size) rest
  termination_by cs.length
  decreasing_by
  · have := (List.dropWhile_suffix (l := rest) (!isDelimiter ·)).length_le
    simp_all; omega
  · simp

/-- A value with its references replaced. -/
def expand (value : String) : Except Fault String :=
  (expandFrom value.utf8ByteSize [] 0 value.toList).map String.ofList

end Reference

end Lineage
