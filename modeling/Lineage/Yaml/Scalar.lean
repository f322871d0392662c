import Lineage.Text.Digits

/-!
# The meaning of scalars

A plain scalar may read as nothing, as a truth value, as an integer or as a decimal number; any
other one is a text. A text that would read as something else must be quoted.

## Main definitions

- `isNull`, `bool?`, `natural?`
- `readsAsText` tells texts from the others
-/

namespace Lineage.Yaml

/-- Whether a scalar is a word for nothing. -/
def isNull (s : String) : Bool := s = "null" || s = "Null" || s = "NULL" || s = "~"

/-- The truth value that a scalar denotes. -/
def bool? (s : String) : Option Bool :=
  if s = "true" ∨ s = "True" ∨ s = "TRUE" then some true
  else if s = "false" ∨ s = "False" ∨ s = "FALSE" then some false
  else none

/-! ## Integers -/

/-- A number in base ten, or behind a mark in another one. -/
def magnitude? (cs : List Char) : Option Nat :=
  match cs with
  | '0' :: 'x' :: rest => digits? 16 rest
  | '0' :: 'o' :: rest => digits? 8 rest
  | '0' :: 'b' :: rest => digits? 2 rest
  | _ => digits? 10 cs

/-- Whether there are only digits, maybe behind a sign, of which a zero comes first and is not the
    only one. Such a scalar is no number. -/
def hasLeadingZero (cs : List Char) : Bool :=
  let digits :=
    match cs with
    | '+' :: rest | '-' :: rest => rest
    | _ => cs
  match digits with
  | '0' :: rest => !rest.isEmpty && rest.all Char.isDigit
  | _ => false

/-- The natural number below a bound that a scalar denotes. -/
def natural? (bound : Nat) (s : String) : Option Nat :=
  let cs := s.toList
  if hasLeadingZero cs then none
  else
    let unsigned :=
      match cs with
      | '+' :: rest => rest
      | _ => cs
    (magnitude? unsigned).filter (· < bound)

/-- Whether a scalar denotes a negative integer whose magnitude is in bounds. -/
def isNegative (bound : Nat) (s : String) : Bool :=
  match s.toList with
  | '-' :: rest => !hasLeadingZero rest && (magnitude? rest).any (· ≤ bound)
  | _ => false

/-- Whether a scalar denotes an integer of at most 128 bits. -/
def isInteger (s : String) : Bool :=
  (natural? (Nat.pow 2 128) s).isSome || isNegative (Nat.pow 2 127) s

/-! ## Decimal numbers -/

/-- A decimal number: its digits as a number, and the power of ten they are multiplied with. -/
structure Decimal where
  digits : Nat
  /-- The number of digits behind the point. -/
  places : Nat
  exponent : Int

/-- Reads an exponent. -/
def exponent? : List Char → Option Int
  | [] => some 0
  | e :: rest =>
    if e = 'e' ∨ e = 'E' then
      match rest with
      | '-' :: digits => (digits? 10 digits).map fun n => -(n : Int)
      | '+' :: digits => (digits? 10 digits).map Int.ofNat
      | digits => (digits? 10 digits).map Int.ofNat
    else none

/-- Reads a decimal number without a sign: digits, maybe with a point before, between or behind
    them, and maybe an exponent. -/
def decimal? (cs : List Char) : Option Decimal :=
  let whole := cs.takeWhile Char.isDigit
  let afterWhole := cs.drop whole.length
  let (places, rest) :=
    match afterWhole with
    | '.' :: more => (more.takeWhile Char.isDigit, more.dropWhile Char.isDigit)
    | _ => ([], afterWhole)
  match digits? 10 (whole ++ places), exponent? rest with
  | some digits, some exponent => some ⟨digits, places.length, exponent⟩
  | _, _ => none

/-- Whether a decimal number is nearest to a finite binary number of 64 bits: it lies below the
    middle between the greatest one and the next power of two. Numbers of far more or far fewer
    digits are told by their length. -/
def Decimal.isFinite (d : Decimal) : Bool :=
  let power := d.exponent - d.places
  let magnitude := (Nat.repr d.digits).length + power
  if d.digits = 0 ∨ magnitude < 300 then true
  else if 320 < magnitude then false
  else
    let limit := Nat.pow 2 1024 - Nat.pow 2 970
    if 0 ≤ power then decide (d.digits * Nat.pow 10 power.toNat < limit)
    else decide (d.digits < limit * Nat.pow 10 (-power).toNat)

/-- Whether a scalar denotes a decimal number, the infinities and the undefined one included. -/
def isDecimal (s : String) : Bool :=
  let unsigned :=
    match s.toList with
    | '+' :: '+' :: _ | '+' :: '-' :: _ => []
    | '+' :: rest => rest
    | '-' :: rest => rest
    | cs => cs
  let names := [".inf", ".Inf", ".INF"]
  names.contains (String.ofList unsigned) || [".nan", ".NaN", ".NAN"].contains s
    || (decimal? unsigned).any Decimal.isFinite

/-! ## Texts -/

/-- Whether a plain scalar reads as the text it is. -/
def readsAsText (s : String) : Bool :=
  !(s = "" || isNull s || (bool? s).isSome || isInteger s || hasLeadingZero s.toList
    || isDecimal s)

end Lineage.Yaml
