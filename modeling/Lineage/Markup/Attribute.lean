import Lineage.Markup.Reference

/-!
# Attributes

What stands in a tag behind its name: keys, each with an equals sign and a value in quotes, with
blanks between them. Reading stops at the first fault; the attributes in front of it count.

## Main definitions

- `attributes` lists the attributes of a tag with the fault that ended them
- `AttributeFault.message` words a fault
-/

namespace Lineage

namespace Markup

/-- A blank of markup. -/
def isSpace (b : UInt8) : Bool := b == 0x20 || b == 0x09 || b == 0x0A || b == 0x0D

/-- A quote around a value. -/
def isQuote (b : UInt8) : Bool := b == 0x22 || b == 0x27

/-- The part of a name behind its first colon, or all of it. -/
def localName (name : Bytes) : Bytes :=
  match name.dropWhile (· != 0x3A) with
  | _ :: rest => rest
  | [] => name

/-! ## Faults -/

/-- Why the attributes of a tag cannot be read. Positions count the bytes of the tag behind its
    opening bracket. -/
inductive AttributeFault where
  | missingEquals (position : Nat)
  | duplicate (position earlier : Nat)
  | missingValue (position : Nat)
  | unquotedValue (position : Nat)
  | missingQuote (position : Nat) (quote : Char)
  /-- A value is not UTF-8. -/
  | notText (fault : Utf8.Fault)
  | reference (fault : Reference.Fault)
  deriving DecidableEq, Repr

/-- The wording of a fault. -/
def AttributeFault.message : AttributeFault → String
  | .missingEquals position =>
    s!"position {position}: attribute key must be directly followed by `=` or space"
  | .duplicate position earlier =>
    s!"position {position}: duplicated attribute, previous declaration at position {earlier}"
  | .missingValue position => s!"position {position}: `=` must be followed by an attribute value"
  | .unquotedValue position =>
    s!"position {position}: attribute value must be enclosed in `\"` or `'`"
  | .missingQuote position quote =>
    s!"position {position}: missing closing quote `{quote}` in attribute value"
  | .notText fault => s!"Malformed UTF-8 input: {fault.message}"
  | .reference fault => fault.message

/-! ## Reading -/

/-- An attribute as written. -/
structure Attribute where
  key : Bytes
  value : Bytes
  deriving DecidableEq, Repr

/-- Whether a byte ends a key; the first byte of a key ends nothing. -/
def endsKey (b : UInt8) : Bool := b == 0x3D || isSpace b

/-- The attributes in the rest of a tag of a given length, behind keys that were seen with their
    positions, and the fault that ends them. -/
def attributesFrom (length : Nat) (seen : List (Bytes × Nat)) (bs : Bytes) :
    List Attribute × Option AttributeFault :=
  match _hkey : bs.dropWhile isSpace with
  | [] => ([], none)
  | first :: afterFirst =>
    let key := first :: afterFirst.takeWhile (!endsKey ·)
    let position := length - (afterFirst.length + 1)
    match _heq : (afterFirst.dropWhile (!endsKey ·)).dropWhile isSpace with
    | [] => ([], some (.missingEquals length))
    | equals :: afterEquals =>
      if equals != 0x3D then ([], some (.missingEquals (length - (afterEquals.length + 1))))
      else
        match seen.lookup key with
        | some earlier => ([], some (.duplicate position earlier))
        | none =>
          match _hquote : afterEquals.dropWhile isSpace with
          | [] => ([], some (.missingValue length))
          | quote :: afterQuote =>
            if !isQuote quote then ([], some (.unquotedValue (length - (afterQuote.length + 1))))
            else
              match _hend : afterQuote.dropWhile (· != quote) with
              | [] => ([], some (.missingQuote length (Char.ofNat quote.toNat)))
              | _ :: rest =>
                let (more, fault) := attributesFrom length ((key, position) :: seen) rest
                (⟨key, afterQuote.takeWhile (· != quote)⟩ :: more, fault)
  termination_by bs.length
  decreasing_by
    have h1 := (List.dropWhile_suffix (l := bs) isSpace).length_le
    have h2 := (List.dropWhile_suffix (l := afterFirst) (!endsKey ·)).length_le
    have h3 := (List.dropWhile_suffix (l := afterFirst.dropWhile (!endsKey ·)) isSpace).length_le
    have h4 := (List.dropWhile_suffix (l := afterEquals) isSpace).length_le
    have h5 := (List.dropWhile_suffix (l := afterQuote) (· != quote)).length_le
    rw [_hkey] at h1
    rw [_heq] at h3
    rw [_hquote] at h4
    rw [_hend] at h5
    simp only [List.length_cons] at h1 h3 h4 h5
    omega

/-- The attributes of a tag, of which the name is the first part. -/
def attributes (tag : Bytes) : List Attribute × Option AttributeFault :=
  attributesFrom tag.length [] (tag.dropWhile (!isSpace ·))

/-- The text of an attribute: its value as UTF-8 with references replaced. -/
def Attribute.text (a : Attribute) : Except AttributeFault String := do
  let raw ← (Utf8.decode a.value).mapError .notText
  (Reference.expand raw).mapError .reference

end Markup

end Lineage
