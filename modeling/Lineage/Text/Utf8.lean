/-!
# Byte strings and UTF-8

File contents are plain byte lists. This module reads scalars off the head of a byte list, decodes
whole lists (strictly, or with a replacement character for what is ill-formed), and encodes text.

## Main definitions

- `next?` reads one well-formed scalar
- `decode` accepts exactly well-formed lists and says where the first fault is
- `lossy` puts U+FFFD for every maximal ill-formed part
- `ofString` is the encoding of a text
-/

namespace Lineage

/-- File contents: bytes that need not be valid UTF-8. -/
abbrev Bytes := List UInt8

namespace Utf8

/-! ## Byte classes -/

/-- A continuation byte. -/
def isTail (b : UInt8) : Bool := 0x80 ≤ b && b ≤ 0xBF

/-- Whether `second` may follow the lead byte `lead`: a continuation byte, less those that would
    make an overlong form, a surrogate or a value above U+10FFFF. -/
def isSecond (lead second : UInt8) : Bool :=
  if lead == 0xE0 then 0xA0 ≤ second && second ≤ 0xBF
  else if lead == 0xED then 0x80 ≤ second && second ≤ 0x9F
  else if lead == 0xF0 then 0x90 ≤ second && second ≤ 0xBF
  else if lead == 0xF4 then 0x80 ≤ second && second ≤ 0x8F
  else isTail second

/-- How many bytes a scalar takes that starts with this byte; 0 for a byte that starts none. -/
def leadWidth (b : UInt8) : Nat :=
  if b < 0x80 then 1
  else if b < 0xC2 then 0
  else if b < 0xE0 then 2
  else if b < 0xF0 then 3
  else if b < 0xF5 then 4
  else 0

/-! ## Reading one scalar -/

/-- The scalar at the head of a byte list, with what follows it. -/
def next? : Bytes → Option (Char × Bytes)
  | [] => none
  | a :: rest =>
    match leadWidth a, rest with
    | 1, r => some (Char.ofNat a.toNat, r)
    | 2, b :: r =>
      if isSecond a b then
        some (Char.ofNat ((a.toNat - 0xC0) * 64 + (b.toNat - 0x80)), r)
      else none
    | 3, b :: c :: r =>
      if isSecond a b && isTail c then
        some (Char.ofNat ((a.toNat - 0xE0) * 4096 + (b.toNat - 0x80) * 64 + (c.toNat - 0x80)), r)
      else none
    | 4, b :: c :: d :: r =>
      if isSecond a b && isTail c && isTail d then
        some (Char.ofNat ((a.toNat - 0xF0) * 262144 + (b.toNat - 0x80) * 4096
          + (c.toNat - 0x80) * 64 + (d.toNat - 0x80)), r)
      else none
    | _, _ => none

/-- Reading a scalar uses up at least one byte. -/
theorem length_lt_of_next? {bs : Bytes} {c : Char} {r : Bytes} (h : next? bs = some (c, r)) :
    r.length < bs.length := by
  unfold next? at h
  split at h
  · cases h
  · split at h <;> (try split at h) <;> simp_all <;> (obtain ⟨_, rfl⟩ := h; omega)

/-- The width of the maximal ill-formed part at the head of a byte list, or none if the list ends
    inside what might have become a scalar. Meant for lists at which `next?` fails. -/
def faultWidth : Bytes → Option Nat
  | [] => none
  | a :: rest =>
    if leadWidth a < 2 then some 1
    else match rest with
      | [] => none
      | b :: rest =>
        if !isSecond a b then some 1
        else match rest with
          | [] => none
          | c :: rest =>
            if !isTail c then some 2
            else match rest with
              | [] => none
              | _ :: _ => some 3

/-! ## Decoding and encoding -/

/-- Why a byte list is not UTF-8: the offset of the first ill-formed part, and its width unless
    the input just ends there. -/
structure Fault where
  index : Nat
  width : Option Nat
  deriving DecidableEq, Repr

/-- The wording of a decoding fault. -/
def Fault.message : Fault → String
  | ⟨index, some width⟩ => s!"invalid utf-8 sequence of {width} bytes from index {index}"
  | ⟨index, none⟩ => s!"incomplete utf-8 byte sequence from index {index}"

/-- Decodes from offset `index` on, behind the scalars read so far in reverse. -/
def decodeFrom (read : List Char) (index : Nat) (bs : Bytes) : Except Fault (List Char) :=
  match bs with
  | [] => .ok read.reverse
  | b :: r =>
    match _h : next? (b :: r) with
    | none => .error ⟨index, faultWidth (b :: r)⟩
    | some (c, rest) => decodeFrom (c :: read) (index + c.utf8Size) rest
  termination_by bs.length
  decreasing_by exact length_lt_of_next? _h

/-- The text of a well-formed byte list, or its first fault. -/
def decode (bs : Bytes) : Except Fault String :=
  (decodeFrom [] 0 bs).map String.ofList

/-- The scalars of a byte list behind those read so far in reverse, with U+FFFD for each maximal
    ill-formed part. -/
def lossyFrom (read : List Char) (bs : Bytes) : List Char :=
  match bs with
  | [] => read.reverse
  | b :: r =>
    match _h : next? (b :: r) with
    | some (c, rest) => lossyFrom (c :: read) rest
    | none =>
      match faultWidth (b :: r) with
      | some width => lossyFrom ('\ufffd' :: read) (r.drop (width - 1))
      | none => ('\ufffd' :: read).reverse
  termination_by bs.length
  decreasing_by
  · exact length_lt_of_next? _h
  · simp only [List.length_drop, List.length_cons]; omega

/-- The text of any byte list, ill-formed parts replaced. -/
def lossy (bs : Bytes) : String := String.ofList (lossyFrom [] bs)

/-- The bytes of a list of scalars. -/
def encode (cs : List Char) : Bytes := cs.flatMap String.utf8EncodeChar

/-- The bytes of a text. -/
def ofString (s : String) : Bytes := encode s.toList

/-- The number of bytes that a run of scalars takes. -/
def width (run : List Char) : Nat := (encode run).length

/-- Extends a run, held in reverse, by the well-formed scalars of a class that follow it. -/
def spanFrom (p : Char → Bool) (run : List Char) (bs : Bytes) : List Char × Bytes :=
  match _h : next? bs with
  | none => (run.reverse, bs)
  | some (c, rest) => if p c then spanFrom p (c :: run) rest else (run.reverse, bs)
  termination_by bs.length
  decreasing_by exact length_lt_of_next? _h

/-- The longest run of well-formed scalars in a class at the head of a byte list, with the rest. -/
def span (p : Char → Bool) (bs : Bytes) : List Char × Bytes := spanFrom p [] bs

end Utf8

end Lineage
