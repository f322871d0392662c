import Lineage.Data.NameSet
import Lineage.Text.Blank
import Lineage.Text.Utf8
import Lineage.Text.WordChar

/-!
# Authoritative declarations

A class is declared wherever the marker, some blanks and a name stand, also inside a line. Classes
declared outside the corpus are left alone.
-/

namespace Lineage

/-- A declaration at the head of a byte list: its name and the bytes taken up. -/
structure Declaration where
  name : String
  length : Nat
  deriving DecidableEq, Repr

/-- Reads a declaration at the head of a byte list. -/
def declaration? (marker : Bytes) (bs : Bytes) : Option Declaration :=
  if marker.isPrefixOf bs then
    match Utf8.span isBlank (bs.drop marker.length) with
    | ([], _) => none
    | (gap, afterGap) =>
      match Utf8.span isWordChar afterGap with
      | ([], _) => none
      | (name, _) => some ⟨String.ofList name, marker.length + Utf8.width gap + Utf8.width name⟩
  else none

/-- The names declared in a byte list, of which the first `skip` bytes belong to a declaration
    already found. -/
def declaredNamesFrom (marker : Bytes) (skip : Nat) : Bytes → List String
  | [] => []
  | b :: rest =>
    match skip with
    | skip + 1 => declaredNamesFrom marker skip rest
    | 0 =>
      match declaration? marker (b :: rest) with
      | some d => d.name :: declaredNamesFrom marker (d.length - 1) rest
      | none => declaredNamesFrom marker 0 rest

/-- The names declared in a content, in order. -/
def declaredNames (marker : String) (content : Bytes) : List String :=
  declaredNamesFrom (Utf8.ofString marker) 0 content

/-- The classes declared in some files. -/
def declaredIn (marker : String) (contents : List Bytes) : NameSet :=
  NameSet.ofList (contents.flatMap (declaredNames marker))

end Lineage
