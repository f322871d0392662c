import Lineage.ParentList
import Lineage.Path
import Lineage.Text.Lines
import Lineage.Text.WordChar

/-!
# Construction sites

A mixin is constructed where a line starts with its name, an equals sign, and either an opening
brace or a call of the composition function:

    Name = {
    Name = CreateFromMixins(First, Second);

Blanks, line breaks included, may stand around the equals sign. The sites of a content are found
from left to right, none inside an earlier one. A site is annotated when the line directly above
it carries the marker.

## Main definitions

- `construction?` reads one construction at the head of a byte list
- `constructions` lists all of them with their offsets
- `isAnnotated` looks at the line above
-/

namespace Lineage

/-! ## One construction -/

/-- What follows the equals sign: the argument list of a composition, or none for a table, and
    the number of bytes taken up. -/
structure Definition where
  arguments : Option String
  length : Nat
  deriving DecidableEq, Repr

/-- Reads a composition call at the head of a byte list: the function, an argument list without a
    closing parenthesis in it, and a semicolon if one follows directly. -/
def composition? (compose : Bytes) (bs : Bytes) : Option Definition :=
  if compose.isPrefixOf bs then
    match bs.drop compose.length with
    | 0x28 :: afterOpen =>
      match Utf8.span (· ≠ ')') afterOpen with
      | (first :: run, 0x29 :: rest) =>
        let arguments := first :: run
        let closed := compose.length + 1 + Utf8.width arguments + 1
        some ⟨some (String.ofList arguments), if rest.head? = some 0x3B then closed + 1 else closed⟩
      | _ => none
    | _ => none
  else none

/-- Reads a composition call or an opening brace at the head of a byte list. -/
def definition? (compose : Bytes) (bs : Bytes) : Option Definition :=
  composition? compose bs <|> if bs.head? = some 0x7B then some ⟨none, 1⟩ else none

/-- Every way to skip blanks at the head of a byte list, longest first: the number of bytes
    skipped and the bytes left, in front of the ways already collected. -/
def blankSkipsFrom (ways : List (Nat × Bytes)) (skipped : Nat) (bs : Bytes) :
    List (Nat × Bytes) :=
  match _h : Utf8.next? bs with
  | some (c, rest) =>
    if isBlank c then blankSkipsFrom ((skipped, bs) :: ways) (skipped + c.utf8Size) rest
    else (skipped, bs) :: ways
  | none => (skipped, bs) :: ways
  termination_by bs.length
  decreasing_by exact Utf8.length_lt_of_next? _h

/-- Reads a definition after as many blanks as possible. A composition function may itself start
    with blanks, so fewer are tried where more lead nowhere. -/
def definitionAfterBlanks? (compose : Bytes) (bs : Bytes) : Option Definition :=
  (blankSkipsFrom [] 0 bs).findSome? fun (skipped, rest) =>
    (definition? compose rest).map fun d => { d with length := skipped + d.length }

/-- A construction at the head of a byte list: the name, the parents and the bytes taken up. -/
structure Construction where
  bundle : String
  parents : List String
  length : Nat
  deriving DecidableEq, Repr

/-- Reads a construction at the head of a byte list. -/
def construction? (compose : Bytes) (bs : Bytes) : Option Construction :=
  match Utf8.span isWordChar bs with
  | ([], _) => none
  | (name, afterName) =>
    match Utf8.span isBlank afterName with
    | (gap, 0x3D :: afterEquals) =>
      (definitionAfterBlanks? compose afterEquals).map fun d =>
        { bundle := String.ofList name
          parents := (d.arguments.map parentList).getD []
          length := Utf8.width name + Utf8.width gap + 1 + d.length }
    | _ => none

/-! ## All constructions -/

/-- A construction with the offset at which it stands. -/
structure Match where
  start : Nat
  stop : Nat
  bundle : String
  parents : List String
  deriving DecidableEq, Repr

/-- The constructions of the bytes from offset `pos` on, of which the first `skip` belong to a
    construction already found; `atLineStart` tells whether a line starts here. -/
def constructionsFrom (compose : Bytes) (pos skip : Nat) (atLineStart : Bool) :
    Bytes → List Match
  | [] => []
  | b :: rest =>
    match skip with
    | skip + 1 => constructionsFrom compose (pos + 1) skip (b == newline) rest
    | 0 =>
      -- the rest of a line in which a construction ended holds no other one
      if atLineStart then
        match construction? compose (b :: rest) with
        | some c =>
          ⟨pos, pos + c.length, c.bundle, c.parents⟩ ::
            constructionsFrom compose (pos + 1) (c.length - 1) (b == newline) rest
        | none => constructionsFrom compose (pos + 1) 0 (b == newline) rest
      else constructionsFrom compose (pos + 1) 0 (b == newline) rest

/-- The constructions of a content, in order of their offsets. -/
def constructions (compose : String) (content : Bytes) : List Match :=
  constructionsFrom (Utf8.ofString compose) 0 0 true content

/-- Whether a construction composes other bundles. -/
def Match.isComposed (m : Match) : Bool := !m.parents.isEmpty

/-! ## Sites in files -/

/-- A construction in a file. -/
structure Site where
  path : Path
  offset : Nat
  line : Nat
  bundle : String
  parents : List String
  deriving DecidableEq, Repr

/-- Whether a site composes other bundles. -/
def Site.isComposed (s : Site) : Bool := !s.parents.isEmpty

/-- The place of a construction in a file. -/
def Match.site (m : Match) (path : Path) (content : Bytes) : Site :=
  ⟨path, m.start, lineNumber content m.start, m.bundle, m.parents⟩

/-- The construction sites of a file. -/
def sites (compose : String) (path : Path) (content : Bytes) : List Site :=
  (constructions compose content).map (·.site path content)

/-! ## Annotations -/

/-- Whether a byte string occurs in another one. -/
def Bytes.occursIn (part : Bytes) : Bytes → Bool
  | [] => part.isEmpty
  | b :: rest => part.isPrefixOf (b :: rest) || Bytes.occursIn part rest

/-- Whether the line above the one at `pos` carries the marker. -/
def isAnnotated (marker : String) (content : Bytes) (pos : Nat) : Bool :=
  match previousLine content (lineStart content pos) with
  | some line => marker ≠ "" && Bytes.occursIn (Utf8.ofString marker) line
  | none => false

end Lineage
