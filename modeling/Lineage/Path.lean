/-!
# Paths

A path is a text with `/` between its pieces. Two texts are the same path when their components
agree: empty pieces and `.` pieces count for nothing, except for a leading `.`. Paths are ordered
component by component, so everything below a directory stands together.

## Main definitions

- `components`, and `compare` by them
- `join`, `parent?`, `fileName?`, `extension?`
-/

namespace Lineage

/-- A path, as written. -/
structure Path where
  text : String
  deriving DecidableEq, Repr, Inhabited

namespace Path

/-- A step of a path. -/
inductive Component where
  | root
  | here
  | up
  | name (s : String)
  deriving DecidableEq, Repr

namespace Component

/-- The place of a kind of step in the order of steps. -/
def rank : Component → Nat
  | .root => 0
  | .here => 1
  | .up => 2
  | .name _ => 3

/-- The name that a step enters, if any. -/
def label : Component → String
  | .name s => s
  | _ => ""

/-- Steps are ordered by their kind, names among each other as texts. -/
instance : Ord Component := ⟨compareLex (compareOn rank) (compareOn label)⟩

instance : Std.TransOrd Component :=
  inferInstanceAs (Std.TransCmp (compareLex (compareOn rank) (compareOn label)))

end Component

/-- The texts between the separators, empty ones included. -/
def pieces (p : Path) : List String := (p.text.toList.splitOn '/').map String.ofList

/-- The component that a piece stands for, unless it counts for nothing. -/
def component? (piece : String) : Option Component :=
  if piece = "" ∨ piece = "." then none
  else if piece = ".." then some .up
  else some (.name piece)

/-- Whether a path starts at the root. -/
def isAbsolute (p : Path) : Bool := p.text.startsWith "/"

/-- The components of a path. -/
def components (p : Path) : List Component :=
  let body := p.pieces.filterMap component?
  if p.isAbsolute then .root :: body
  else if p.pieces.head? = some "." then .here :: body
  else body

/-- The order of paths. -/
def compare (p q : Path) : Ordering := Ord.compare p.components q.components

instance : Std.TransCmp compare := inferInstanceAs (Std.TransCmp (compareOn components))

/-- Whether two texts are the same path. -/
def same (p q : Path) : Bool := p.compare q == .eq

/-! ## Building and taking apart -/

/-- A path taken from a directory on; an absolute one stands for itself. -/
def join (dir rest : Path) : Path :=
  if rest.isAbsolute then rest
  else if dir.text = "" ∨ dir.text.endsWith "/" then ⟨dir.text ++ rest.text⟩
  else ⟨dir.text ++ "/" ++ rest.text⟩

/-- A list of pieces without the ones at its end that count for nothing. -/
def dropEmptyTail (pieces : List String) : List String :=
  (pieces.reverse.dropWhile fun s => s = "" ∨ s = ".").reverse

/-- The path without its last component; the root and the empty path have none. -/
def parent? (p : Path) : Option Path :=
  match p.pieces with
  | [] => none
  | first :: rest =>
    match (dropEmptyTail rest).reverse with
    | _ :: before =>
      match dropEmptyTail before.reverse with
      | [] => some ⟨if first = "" then "/" else first⟩
      | kept => some ⟨"/".intercalate (first :: kept)⟩
    | [] => if first = "" then none else some ⟨""⟩

/-- The last component, if it is a name. -/
def fileName? (p : Path) : Option String :=
  match p.components.getLast? with
  | some (.name s) => some s
  | _ => none

/-- What follows the last dot of a name that has something before that dot. -/
def extensionOf? (name : String) : Option String :=
  let after := name.toList.reverse.takeWhile (· ≠ '.')
  match name.toList.reverse.drop after.length with
  | _ :: _ :: _ => some (String.ofList after.reverse)
  | _ => none

/-- The extension of the file a path names. -/
def extension? (p : Path) : Option String := p.fileName?.bind extensionOf?

end Path

end Lineage
