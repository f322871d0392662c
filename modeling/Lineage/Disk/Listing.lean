import Lineage.Disk.FileError
import Lineage.Path

/-!
# Directory listings

What stands in a directory: files with their payload and directories with their own listings, by
name. The payload of a file is its content. Where only the names matter it is empty, and a directory
whose names are not to be had stands as a file with an error for payload.

## Main definitions

- `Listing` and `Entry`
- `Listing.entryAt`, `Listing.putAt` and `Listing.eraseAt` follow a list of names
- `Entry.discover` lists the visible files with an extension
- `Entry.obstacle?` is the first directory that could not be listed
-/

namespace Lineage

/-- What stands in a directory. -/
inductive Listing (α : Type) where
  | empty
  | file (name : String) (payload : α) (rest : Listing α)
  | dir (name : String) (inside rest : Listing α)
  deriving DecidableEq, Repr, Inhabited

/-- What a name stands for. -/
inductive Entry (α : Type) where
  | file (payload : α)
  | dir (inside : Listing α)
  deriving DecidableEq, Repr

namespace Listing

variable {α β : Type}

/-! ## Names of one directory -/

/-- What a name stands for. -/
def find? (name : String) : Listing α → Option (Entry α)
  | .empty => none
  | .file n payload rest => if n = name then some (.file payload) else rest.find? name
  | .dir n inside rest => if n = name then some (.dir inside) else rest.find? name

/-- A name in front of a listing. -/
def cons (name : String) (e : Entry α) (rest : Listing α) : Listing α :=
  match e with
  | .file payload => .file name payload rest
  | .dir inside => .dir name inside rest

/-- Lets a name stand for something else; a new name comes last. -/
def put (name : String) (e : Entry α) : Listing α → Listing α
  | .empty => cons name e .empty
  | .file n payload rest =>
    if n = name then cons name e rest else .file n payload (rest.put name e)
  | .dir n inside rest =>
    if n = name then cons name e rest else .dir n inside (rest.put name e)

/-- Takes a name out. -/
def erase (name : String) : Listing α → Listing α
  | .empty => .empty
  | .file n payload rest => if n = name then rest else .file n payload (rest.erase name)
  | .dir n inside rest => if n = name then rest else .dir n inside (rest.erase name)

/-- A listing with the payloads changed. -/
def map (f : α → β) : Listing α → Listing β
  | .empty => .empty
  | .file n payload rest => .file n (f payload) (rest.map f)
  | .dir n inside rest => .dir n (inside.map f) (rest.map f)

/-! ## Names of nested directories -/

/-- What a list of names leads to. -/
def entryAt (l : Listing α) : List String → Option (Entry α)
  | [] => some (.dir l)
  | name :: names =>
    match l.find? name with
    | some (.dir inside) => inside.entryAt names
    | some (.file payload) => if names.isEmpty then some (.file payload) else none
    | none => none

/-- Lets a list of names lead to something else. The directories on the way must exist. -/
def putAt (l : Listing α) (e : Entry α) : List String → Listing α
  | [] => l
  | [name] => l.put name e
  | name :: names =>
    match l.find? name with
    | some (.dir inside) => l.put name (.dir (inside.putAt e names))
    | _ => l

/-- Takes out what a list of names leads to. -/
def eraseAt (l : Listing α) : List String → Listing α
  | [] => l
  | [name] => l.erase name
  | name :: names =>
    match l.find? name with
    | some (.dir inside) => l.put name (.dir (inside.eraseAt names))
    | _ => l

/-! ## Discovery -/

/-- Whether a name is hidden. -/
def isHidden (name : String) : Bool := name.toList.head? = some '.'

/-- The files of a listing that stands at a path, without hidden names and what is below them. -/
def visibleFiles (place : Path) : Listing α → List Path
  | .empty => []
  | .file name _ rest =>
    (if isHidden name then [] else [place.join ⟨name⟩]) ++ rest.visibleFiles place
  | .dir name inside rest =>
    (if isHidden name then [] else inside.visibleFiles (place.join ⟨name⟩))
      ++ rest.visibleFiles place

/-- The directories of a listing that could not be listed themselves, without hidden names and what
    is below them. -/
def obstacles (place : Path) : Listing (Except FileError Unit) → List (Path × FileError)
  | .empty => []
  | .file _ (.ok ()) rest => rest.obstacles place
  | .file name (.error cause) rest =>
    (if isHidden name then [] else [(place.join ⟨name⟩, cause)]) ++ rest.obstacles place
  | .dir name inside rest =>
    (if isHidden name then [] else inside.obstacles (place.join ⟨name⟩)) ++ rest.obstacles place

end Listing

namespace Entry

variable {α β : Type}

/-- An entry with the payloads changed. -/
def map (f : α → β) : Entry α → Entry β
  | .file payload => .file (f payload)
  | .dir inside => .dir (inside.map f)

/-- Whether a path has an extension, small and capital letters taken as equal. -/
def hasExtension (extension : String) (path : Path) : Bool :=
  match path.extension? with
  | some found => found.toList.map Char.toLower == extension.toList.map Char.toLower
  | none => false

/-- The files at or below a path that have an extension, in the order of their paths. Hidden names
    are left out, but the entry itself may be hidden. -/
def discover (root : Path) (extension : String) (e : Entry α) : List Path :=
  let files :=
    match e with
    | .file _ => [root]
    | .dir inside => inside.visibleFiles root
  (files.filter (hasExtension extension)).mergeSort fun p q => p.compare q != .gt

/-- The directories at or below a path that could not be listed. As in `discover` hidden names are
    left out, but the entry itself may be hidden. -/
def obstacles (root : Path) : Entry (Except FileError Unit) → List (Path × FileError)
  | .file (.ok ()) => []
  | .file (.error cause) => [(root, cause)]
  | .dir inside => inside.obstacles root

/-- The first of them in the order of their paths. -/
def obstacle? (root : Path) (e : Entry (Except FileError Unit)) : Option (Path × FileError) :=
  ((e.obstacles root).mergeSort fun o p => o.1.compare p.1 != .gt).head?

end Entry

end Lineage
