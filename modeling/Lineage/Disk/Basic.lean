import Lineage.Disk.FileError
import Lineage.Disk.Proper
import Lineage.Text.Utf8

/-!
# Disks

A disk is the proper listing of its top directory. A path is followed piece by piece from the top: every
piece but the last must lead to a directory, also an empty one or `.`, and `..` leads back.
Operations fail with the error that the first obstacle on the way gives.

## Main definitions

- `locate` follows a path
- `read`, `write`, `makeDir` and `remove`
-/

namespace Lineage

/-- The files and directories of a disk. -/
structure Disk where
  top : Listing Bytes
  proper : top.Proper
  deriving DecidableEq, Repr

/-- The names that lead from the top to a place. -/
abbrev Location := List String

namespace Disk

/-- The disk without files. -/
def empty : Disk := ⟨.empty, trivial⟩

instance : EmptyCollection Disk := ⟨empty⟩
instance : Inhabited Disk := ⟨empty⟩

/-- What stands at a location. -/
def at? (d : Disk) (here : Location) : Option (Entry Bytes) := d.top.entryAt here

/-! ## Following paths -/

/-- Asks for a directory at a location. -/
def requireDir (d : Disk) (here : Location) : Except FileError Unit :=
  match d.at? here with
  | some (.dir _) => .ok ()
  | some (.file _) => .error .notDirectory
  | none => .error .notFound

/-- Follows one piece of a path to something that exists. -/
def follow (d : Disk) (here : Location) (piece : String) : Except FileError Location := do
  d.requireDir here
  if piece = "" ∨ piece = "." then return here
  if piece = ".." then return here.dropLast
  if (d.at? (here ++ [piece])).isNone then throw .notFound
  return here ++ [piece]

/-- Follows a path to something that exists. -/
def locate (d : Disk) (path : Path) : Except FileError Location :=
  if path.text = "" then .error .notFound else path.pieces.foldlM d.follow []

/-- What stands at a path. -/
def entry (d : Disk) (path : Path) : Except FileError (Entry Bytes) := do
  match d.at? (← d.locate path) with
  | some e => return e
  | none => throw .notFound

/-- Where a path would put something new. -/
structure Slot where
  /-- The directory. -/
  parent : Location
  /-- The name in it. -/
  name : String
  proper : Listing.isEntryName name
  /-- Whether the path ends in a separator. -/
  slashed : Bool

/-- Follows a path up to its last piece that is not empty. There is no slot where that piece leads
    to a directory by itself. -/
def slot (d : Disk) (path : Path) : Except FileError (Option Slot) := do
  if path.text = "" then throw .notFound
  let slashed := path.pieces.getLast? = some ""
  match path.pieces.reverse.dropWhile (· = "") with
  | [] => return none
  | name :: before =>
    -- everything in front of the last piece must exist already
    let parent ← before.reverse.foldlM d.follow []
    d.requireDir parent
    if h : Listing.isEntryName name then return some ⟨parent, name, h, slashed⟩ else return none

/-! ## Operations -/

/-- The content of a file. -/
def read (d : Disk) (path : Path) : Except FileError Bytes := do
  match ← d.entry path with
  | .file content => return content
  | .dir _ => throw .isDirectory

/-- Writes a file, a new one if there is none. -/
def write (d : Disk) (path : Path) (content : Bytes) : Except FileError Disk := do
  match ← d.slot path with
  | none => throw .isDirectory
  | some s =>
    if s.slashed then throw .isDirectory
    match d.at? (s.parent ++ [s.name]) with
    | some (.dir _) => throw .isDirectory
    | _ =>
      return ⟨d.top.putAt (.file content) (s.parent ++ [s.name]),
        Listing.proper_putAt d.proper s.proper trivial⟩

/-- Makes one directory. -/
def makeDir (d : Disk) (path : Path) : Except FileError Disk := do
  match ← d.slot path with
  | none => throw .alreadyExists
  | some s =>
    match d.at? (s.parent ++ [s.name]) with
    | some _ => throw .alreadyExists
    | none =>
      return ⟨d.top.putAt (.dir .empty) (s.parent ++ [s.name]),
        Listing.proper_putAt d.proper s.proper trivial⟩

/-- Removes a file or a directory with all that is in it. -/
def remove (d : Disk) (path : Path) : Except FileError Disk := do
  return ⟨d.top.eraseAt (← d.locate path), Listing.proper_eraseAt d.proper⟩

end Disk

end Lineage
