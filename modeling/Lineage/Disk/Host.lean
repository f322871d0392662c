import Lineage.Disk.Basic

/-!
# Hosts

What a run needs of the machine it runs on: files and a clock. A `Disk` that is carried along
provides it, with a clock that stands still; so does any other host that answers in the same way.

## Main definitions

- `Host` has the operations
- `Host.makeDirs` makes a directory and those above it
-/

namespace Lineage

/-- The operations of a run on its surroundings. -/
class Host (m : Type → Type) where
  /-- What stands at a path, without the contents of files. Directories that cannot be listed stand
      as errors. -/
  entry : Path → m (Except FileError (Entry (Except FileError Unit)))
  /-- The content of a file. -/
  read : Path → m (Except FileError Bytes)
  /-- Writes a file, a new one if there is none. -/
  write : Path → Bytes → m (Except FileError Unit)
  /-- Makes one directory. -/
  makeDir : Path → m (Except FileError Unit)
  /-- The milliseconds since some fixed moment. -/
  now : m Nat

namespace Host

variable {m : Type → Type} [Monad m] [Host m]

/-- Whether a path leads to a directory. -/
def isDir (path : Path) : m Bool := do
  match ← entry path with
  | .ok (.dir _) | .ok (.file (.error _)) => return true
  | .ok (.file (.ok ())) | .error _ => return false

/-- Makes a directory, where an existing one will do. -/
def ensureDir (path : Path) : m (Except FileError Unit) := do
  match ← makeDir path with
  | .ok () => return .ok ()
  | .error cause => return if ← isDir path then .ok () else .error cause

/-- Makes a directory and those above it, with the number of levels bounded. What was made before
    a failure stays. -/
def makeDirsUpTo : Nat → Path → m (Except FileError Unit)
  | 0, _ => return .error .notFound
  | levels + 1, path => do
    if path.text = "" then return .ok ()
    match ← ensureDir path with
    | .ok () => return .ok ()
    | .error .notFound =>
      match path.parent? with
      | none => return .error (.other "failed to create whole tree")
      | some above =>
        match ← makeDirsUpTo levels above with
        | .ok () => ensureDir path
        | .error cause => return .error cause
    | .error cause => return .error cause

/-- Makes a directory and those above it. Every step up takes at least one piece away. -/
def makeDirs (path : Path) : m (Except FileError Unit) :=
  makeDirsUpTo (path.pieces.length + 1) path

end Host

/-- The result of an operation that changes a disk or fails. -/
def Disk.attempt (change : Disk → Except FileError Disk) : StateM Disk (Except FileError Unit) :=
  fun d =>
    match change d with
    | .ok changed => (.ok (), changed)
    | .error cause => (.error cause, d)

instance : Host (StateM Disk) where
  entry path := fun d => ((d.entry path).map (·.map fun _ => .ok ()), d)
  read path := fun d => (d.read path, d)
  write path content := Disk.attempt (·.write path content)
  makeDir path := Disk.attempt (·.makeDir path)
  now := pure 0

end Lineage
