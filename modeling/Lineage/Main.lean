import Lineage.CommandLine

/-!
# The program on a machine

Carries out the operations of a run on the files of the machine, and hands the arguments of the
command line on.
-/

namespace Lineage.Machine

/-! ## Errors -/

/-- A failed operation by the number that the system gives it, which some operations negate. -/
def errorOfNumber (number : UInt32) (details : String) : FileError :=
  let number := if number < 0x80000000 then number else 0 - number
  match number with
  | 2 => .notFound
  | 17 => .alreadyExists
  | 20 => .notDirectory
  | 21 => .isDirectory
  | _ => .other s!"{details} (os error {number})"

/-- A failed operation. -/
def fileError : IO.Error → FileError
  | .noFileOrDirectory _ number details
  | .interrupted _ number details
  | .alreadyExists _ number details
  | .invalidArgument _ number details
  | .permissionDenied _ number details
  | .resourceExhausted _ number details
  | .inappropriateType _ number details
  | .noSuchThing _ number details
  | .otherError number details
  | .resourceBusy number details
  | .resourceVanished number details
  | .unsupportedOperation number details
  | .hardwareFault number details
  | .unsatisfiedConstraints number details
  | .illegalOperation number details
  | .protocolError number details
  | .timeExpired number details => errorOfNumber number details
  | .unexpectedEof => .other "unexpected end of file"
  | .userError wording => .other wording

/-- Carries out an operation, with its failure as a value. -/
def attempt {α : Type} (act : IO α) : IO (Except FileError α) := do
  try
    return .ok (← act)
  catch cause =>
    return .error (fileError cause)

/-! ## Directories -/

/-- The number of directories inside one another that a path has room for. -/
def deepest : Nat := 2048

/-- The listing of the directory that an entry stands for, down to a depth, or why there is none.
    Neither file nor directory is what is left out. -/
def listing : Nat → IO.FS.DirEntry → IO (Except FileError (Listing (Except FileError Unit)))
  | 0, _ => return .ok .empty
  | depth + 1, here => do
    match ← attempt here.path.readDir with
    | .error cause => return .error cause
    | .ok entries =>
      let mut found : Listing (Except FileError Unit) := .empty
      for e in entries do
        match ← attempt e.path.symlinkMetadata with
        | .error cause => found := .file e.fileName (.error cause) found
        | .ok facts =>
          match facts.type with
          | .file => found := .file e.fileName (.ok ()) found
          | .dir =>
            match ← listing depth e with
            | .error cause => found := .file e.fileName (.error cause) found
            | .ok inside => found := .dir e.fileName inside found
          | _ => pure ()
      return .ok found

/-- What stands at a path. -/
def entry (path : Path) : IO (Entry (Except FileError Unit)) := do
  let here : IO.FS.DirEntry := ⟨path.text, ""⟩
  match (← here.root.metadata).type with
  | .dir =>
    match ← listing deepest here with
    | .error cause => return .file (.error cause)
    | .ok inside => return .dir inside
  | _ => return .file (.ok ())

instance : Host IO where
  entry path := attempt (entry path)
  read path := attempt do return (← IO.FS.readBinFile path.text).toList
  write path content := attempt (IO.FS.writeBinFile path.text ⟨content.toArray⟩)
  makeDir path := attempt (IO.FS.createDir path.text)
  now := IO.monoMsNow

/-- What the program can be asked to do. -/
def usage : String :=
  "Usage:\n" ++
  "  lineage annotate --corpus DIR --out DIR [--authoritative DIR] [--config FILE]\n" ++
  "    [--report FILE] [--workers COUNT] [--max-passes COUNT]\n" ++
  "  lineage meta --dir DIR [--config FILE]"

end Lineage.Machine

/-- Runs the program. -/
def main (arguments : List String) : IO UInt32 := do
  let ending : Lineage.Ending ← Lineage.program arguments
  match ending with
  | .success => pure ()
  | .help => IO.println Lineage.Machine.usage
  | .usage => IO.eprintln Lineage.Machine.usage
  | .failure cause => IO.eprintln cause.message
  return ending.status.toUInt32
