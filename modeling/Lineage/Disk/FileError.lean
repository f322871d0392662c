/-!
# File errors

The ways in which an operation on a file or directory fails, with their wording.
-/

namespace Lineage

/-- Why an operation on a path failed. -/
inductive FileError where
  | notFound
  | alreadyExists
  | notDirectory
  | isDirectory
  /-- A file read as text does not hold UTF-8. -/
  | notText
  /-- Any other failure, in the system's words. -/
  | other (wording : String)
  deriving DecidableEq, Repr

/-- The wording of a file error. -/
def FileError.message : FileError → String
  | .notFound => "No such file or directory (os error 2)"
  | .alreadyExists => "File exists (os error 17)"
  | .notDirectory => "Not a directory (os error 20)"
  | .isDirectory => "Is a directory (os error 21)"
  | .notText => "stream did not contain valid UTF-8"
  | .other wording => wording

end Lineage
