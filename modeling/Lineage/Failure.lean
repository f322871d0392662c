import Lineage.Disk.FileError
import Lineage.Path
import Lineage.Settings.Basic

/-!
# Failures

What stops a run, with its wording. Findings that do not stop a run are diagnostics.
-/

namespace Lineage

/-- What stops a run. -/
inductive Failure where
  /-- A file cannot be read or written. -/
  | access (path : Path) (cause : FileError)
  /-- A directory cannot be searched. -/
  | discovery (path : Path) (cause : FileError)
  /-- A markup file is at fault. -/
  | markup (path : Path) (message : String)
  | settings (cause : SettingsError)
  deriving DecidableEq, Repr

/-- The wording of a failure. -/
def Failure.message : Failure → String
  | .access path cause => s!"IO error at {path.text}: {cause.message}"
  | .discovery path cause =>
    s!"Walk error: IO error for operation on {path.text}: {cause.message}"
  | .markup path message => s!"Markup error in {path.text}: {message}"
  | .settings cause => s!"Configuration error: {cause.message}"

end Lineage
