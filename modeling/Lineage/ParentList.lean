import Lineage.Text.Blank

/-!
# Parent lists

Markup attributes and composition calls name several parents in one text, separated by commas.
Reading such a text trims each part, drops the empty ones and keeps the first of equal names.
-/

namespace Lineage

/-- The trimmed, nonempty parts of a comma-separated text, in order. -/
def commaParts (raw : String) : List String :=
  ((raw.toList.splitOn ',').map fun part => String.ofList (trimBlank part)).filter (· ≠ "")

/-- The distinct names of a comma-separated text, in order of first occurrence. -/
def parentList (raw : String) : List String := (commaParts raw).eraseDups

end Lineage
