/-!
# Class lines

A class is declared by a comment line: the marker, the class name and, after a colon, its parents.
-/

namespace Lineage

/-- A class declaration. -/
structure ClassLine where
  name : String
  parents : List String
  deriving DecidableEq, Repr

namespace ClassLine

/-- The class with its parents, without the marker. -/
def declaration (c : ClassLine) : String :=
  if c.parents = [] then c.name else c.name ++ ": " ++ ", ".intercalate c.parents

/-- The whole line, newline included. -/
def render (c : ClassLine) (marker : String) : String :=
  marker ++ " " ++ c.declaration ++ "\n"

end ClassLine

end Lineage
