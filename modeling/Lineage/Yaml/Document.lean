import Lineage.Yaml.Node

/-!
# Documents

A document whose references lead to values. Every value with a name gets a number, by which
references find it. A name that is given again gets a new number, which the next new name may get
as well; a reference leads to the last value with its number.

## Main definitions

- `Document.parse?` reads a text
- `Document.resolve` follows a reference
-/

namespace Lineage.Yaml

/-- A value with references by number. -/
abbrev Linked := Node Nat

/-- The numbers of the names given so far. -/
abbrev Names := List (List Char × Nat)

namespace Names

/-- Gives a name: its number is the count of distinct names before. -/
def give (names : Names) (name : List Char) : Names × Nat :=
  ((name, names.length) :: names.filter (·.1 ≠ name), names.length)

/-- Gives the name of a value that has one. -/
def giveAll (names : Names) (anchor : Option (List Char)) : Names × Option Nat :=
  match anchor with
  | some name => let (names, n) := names.give name; (names, some n)
  | none => (names, none)

end Names

/-- Values by their numbers, in the order in which they start. -/
abbrev Targets := List (Nat × Linked)

mutual
/-- Replaces names by numbers in a value, with the values that have a number. Every reference must
    be to a name given before. -/
def link? (names : Names) : Node.Written → Option (Linked × Targets × Names)
  | .alias name => (names.lookup name).map fun n => (.alias n, [], names)
  | .scalar anchor tag style text =>
    let (names, n) := names.giveAll anchor
    let linked := .scalar none tag style text
    some (linked, n.toList.map (·, linked), names)
  | .sequence anchor items => do
    let (names, n) := names.giveAll anchor
    let (items, targets, names) ← linkItems? names items
    let linked := .sequence none items
    return (linked, n.toList.map (·, linked) ++ targets, names)
  | .mapping anchor members => do
    let (names, n) := names.giveAll anchor
    let (members, targets, names) ← linkMembers? names members
    let linked := .mapping none members
    return (linked, n.toList.map (·, linked) ++ targets, names)
/-- Replaces names by numbers in items. -/
def linkItems? (names : Names) :
    List Node.Written → Option (List Linked × Targets × Names)
  | [] => some ([], [], names)
  | item :: items => do
    let (item, targets, names) ← link? names item
    let (items, more, names) ← linkItems? names items
    return (item :: items, targets ++ more, names)
/-- Replaces names by numbers in members. -/
def linkMembers? (names : Names) :
    List (Node.Written × Node.Written) → Option (List (Linked × Linked) × Targets × Names)
  | [] => some ([], [], names)
  | (key, value) :: members => do
    let (key, targets, names) ← link? names key
    let (value, others, names) ← link? names value
    let (members, more, names) ← linkMembers? names members
    return ((key, value) :: members, targets ++ others ++ more, names)
end

/-- A document: its root, if there is one, and what its references lead to. -/
structure Document where
  root : Option Linked
  /-- The values by their numbers, the last one first. -/
  targets : Targets

namespace Document

/-- The only document of a text. -/
def parse? (text : String) : Option Document := do
  let tokens ← Token.scan? text
  match ← Node.ofTokens? tokens with
  | none => return ⟨none, []⟩
  | some root =>
    let (root, targets, _) ← link? [] root
    return ⟨some root, targets.reverse⟩

/-- A value with a reference followed. No reference leads to another one. -/
def resolve (d : Document) (node : Linked) : Linked :=
  match node with
  | .alias n => (d.targets.lookup n).getD node
  | _ => node

end Document

end Lineage.Yaml
