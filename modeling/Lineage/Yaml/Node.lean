import Lineage.Yaml.Token

/-!
# Nodes

The values of a document as a tree: scalars, sequences, mappings and references to values that
were given a name. Missing values are empty scalars.

## Main definitions

- `Node`, with the kind of its references as a parameter
- `Node.ofTokens?` gives the root of the only document of a text
-/

namespace Lineage.Yaml

/-- A value of a document. -/
inductive Node (ρ : Type) where
  | alias (target : ρ)
  | scalar (anchor : Option (List Char)) (tag : Option (List Char)) (style : Style) (text : String)
  | sequence (anchor : Option (List Char)) (items : List (Node ρ))
  | mapping (anchor : Option (List Char)) (members : List (Node ρ × Node ρ))

namespace Node

/-- A node as written, with references by name. -/
abbrev Written := Node (List Char)

/-- The value of a place where nothing is written. -/
def missing : Written := .scalar none none .plain ""

/-! ## Properties -/

/-- What the handles of tags stand for. -/
abbrev Handles := List (List Char × List Char)

/-- The handles that every document has. -/
def standardHandles : Handles :=
  [("!".toList, "!".toList), ("!!".toList, "tag:yaml.org,2002:".toList)]

/-- The full text of a tag. -/
def tagName? (handles : Handles) (t : TagText) : Option (List Char) :=
  if t.handle.isEmpty then some t.suffix else (handles.lookup t.handle).map (· ++ t.suffix)

/-- What stands in front of a value. -/
structure Properties where
  anchor : Option (List Char)
  tag : Option TagText

/-- Whether there is nothing. -/
def Properties.isEmpty (p : Properties) : Bool := p.anchor.isNone && p.tag.isNone

/-- Reads an anchor and a tag in either order. -/
def properties : List Token → Properties × List Token
  | .anchor a :: .tag t :: rest => (⟨some a, some t⟩, rest)
  | .tag t :: .anchor a :: rest => (⟨some a, some t⟩, rest)
  | .anchor a :: rest => (⟨some a, none⟩, rest)
  | .tag t :: rest => (⟨none, some t⟩, rest)
  | rest => (⟨none, none⟩, rest)

/-! ## Values -/

/-- Where a value stands. -/
inductive Context where
  /-- Between brackets. -/
  | flow
  /-- In a block. -/
  | block
  /-- In a block mapping, where the items of a sequence need no further indentation. -/
  | member
  deriving DecidableEq

/-- Whether the next token is one of some that show a value to be missing. -/
def comesNext (stops : List Token) (tokens : List Token) : Bool :=
  tokens.head?.any stops.contains

mutual
/-- Reads a value. The bound decreases with every step into a value or on to the next one; each
    takes up a token or is the last one before that. -/
def value? (handles : Handles) (context : Context) :
    Nat → List Token → Option (Written × List Token)
  | 0, _ => none
  | _, .alias name :: rest => some (.alias name, rest)
  | bound + 1, tokens => do
    let (props, tokens) := properties tokens
    let tag ←
      match props.tag with
      | some t => (tagName? handles t).map some
      | none => some none
    match tokens with
    | .scalar style text :: rest =>
      let tag := if tag = some ['!'] then none else tag
      return (.scalar props.anchor tag style (String.ofList text), rest)
    | .flowStart .sequence :: rest =>
      let (items, rest) ← flowItems? handles true bound rest
      return (.sequence props.anchor items, rest)
    | .flowStart .mapping :: rest =>
      let (members, rest) ← flowMembers? handles true bound rest
      return (.mapping props.anchor members, rest)
    | .entry :: _ =>
      if context = .member then
        let (items, rest) ← looseItems? handles bound tokens
        return (.sequence props.anchor items, rest)
      else if props.isEmpty then none
      else return (.scalar props.anchor tag .plain "", tokens)
    | .blockStart .sequence :: rest =>
      if context = .flow then
        if props.isEmpty then none else return (.scalar props.anchor tag .plain "", tokens)
      else
        let (items, rest) ← blockItems? handles bound rest
        return (.sequence props.anchor items, rest)
    | .blockStart .mapping :: rest =>
      if context = .flow then
        if props.isEmpty then none else return (.scalar props.anchor tag .plain "", tokens)
      else
        let (members, rest) ← blockMembers? handles bound rest
        return (.mapping props.anchor members, rest)
    | _ => if props.isEmpty then none else return (.scalar props.anchor tag .plain "", tokens)
/-- Reads a value that is missing in front of some tokens. -/
def valueOrMissing? (handles : Handles) (context : Context) (stops : List Token) :
    Nat → List Token → Option (Written × List Token)
  | 0, _ => none
  | bound + 1, tokens =>
    if comesNext stops tokens then some (missing, tokens) else value? handles context bound tokens
/-- Reads the items of a sequence by indentation. -/
def blockItems? (handles : Handles) : Nat → List Token → Option (List Written × List Token)
  | 0, _ => none
  | bound + 1, .entry :: rest => do
    let (item, rest) ← valueOrMissing? handles .block [.entry, .blockEnd] bound rest
    let (items, rest) ← blockItems? handles bound rest
    return (item :: items, rest)
  | _, .blockEnd :: rest => some ([], rest)
  | _, _ => none
/-- Reads the items of a sequence without indentation of its own. -/
def looseItems? (handles : Handles) : Nat → List Token → Option (List Written × List Token)
  | 0, _ => none
  | bound + 1, .entry :: rest => do
    let (item, rest) ← valueOrMissing? handles .block [.entry, .key, .value, .blockEnd] bound rest
    let (items, rest) ← looseItems? handles bound rest
    return (item :: items, rest)
  | _, rest => some ([], rest)
/-- Reads the members of a mapping by indentation. -/
def blockMembers? (handles : Handles) :
    Nat → List Token → Option (List (Written × Written) × List Token)
  | 0, _ => none
  | bound + 1, .key :: rest => do
    let stops := [.key, .value, .blockEnd]
    let (key, rest) ← valueOrMissing? handles .member stops bound rest
    let (value, rest) ←
      match rest with
      | .value :: rest => valueOrMissing? handles .member stops bound rest
      | _ => some (missing, rest)
    let (members, rest) ← blockMembers? handles bound rest
    return ((key, value) :: members, rest)
  | _, .blockEnd :: rest => some ([], rest)
  | _, _ => none
/-- Reads the items of a sequence between brackets. A pair with a colon is a mapping of its own;
    where its key is missing, the token that shows it is passed over. -/
def flowItems? (handles : Handles) (first : Bool) :
    Nat → List Token → Option (List Written × List Token)
  | 0, _ => none
  | _, .flowEnd .sequence :: rest => some ([], rest)
  | bound + 1, tokens => do
    let tokens ←
      match first, tokens with
      | true, _ => some tokens
      | false, .comma :: rest => some rest
      | false, _ => none
    let stops := [.comma, .flowEnd .sequence]
    match tokens with
    | .flowEnd .sequence :: rest => return ([], rest)
    | .key :: rest =>
      let (key, rest) ←
        -- the token passed over may be the colon, so that the value is missing, too
        if comesNext (.value :: stops) rest then some (missing, rest.tail)
        else value? handles .flow bound rest
      let (value, rest) ←
        match rest with
        | .value :: rest => valueOrMissing? handles .flow stops bound rest
        | _ => some (missing, rest)
      let (items, rest) ← flowItems? handles false bound rest
      return (.mapping none [(key, value)] :: items, rest)
    | _ =>
      let (item, rest) ← value? handles .flow bound tokens
      let (items, rest) ← flowItems? handles false bound rest
      return (item :: items, rest)
/-- Reads the members of a mapping between brackets. -/
def flowMembers? (handles : Handles) (first : Bool) :
    Nat → List Token → Option (List (Written × Written) × List Token)
  | 0, _ => none
  | _, .flowEnd .mapping :: rest => some ([], rest)
  | bound + 1, tokens => do
    let tokens ←
      match first, tokens with
      | true, _ => some tokens
      | false, .comma :: rest => some rest
      | false, _ => none
    let stops := [.comma, .flowEnd .mapping]
    match tokens with
    | .flowEnd .mapping :: rest => return ([], rest)
    | .key :: rest =>
      let (key, rest) ← valueOrMissing? handles .flow (.value :: stops) bound rest
      let (value, rest) ←
        match rest with
        | .value :: rest => valueOrMissing? handles .flow stops bound rest
        | _ => some (missing, rest)
      let (members, rest) ← flowMembers? handles false bound rest
      return ((key, value) :: members, rest)
    | _ =>
      let (key, rest) ← value? handles .flow bound tokens
      let (members, rest) ← flowMembers? handles false bound rest
      return ((key, missing) :: members, rest)
end

/-! ## Documents -/

/-- The directives of a document. -/
structure Preamble where
  versioned : Bool
  handles : Handles

/-- Reads directives. Only versions 1.1 and 1.2 are known, and none may be given twice. -/
def preamble? (p : Preamble) : List Token → Option (Preamble × List Token)
  | .directive (.version major minor) :: rest =>
    if p.versioned ∨ major ≠ 1 ∨ minor ≠ 1 ∧ minor ≠ 2 then none
    else preamble? { p with versioned := true } rest
  | .directive (.handle name start) :: rest =>
    if (p.handles.lookup name).isSome then none
    else preamble? { p with handles := p.handles ++ [(name, start)] } rest
  | rest => some (p, rest)

/-- Whether a token ends a document. -/
def endsDocument : Token → Bool
  | .directive _ | .documentStart | .documentEnd | .textEnd => true
  | _ => false

/-- Reads a document: with directives and a marker, or without both. -/
def document? (tokens : List Token) : Option (Written × List Token) := do
  let bound := 4 * tokens.length + 4
  match tokens with
  | .directive _ :: _ | .documentStart :: _ =>
    match ← preamble? ⟨false, []⟩ tokens with
    | (p, .documentStart :: rest) =>
      if rest.head?.any endsDocument then return (missing, rest)
      else value? (p.handles ++ standardHandles) .block bound rest
    | _ => none
  | _ => value? standardHandles .block bound tokens

/-- Whether nothing follows a document but end markers. -/
def isLast (tokens : List Token) : Bool :=
  match tokens.dropWhile (· == .documentEnd) with
  | [.textEnd] => true
  | _ => false

/-- The root of the only document of a text, or nothing if there is no document. -/
def ofTokens? (tokens : List Token) : Option (Option Written) := do
  match tokens with
  | [.textEnd] => return none
  | _ =>
    let (root, rest) ← document? tokens
    if isLast rest then return some root else none

end Node

end Lineage.Yaml
