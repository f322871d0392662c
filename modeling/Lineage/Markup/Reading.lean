import Lineage.Markup.Attribute
import Lineage.Markup.Relations

/-!
# Reading markup

Markup is text with constructs in angle brackets: tags, comments, character data, processing
instructions and document types. A reading lists the elements whose start tags were read in order,
and the fault that ended it, if one did. End tags must match start tags, but the text may end
before every element is closed.

## Main definitions

- `construct` reads one construct behind an opening bracket
- `element` reads the parts of a start tag that matter
- `read` is the reading of a whole content
-/

namespace Lineage

namespace Markup

/-! ## Faults -/

/-- A construct that is skipped. -/
inductive Aside where
  | comment
  | characterData
  | documentType
  | instruction
  deriving DecidableEq, Repr

/-- Why a construct cannot be read. -/
inductive SyntaxFault where
  | tagNotClosed
  | unknownMark
  | notClosed (aside : Aside)
  /-- A document type without a name. -/
  | unnamedType
  | mismatchedEnd (expected found : String)
  | unmatchedEnd (found : String)
  deriving DecidableEq, Repr

/-- The wording of a fault. -/
def SyntaxFault.message : SyntaxFault → String
  | .tagNotClosed => "syntax error: tag not closed: `>` not found before end of input"
  | .unknownMark => "syntax error: unknown or missed symbol in markup"
  | .notClosed .comment => "syntax error: comment not closed: `-->` not found before end of input"
  | .notClosed .characterData =>
    "syntax error: CDATA not closed: `]]>` not found before end of input"
  | .notClosed .documentType =>
    "syntax error: DOCTYPE not closed: `>` not found before end of input"
  | .notClosed .instruction =>
    "syntax error: processing instruction or xml declaration not closed: "
      ++ "`?>` not found before end of input"
  | .unnamedType =>
    "ill-formed document: `<!DOCTYPE>` declaration does not contain a name of a document type"
  | .mismatchedEnd expected found =>
    s!"ill-formed document: expected `</{expected}>`, but `</{found}>` was found"
  | .unmatchedEnd found =>
    s!"ill-formed document: close tag `</{found}>` does not match any open tag"

/-- Why markup cannot be read further. -/
inductive Fault where
  /-- A construct is at fault; so many bytes were read, itself included. -/
  | syntaxAt (fault : SyntaxFault) (offset : Nat)
  | inAttribute (fault : AttributeFault)
  deriving DecidableEq, Repr

/-- The wording of a fault. -/
def Fault.message : Fault → String
  | .syntaxAt fault offset => s!"{fault.message} at byte {offset}"
  | .inAttribute fault => fault.message

/-! ## Finding the end of a construct -/

/-- Splits at the first closing bracket in front of which the bytes read so far, in reverse,
    satisfy a condition. -/
def splitAtClose (closes : Bytes → Bool) (read : Bytes) : Bytes → Option (Bytes × Bytes)
  | [] => none
  | b :: rest =>
    if b == 0x3E && closes read then some (read.reverse, rest)
    else splitAtClose closes (b :: read) rest

/-- Splits at the first closing bracket that closes more than was opened. -/
def splitBalanced (depth : Nat) (read : Bytes) : Bytes → Option (Bytes × Bytes)
  | [] => none
  | b :: rest =>
    if b == 0x3C then splitBalanced (depth + 1) (b :: read) rest
    else if b == 0x3E then
      match depth with
      | 0 => some (read.reverse, rest)
      | depth + 1 => splitBalanced depth (b :: read) rest
    else splitBalanced depth (b :: read) rest

/-- Splits at the first closing bracket outside quotes. -/
def splitUnquoted (quote : Option UInt8) (read : Bytes) : Bytes → Option (Bytes × Bytes)
  | [] => none
  | b :: rest =>
    match quote with
    | some q => splitUnquoted (if b == q then none else some q) (b :: read) rest
    | none =>
      if b == 0x3E then some (read.reverse, rest)
      else splitUnquoted (if isQuote b then some b else none) (b :: read) rest

theorem length_lt_of_splitAtClose {closes : Bytes → Bool} {read bs content rest : Bytes}
    (h : splitAtClose closes read bs = some (content, rest)) : rest.length < bs.length := by
  induction bs generalizing read with
  | nil => simp [splitAtClose] at h
  | cons b bs ih =>
    unfold splitAtClose at h
    split at h
    · cases h; simp
    · have := ih h; simp; omega

theorem length_lt_of_splitBalanced {depth : Nat} {read bs content rest : Bytes}
    (h : splitBalanced depth read bs = some (content, rest)) : rest.length < bs.length := by
  induction bs generalizing depth read with
  | nil => simp [splitBalanced] at h
  | cons b bs ih =>
    unfold splitBalanced at h
    split at h
    · have := ih h; simp; omega
    · split at h
      · split at h
        · cases h; simp
        · have := ih h; simp; omega
      · have := ih h; simp; omega

theorem length_lt_of_splitUnquoted {quote : Option UInt8} {read bs content rest : Bytes}
    (h : splitUnquoted quote read bs = some (content, rest)) : rest.length < bs.length := by
  induction bs generalizing quote read with
  | nil => simp [splitUnquoted] at h
  | cons b bs ih =>
    unfold splitUnquoted at h
    split at h
    · have := ih h; simp; omega
    · split at h
      · cases h; simp
      · have := ih h; simp; omega

/-! ## One construct -/

/-- A construct of markup. -/
inductive Construct where
  | aside
  | endTag (name : Bytes)
  /-- A start tag; the content stands between the brackets. -/
  | startTag (content : Bytes)
  /-- The tag of an empty element; the content stands in front of the slash. -/
  | emptyTag (content : Bytes)
  deriving DecidableEq, Repr

/-- The end of a construct that starts with an exclamation mark: by the byte after the mark, its
    kind and the split of what starts with the mark. -/
def aside? (bs : Bytes) : Option (Aside × Option (Bytes × Bytes)) :=
  match bs with
  | _ :: 0x5B :: _ => some (.characterData, splitAtClose ([0x5D, 0x5D].isPrefixOf ·) [] bs)
  | _ :: 0x2D :: _ =>
    some (.comment, splitAtClose (fun r => [0x2D, 0x2D].isPrefixOf r && 5 ≤ r.length) [] bs)
  | _ :: 0x44 :: _ | _ :: 0x64 :: _ => some (.documentType, splitBalanced 0 [] bs)
  | _ => none

/-- A byte with capital letters made small. -/
def lowerByte (b : UInt8) : UInt8 := if 0x41 ≤ b && b ≤ 0x5A then b + 0x20 else b

/-- Checks what stands in an aside, exclamation mark included. -/
def checkAside (kind : Aside) (content : Bytes) : Option SyntaxFault :=
  let starts :=
    match kind with
    | .characterData => (Utf8.ofString "![CDATA[").isPrefixOf content
    | .comment => (Utf8.ofString "!--").isPrefixOf content
    | .documentType => (Utf8.ofString "!doctype").isPrefixOf (content.map lowerByte)
    | .instruction => true
  if !starts then some (.notClosed kind)
  else if kind = .documentType ∧ (content.drop 8).all isSpace then some .unnamedType
  else none

/-- The name in an end tag. Blanks behind it do not belong to it, unless there is nothing else. -/
def endTagName (content : Bytes) : Bytes :=
  match content.reverse.dropWhile isSpace with
  | [] => content
  | kept => kept.reverse

/-- A start tag or the tag of an empty element. -/
def tagOf (content : Bytes) : Construct :=
  match content.reverse with
  | 0x2F :: before => .emptyTag before.reverse
  | _ => .startTag content

/-- Reads the construct behind an opening bracket. Either way the bytes behind what was read are
    left over. -/
def construct (bs : Bytes) : Except (SyntaxFault × Bytes) (Construct × Bytes) :=
  match bs with
  | [] => .error (.tagNotClosed, [])
  | 0x21 :: _ =>
    match aside? bs with
    -- only the bracket counts as read
    | none => .error (.unknownMark, bs)
    | some (kind, none) => .error (.notClosed kind, [])
    | some (kind, some (content, rest)) =>
      match checkAside kind content with
      | some fault => .error (fault, rest)
      | none => .ok (.aside, rest)
  | 0x3F :: _ =>
    match splitAtClose ([0x3F].isPrefixOf ·) [] bs with
    | none => .error (.notClosed .instruction, [])
    | some (content, rest) =>
      -- the question mark that opens an instruction does not close it
      if content.length = 1 then .error (.notClosed .instruction, rest) else .ok (.aside, rest)
  | 0x2F :: afterSlash =>
    match splitUnquoted none [] afterSlash with
    | none => .error (.tagNotClosed, [])
    | some (content, rest) => .ok (.endTag (endTagName content), rest)
  | _ =>
    match splitUnquoted none [] bs with
    | none => .error (.tagNotClosed, [])
    | some (content, rest) => .ok (tagOf content, rest)

theorem length_lt_of_aside? {bs content rest : Bytes} {kind : Aside}
    (h : aside? bs = some (kind, some (content, rest))) : rest.length < bs.length := by
  unfold aside? at h
  split at h <;> simp only [Option.some.injEq, Prod.mk.injEq, reduceCtorEq] at h
  · exact length_lt_of_splitAtClose h.2
  · exact length_lt_of_splitAtClose h.2
  · exact length_lt_of_splitBalanced h.2
  · exact length_lt_of_splitBalanced h.2

/-- A construct takes up at least one byte. -/
theorem length_lt_of_construct {bs rest : Bytes} {c : Construct}
    (h : construct bs = .ok (c, rest)) : rest.length < bs.length := by
  unfold construct at h
  split at h
  · cases h
  · split at h
    · cases h
    · cases h
    · rename_i hs
      split at h
      · cases h
      · cases h; exact length_lt_of_aside? hs
  · split at h
    · cases h
    · rename_i hs
      split at h
      · cases h
      · cases h; exact length_lt_of_splitAtClose hs
  · split at h
    · cases h
    · rename_i hs
      cases h
      have := length_lt_of_splitUnquoted hs
      simp; omega
  · split at h
    · cases h
    · rename_i hs
      cases h; exact length_lt_of_splitUnquoted hs

/-! ## Elements -/

/-- The name of a tag. -/
def tagName (content : Bytes) : Bytes := content.takeWhile (!isSpace ·)

/-- Takes an attribute into account: a name, a mixin list or an inheritance list, whichever the
    local part of its key says. -/
def withAttribute (e : Element) (a : Attribute) : Except AttributeFault Element := do
  let key := localName a.key
  if key = Utf8.ofString "name" then return { e with name := ← a.text }
  else if key = Utf8.ofString "mixin" then return { e with mixin := ← a.text }
  else if key = Utf8.ofString "inherits" then return { e with inherits := ← a.text }
  else return e

/-- The element of a start tag. -/
def element (content : Bytes) : Except AttributeFault Element := do
  let (found, fault) := attributes content
  let e ← found.foldlM withAttribute ⟨Utf8.lossy (localName (tagName content)), "", "", ""⟩
  match fault with
  | none => return e
  | some fault => throw fault

/-! ## Whole contents -/

/-- The elements that were read, and the fault that ended the reading, if one did. -/
structure Reading where
  elements : List Element
  fault : Option Fault
  deriving DecidableEq, Repr

/-- A reading with an element in front. -/
def Reading.cons (e : Element) (r : Reading) : Reading := { r with elements := e :: r.elements }

/-- A name for a message; one that is not UTF-8 is left out. -/
def shownName (name : Bytes) : String := (Utf8.decode name).toOption.getD ""

/-- Checks an end tag against the innermost open tag and gives the tags still open. -/
def close (openTags : List Bytes) (name : Bytes) : Except SyntaxFault (List Bytes) :=
  match openTags with
  | [] => .error (.unmatchedEnd (shownName name))
  | expected :: outer =>
    if name = expected then .ok outer
    else .error (.mismatchedEnd (shownName expected) (shownName name))

/-- Reads the rest of a content of a given length inside some open tags, the innermost one first. -/
def readFrom (length : Nat) (openTags : List Bytes) (bs : Bytes) : Reading :=
  match _ht : bs.dropWhile (· != 0x3C) with
  | [] => ⟨[], none⟩
  | _ :: afterBracket =>
    match _hc : construct afterBracket with
    | .error (fault, rest) => ⟨[], some (.syntaxAt fault (length - rest.length))⟩
    | .ok (.aside, rest) => readFrom length openTags rest
    | .ok (.endTag name, rest) =>
      match close openTags name with
      | .ok outer => readFrom length outer rest
      | .error fault => ⟨[], some (.syntaxAt fault (length - rest.length))⟩
    | .ok (.startTag content, rest) =>
      match element content with
      | .ok e => (readFrom length (tagName content :: openTags) rest).cons e
      | .error fault => ⟨[], some (.inAttribute fault)⟩
    | .ok (.emptyTag content, rest) =>
      match element content with
      | .ok e => (readFrom length openTags rest).cons e
      | .error fault => ⟨[], some (.inAttribute fault)⟩
  termination_by bs.length
  decreasing_by
    all_goals
      have h1 := (List.dropWhile_suffix (l := bs) (· != 0x3C)).length_le
      rw [_ht] at h1
      have h2 := length_lt_of_construct _hc
      simp only [List.length_cons] at h1
      omega

/-- A content without the byte order mark that it may start with. -/
def withoutMark : Bytes → Bytes
  | 0xEF :: 0xBB :: 0xBF :: rest => rest
  | bs => bs

/-- The reading of a content. -/
def read (content : Bytes) : Reading :=
  let body := withoutMark content
  readFrom body.length [] body

end Markup

end Lineage
