import Lineage.Markup.MarkupFile
import Lineage.Proofs.Markup.Attributes

/-!
# Well-formed documents

Elements may be nested to any depth, each one as a start tag and an end tag or, if nothing is in it,
as a single tag, with text between them. Such a document is read in full: every end tag matches the
innermost open tag, and the elements come in the order of their start tags.

## Main definitions

- `Forest` is a list of elements with all that is in them and with the way in which they are written
- `document` is a forest inside one more element

## Main statements

- `Forest.reads`: a forest is a part of markup that leaves the open tags alone
- `MarkupFile.ofContent_document`: what a document declares
-/

namespace Lineage

namespace Markup

/-- Elements with what is in them, in the order in which they are written. -/
inductive Forest where
  | nil
  /-- Text in front of other things. Brackets in it are escaped. -/
  | text (chars : List Char) (plain : '<' ∉ chars) (rest : Forest)
  /-- An element that is written as a single tag. -/
  | single (start : StartTag) (rest : Forest)
  /-- An element that is written as two tags, with what is in it between them. -/
  | pair (start : StartTag) (inside rest : Forest)

/-! ## Tags as parts -/

variable {openTags : List Bytes}

theorem StartTag.reads_start (t : StartTag) :
    Reads openTags (0x3C :: (t.content ++ [0x3E])) [t.element] (t.tag.bytes :: openTags) := by
  have hreads : ∀ rest, construct (t.content ++ [0x3E] ++ rest)
      = .ok (.startTag t.content, rest) := by
    intro rest
    rw [List.append_assoc]
    exact t.construct_append rest
  have heffect : (Construct.startTag t.content).effect? openTags
      = some (t.tag.bytes :: openTags, some t.element) := by
    rw [Construct.effect?, t.element_content, t.tagName_content]
    rfl
  exact reads_of_construct hreads heffect

theorem StartTag.reads_single (t : StartTag) :
    Reads openTags (0x3C :: (t.content ++ [0x2F, 0x3E])) [t.element] openTags := by
  have hreads : ∀ rest, construct (t.content ++ [0x2F, 0x3E] ++ rest)
      = .ok (.emptyTag t.content, rest) := by
    intro rest
    rw [List.append_assoc]
    exact t.construct_append_slash rest
  have heffect : (Construct.emptyTag t.content).effect? openTags
      = some (openTags, some t.element) := by
    rw [Construct.effect?, t.element_content]
    rfl
  exact reads_of_construct hreads heffect

theorem Tag.reads_end (t : Tag) :
    Reads (t.bytes :: openTags) (0x3C :: 0x2F :: (t.bytes ++ [0x3E])) [] openTags := by
  have hreads : ∀ rest, construct (0x2F :: (t.bytes ++ [0x3E]) ++ rest)
      = .ok (.endTag t.bytes, rest) := by
    intro rest
    rw [List.cons_append, List.append_assoc]
    exact t.construct_append rest
  have heffect : (Construct.endTag t.bytes).effect? (t.bytes :: openTags)
      = some (openTags, none) := by
    rw [Construct.effect?, close, if_pos rfl]
    rfl
  exact reads_of_construct hreads heffect

/-! ## Forests -/

namespace Forest

/-- The elements in the order of their start tags. -/
def elements : Forest → List Element
  | nil => []
  | text _ _ rest => rest.elements
  | single start rest => start.element :: rest.elements
  | pair start inside rest => start.element :: (inside.elements ++ rest.elements)

/-- How a forest is written. -/
def bytes : Forest → Bytes
  | nil => []
  | text chars _ rest => Utf8.encode chars ++ rest.bytes
  | single start rest => 0x3C :: (start.content ++ [0x2F, 0x3E]) ++ rest.bytes
  | pair start inside rest =>
    0x3C :: (start.content ++ [0x3E]) ++ inside.bytes
      ++ 0x3C :: 0x2F :: (start.tag.bytes ++ [0x3E]) ++ rest.bytes

/-- A forest closes all tags that it opens. -/
theorem reads (forest : Forest) (openTags : List Bytes) :
    Reads openTags forest.bytes forest.elements openTags := by
  induction forest generalizing openTags with
  | nil => exact .text openTags List.not_mem_nil
  | text chars plain rest ih =>
    refine Reads.append (.text openTags fun hbracket => plain ?_) (ih openTags)
    obtain ⟨c, hc, hcode⟩ := (Utf8.mem_encode_iff (by decide)).mp hbracket
    have hchar : c = '<' := by
      rw [← Char.ofNat_toNat c, hcode]
      rfl
    exact hchar ▸ hc
  | single start rest ih => exact start.reads_single.append (ih openTags)
  | pair start inside rest ih_inside ih =>
    have hinside := start.reads_start.append (ih_inside (start.tag.bytes :: openTags))
    have hclosed := hinside.append start.tag.reads_end
    rw [List.append_nil] at hclosed
    exact hclosed.append (ih openTags)

end Forest

/-! ## Documents -/

/-- A start tag without attributes. -/
def StartTag.ofTag (tag : Tag) : StartTag where
  tag := tag
  value := fun _ => ""
  places := []
  nodup := .nil
  omitted := fun _ _ => rfl
  tail := []

/-- A forest inside a root element. -/
def document (root : Tag) (forest : Forest) : Bytes :=
  (Forest.pair (.ofTag root) forest .nil).bytes

theorem read_document (root : Tag) (forest : Forest) :
    read (document root forest)
      = ⟨⟨String.ofList root.name.letters, "", "", ""⟩ :: forest.elements, none⟩ := by
  have hreads := (Forest.pair (.ofTag root) forest .nil).reads []
  have hmark : withoutMark (document root forest) = document root forest := rfl
  rw [read, hmark, document, hreads.readFrom_eq]
  show (⟨_ :: (forest.elements ++ []), none⟩ : Reading) = _
  rw [List.append_nil]
  rfl

end Markup

/-- A document declares what its elements declare in the order of their start tags, whatever they
    are and however they are written, and nothing in it is at fault. -/
theorem MarkupFile.ofContent_document (s : ScanSettings) (path : Path) (root : Markup.Tag)
    (forest : Markup.Forest) :
    MarkupFile.ofContent s path (Markup.document root forest)
      = .ok ⟨Relations.ofElements s.frameTags forest.elements, none⟩ := by
  have hroot : ∀ elements tag,
      Relations.ofElements s.frameTags (⟨tag, "", "", ""⟩ :: elements)
        = Relations.ofElements s.frameTags elements := by
    intro elements tag
    -- an element without a name declares nothing
    rfl
  rw [ofContent, Markup.read_document]
  exact congrArg (fun relations => Except.ok (MarkupFile.mk relations none)) (hroot ..)

namespace Markup

/-- Both kinds of tags, both kinds of quotes, and special characters in a value. -/
example :
    let button : StartTag :=
      { tag := ⟨none, ⟨"Button".toList, by decide, by decide⟩⟩
        value := fun
          | .name => "A<\"B\">"
          | .mixin => ""
          | .inherits => "C, D"
        places := [⟨.inherits, .double, [.space], by decide⟩, ⟨.name, .single, [.tab], by decide⟩]
        nodup := by decide
        omitted := by rintro ⟨⟩ <;> simp
        tail := [.space] }
    let frame : StartTag := .ofTag ⟨none, ⟨"Frame".toList, by decide, by decide⟩⟩
    let root : Tag := ⟨some ⟨"w".toList, by decide, by decide⟩, ⟨"Ui".toList, by decide, by decide⟩⟩
    document root (.pair frame (.text ['\n'] (by decide) (.single button .nil)) .nil)
      = Utf8.ofString ("<w:Ui><Frame>\n<Button inherits=\"C, D\"\tname='A&lt;&quot;B&quot;&gt;' />"
        ++ "</Frame></w:Ui>") := by
  decide +kernel

end Markup

end Lineage
