import Lineage.Proofs.Markup.Escaping
import Lineage.Proofs.Markup.Parts

/-!
# Well-formed tags

The start tag of an element, as it may be written: its attributes in any order and in either kind of
quotes, with blanks in front of them, their values escaped. No closing bracket stands in its names
and values, and quotes only around values, so a tag ends where its bracket was put.

## Main definitions

- `Word` and `Tag` are names
- `StartTag` is an element with the way in which its tag is written
- `Inside` holds for bytes in which a tag does not end

## Main statements

- `StartTag.construct_append`, `StartTag.construct_append_slash` and `Tag.construct_append`: start
  tags, tags of empty elements and end tags
-/

namespace Lineage

namespace Markup

variable {b : UInt8} {bs cs rest : Bytes}

/-! ## Names -/

/-- A byte that stands in names: an ASCII letter or a colon. -/
def isNameByte (b : UInt8) : Bool := (0x41 ≤ b && b ≤ 0x5A) || (0x61 ≤ b && b ≤ 0x7A) || b == 0x3A

theorem ne_of_isNameByte {other : UInt8} (h : isNameByte b = true)
    (hother : isNameByte other = false) : b ≠ other := by
  rintro rfl
  rw [h] at hother
  cases hother

theorem isSpace_of_isNameByte (h : isNameByte b = true) : isSpace b = false := by
  cases hspace : isSpace b with
  | false => rfl
  | true =>
    simp only [isSpace, Bool.or_eq_true, beq_iff_eq] at hspace
    rcases hspace with ((rfl | rfl) | rfl) | rfl <;> cases h

/-- A nonempty run of ASCII letters. -/
structure Word where
  letters : List Char
  ne_nil : letters ≠ []
  isAlpha : letters.all Char.isAlpha = true

/-- How a word is written. -/
def Word.bytes (w : Word) : Bytes := Utf8.encode w.letters

theorem Word.bytes_ne_nil (w : Word) : w.bytes ≠ [] := by
  rw [bytes, ne_eq, Utf8.encode_eq_nil_iff]
  exact w.ne_nil

theorem Word.isNameByte_of_mem {w : Word} (h : b ∈ w.bytes) : isNameByte b = true ∧ b ≠ 0x3A := by
  obtain ⟨c, hc, hb⟩ := List.mem_flatMap.mp h
  have hrange : 65 ≤ c.toNat ∧ c.toNat ≤ 90 ∨ 97 ≤ c.toNat ∧ c.toNat ≤ 122 := by
    have halpha : (decide (65 ≤ c.val ∧ c.val ≤ 90) || (97 ≤ c.val && c.val ≤ 122)) = true :=
      List.all_eq_true.mp w.isAlpha c hc
    simp only [Bool.or_eq_true, Bool.and_eq_true, decide_eq_true_eq, UInt32.le_iff_toNat_le]
      at halpha
    exact halpha
  rw [Utf8.encodeChar_of_ascii (by omega), List.mem_singleton] at hb
  have hcode : b.toNat = c.toNat := by
    rw [hb, UInt8.toNat_ofNat']
    omega
  simp only [isNameByte, Bool.or_eq_true, Bool.and_eq_true, decide_eq_true_eq, beq_iff_eq, ne_eq,
    UInt8.le_iff_toNat_le, ← UInt8.toNat_inj, UInt8.reduceToNat, hcode]
  omega

/-- The name of an element, behind the name of a namespace if there is one. -/
structure Tag where
  scope : Option Word
  name : Word

/-- How a tag is written. -/
def Tag.bytes (t : Tag) : Bytes :=
  match t.scope with
  | none => t.name.bytes
  | some scope => scope.bytes ++ 0x3A :: t.name.bytes

theorem Tag.isNameByte_of_mem {t : Tag} (h : b ∈ t.bytes) : isNameByte b = true := by
  unfold bytes at h
  split at h
  · exact (Word.isNameByte_of_mem h).1
  · rw [List.mem_append, List.mem_cons] at h
    rcases h with h | rfl | h
    · exact (Word.isNameByte_of_mem h).1
    · rfl
    · exact (Word.isNameByte_of_mem h).1

theorem Tag.bytes_ne_nil (t : Tag) : t.bytes ≠ [] := by
  unfold bytes
  split
  · exact t.name.bytes_ne_nil
  · simp

/-! ## Attributes -/

/-- What an element says about the hierarchy. -/
inductive Key where
  | name
  | mixin
  | inherits
  deriving DecidableEq

def Key.word : Key → Word
  | .name => ⟨"name".toList, by decide, by decide⟩
  | .mixin => ⟨"mixin".toList, by decide, by decide⟩
  | .inherits => ⟨"inherits".toList, by decide, by decide⟩

/-- A quote around a value. -/
inductive Quote where
  | single
  | double

def Quote.byte : Quote → UInt8
  | .single => 0x27
  | .double => 0x22

inductive Blank where
  | space
  | tab
  | newline
  | carriageReturn

def Blank.byte : Blank → UInt8
  | .space => 0x20
  | .tab => 0x09
  | .newline => 0x0A
  | .carriageReturn => 0x0D

theorem Quote.isQuote_byte (quote : Quote) : isQuote quote.byte = true := by
  cases quote <;> rfl

theorem Quote.isSpace_byte (quote : Quote) : isSpace quote.byte = false := by
  cases quote <;> rfl

theorem Blank.isSpace_of_mem {blanks : List Blank} (h : b ∈ blanks.map Blank.byte) :
    isSpace b = true := by
  obtain ⟨blank, -, rfl⟩ := List.mem_map.mp h
  cases blank <;> rfl

/-- How an attribute is written: behind some blanks and in some quotes. -/
structure Place where
  key : Key
  quote : Quote
  blanks : List Blank
  separated : blanks ≠ []

/-- How a value is written. -/
def valueBytes (value : String) : Bytes := Utf8.encode (Reference.escape value.toList)

/-- An attribute with its blanks. -/
def Place.bytes (p : Place) (value : String) : Bytes :=
  p.blanks.map Blank.byte
    ++ (p.key.word.bytes ++ 0x3D :: p.quote.byte :: (valueBytes value ++ [p.quote.byte]))

/-- Special characters do not stand in a value. -/
theorem not_mem_valueBytes (hb : b.toNat < 128)
    (hspecial : Reference.name? (Char.ofNat b.toNat) ≠ none) (hreference : b ≠ 0x26)
    (value : String) : b ∉ valueBytes value := by
  intro hmem
  obtain ⟨c, hc, hcode⟩ := (Utf8.mem_encode_iff hb).mp hmem
  have hchar : Char.ofNat b.toNat = c := by
    rw [← hcode, Char.ofNat_toNat]
  rw [hchar] at hspecial
  refine Reference.not_mem_escape hspecial ?_ _ hc
  rintro rfl
  apply hreference
  rw [← UInt8.toNat_inj, ← hcode]
  rfl

/-- An element, with the way in which its tag is written: every attribute at most once, and one that
    is left out says nothing. -/
structure StartTag where
  tag : Tag
  value : Key → String
  places : List Place
  nodup : (places.map (·.key)).Nodup
  omitted : ∀ key, key ∉ places.map (·.key) → value key = ""
  tail : List Blank

namespace StartTag

/-- The element that is written. -/
def element (t : StartTag) : Element :=
  ⟨String.ofList t.tag.name.letters, t.value .name, t.value .mixin, t.value .inherits⟩

/-- The attributes, with the blanks behind them. -/
def attributeBytes (t : StartTag) : Bytes :=
  t.places.flatMap (fun p => p.bytes (t.value p.key)) ++ t.tail.map Blank.byte

/-- What stands between the brackets. -/
def content (t : StartTag) : Bytes := t.tag.bytes ++ t.attributeBytes

end StartTag

/-! ## The end of a tag -/

/-- No tag ends inside some bytes, no quote is open behind them, and they do not end in a slash. -/
structure Inside (bs : Bytes) : Prop where
  split : ∀ read rest,
    splitUnquoted none read (bs ++ rest) = splitUnquoted none (bs.reverse ++ read) rest
  last : bs.getLast? ≠ some 0x2F

theorem inside_nil : Inside [] := ⟨fun _ _ => rfl, nofun⟩

theorem Inside.append (hbs : Inside bs) (hcs : Inside cs) : Inside (bs ++ cs) where
  split read rest := by
    rw [List.append_assoc, hbs.split, hcs.split, List.reverse_append, List.append_assoc]
  last := by
    have hlast := hcs.last
    rw [List.getLast?_append]
    cases hend : cs.getLast? with
    | none => exact hbs.last
    | some b =>
      rw [hend] at hlast
      exact hlast

theorem inside_of_plain (h : ∀ b ∈ bs, b ≠ 0x3E ∧ b ≠ 0x2F ∧ isQuote b = false) : Inside bs where
  split := by
    induction bs with
    | nil => exact fun _ _ => rfl
    | cons b bs ih =>
      intro read rest
      obtain ⟨hclose, -, hquote⟩ := h b (List.mem_cons_self ..)
      have hrest := ih fun b hb => h b (List.mem_cons_of_mem _ hb)
      rw [List.cons_append, splitUnquoted, if_neg (by simpa using hclose), hquote]
      simp only [Bool.false_eq_true, if_false]
      rw [hrest, List.reverse_cons, List.append_assoc]
      rfl
  last := fun hlast => (h _ (List.mem_of_getLast? hlast)).2.1 rfl

/-- A quote is closed by the next one of its kind. -/
theorem splitUnquoted_quoted {quote : UInt8} (h : quote ∉ bs) (read rest : Bytes) :
    splitUnquoted (some quote) read (bs ++ quote :: rest)
      = splitUnquoted none (quote :: (bs.reverse ++ read)) rest := by
  induction bs generalizing read with
  | nil =>
    rw [List.nil_append, splitUnquoted, if_pos (by simp)]
    rfl
  | cons b bs ih =>
    rw [List.mem_cons, not_or] at h
    rw [List.cons_append, splitUnquoted, if_neg (by simpa using Ne.symm h.1), ih h.2]
    simp

theorem inside_quoted {quote : UInt8} (hquote : isQuote quote = true) (h : quote ∉ bs) :
    Inside (quote :: (bs ++ [quote])) where
  split read rest := by
    have hclose : quote ≠ 0x3E := by
      rintro rfl
      cases hquote
    rw [List.cons_append, splitUnquoted, if_neg (by simpa using hclose), if_pos hquote,
      List.append_assoc, List.singleton_append, splitUnquoted_quoted h]
    simp
  last := by
    rw [← List.cons_append, List.getLast?_concat]
    rintro ⟨⟩
    cases hquote

theorem inside_blanks (blanks : List Blank) : Inside (blanks.map Blank.byte) := by
  apply inside_of_plain
  intro b hb
  obtain ⟨blank, -, rfl⟩ := List.mem_map.mp hb
  cases blank <;> decide

theorem inside_of_isNameByte (h : ∀ b ∈ bs, isNameByte b = true) : Inside bs := by
  apply inside_of_plain
  intro b hb
  have hname : ∀ other, isNameByte other = false → b ≠ other :=
    fun _ => ne_of_isNameByte (h b hb)
  refine ⟨hname _ rfl, hname _ rfl, ?_⟩
  simp [isQuote, hname 0x22 rfl, hname 0x27 rfl]

/-- A value does not hold the quotes around it. -/
theorem Quote.not_mem_valueBytes (quote : Quote) (value : String) :
    quote.byte ∉ valueBytes value := by
  cases quote
  · exact Markup.not_mem_valueBytes (by decide) (by decide) (by decide) value
  · exact Markup.not_mem_valueBytes (by decide) (by decide) (by decide) value

theorem Place.inside_bytes (p : Place) (value : String) : Inside (p.bytes value) := by
  have hkey : Inside p.key.word.bytes :=
    inside_of_isNameByte fun _ hb => (Word.isNameByte_of_mem hb).1
  have hequals : Inside [0x3D] := inside_of_plain (List.forall_mem_singleton.mpr (by decide))
  have hvalue := inside_quoted p.quote.isQuote_byte (p.quote.not_mem_valueBytes value)
  exact (inside_blanks p.blanks).append (hkey.append (hequals.append hvalue))

theorem Tag.inside_bytes (t : Tag) : Inside t.bytes :=
  inside_of_isNameByte fun _ => isNameByte_of_mem

theorem StartTag.inside_content (t : StartTag) : Inside t.content := by
  refine t.tag.inside_bytes.append (Inside.append ?_ (inside_blanks t.tail))
  generalize t.places = places
  induction places with
  | nil => exact inside_nil
  | cons p places ih =>
    rw [List.flatMap_cons]
    exact (p.inside_bytes _).append ih

theorem Inside.splitUnquoted_close (h : Inside bs) :
    splitUnquoted none [] (bs ++ 0x3E :: rest) = some (bs, rest) := by
  rw [h.split, splitUnquoted, if_pos (by decide)]
  simp

/-! ## Constructs -/

theorem Tag.endTagName_bytes (t : Tag) : endTagName t.bytes = t.bytes := by
  have hkept : t.bytes.reverse.dropWhile isSpace = t.bytes.reverse := by
    cases hreverse : t.bytes.reverse with
    | nil => rfl
    | cons b more =>
      have hb : b ∈ t.bytes := List.mem_reverse.mp (by rw [hreverse]; simp)
      exact List.dropWhile_cons_of_neg (by simp [isSpace_of_isNameByte (isNameByte_of_mem hb)])
  rw [endTagName, hkept]
  split
  · rfl
  · exact List.reverse_reverse _

/-- An end tag. -/
theorem Tag.construct_append (t : Tag) (rest : Bytes) :
    construct (0x2F :: (t.bytes ++ 0x3E :: rest)) = .ok (.endTag t.bytes, rest) := by
  rw [construct]
  simp only [t.inside_bytes.splitUnquoted_close, endTagName_bytes]

namespace StartTag

variable (t : StartTag)

theorem construct_content (bs : Bytes) :
    construct (t.content ++ bs) =
      match splitUnquoted none [] (t.content ++ bs) with
      | none => .error (.tagNotClosed, [])
      | some (content, rest) => .ok (tagOf content, rest) := by
  rw [content]
  cases hname : t.tag.bytes with
  | nil => exact absurd hname t.tag.bytes_ne_nil
  | cons b more =>
    have hb : isNameByte b = true := t.tag.isNameByte_of_mem (by rw [hname]; simp)
    exact construct_tag (ne_of_isNameByte hb rfl) (ne_of_isNameByte hb rfl)
      (ne_of_isNameByte hb rfl)

/-- A start tag. -/
theorem construct_append (rest : Bytes) :
    construct (t.content ++ 0x3E :: rest) = .ok (.startTag t.content, rest) := by
  have htag : tagOf t.content = .startTag t.content := by
    unfold tagOf
    split
    · rename_i before hreverse
      apply absurd _ t.inside_content.last
      rw [List.getLast?_eq_head?_reverse, hreverse]
      rfl
    · rfl
  rw [construct_content, t.inside_content.splitUnquoted_close]
  simp only [htag]

/-- The tag of an empty element. -/
theorem construct_append_slash (rest : Bytes) :
    construct (t.content ++ 0x2F :: 0x3E :: rest) = .ok (.emptyTag t.content, rest) := by
  have hsplit : splitUnquoted none [] (t.content ++ 0x2F :: 0x3E :: rest)
      = some (t.content ++ [0x2F], rest) := by
    rw [t.inside_content.split]
    simp [splitUnquoted, isQuote]
  rw [construct_content, hsplit]
  simp [tagOf]

end StartTag

end Markup

end Lineage
