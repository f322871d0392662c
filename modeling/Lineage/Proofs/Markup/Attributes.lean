import Lineage.Proofs.Markup.Tags
import Lineage.Proofs.Text.Characters
import Mathlib.Data.List.TakeWhile

/-!
# The elements of well-formed tags

The attributes of a tag are read one after another: a key ends at its equals sign, a value at the
next quote of the kind that opened it, and no key comes twice. Each value says what it was written
for, so the element of the tag is the one that was to be written.

## Main statements

- `attributesFrom_place`: one attribute
- `attributesFrom_places`: all attributes of a tag
- `StartTag.element_content`: the element of a tag
-/

namespace Lineage

namespace Markup

variable {b : UInt8} {bs rest : Bytes}

/-! ## Attributes -/

theorem dropWhile_blanks (blanks : List Blank) (hb : isSpace b = false) :
    (blanks.map Blank.byte ++ b :: rest).dropWhile isSpace = b :: rest := by
  rw [List.dropWhile_append_of_pos]
  · exact List.dropWhile_cons_of_neg (by simp [hb])
  · exact fun _ => Blank.isSpace_of_mem

/-- Blanks at the end of a tag hold no attribute. -/
theorem attributesFrom_blanks (length : Nat) (seen : List (Bytes × Nat)) (blanks : List Blank) :
    attributesFrom length seen (blanks.map Blank.byte) = ([], none) := by
  have hnothing : (blanks.map Blank.byte).dropWhile isSpace = [] := by
    rw [List.dropWhile_eq_nil_iff]
    exact fun _ => Blank.isSpace_of_mem
  rw [attributesFrom]
  split
  · rfl
  · rename_i hsome
    rw [hnothing] at hsome
    cases hsome

theorem endsKey_of_isNameByte (h : isNameByte b = true) : endsKey b = false := by
  have hequals : b ≠ 0x3D := ne_of_isNameByte h rfl
  simp [endsKey, isSpace_of_isNameByte h, hequals]

/-- An attribute is read step by step: a new key, an equals sign, and what stands in quotes. -/
theorem attributesFrom_step (length : Nat) {seen : List (Bytes × Nat)} {first quote last : UInt8}
    {after afterEquals afterQuote : Bytes}
    (hstart : bs.dropWhile isSpace = first :: after)
    (hequals : (after.dropWhile (!endsKey ·)).dropWhile isSpace = 0x3D :: afterEquals)
    (hnew : seen.lookup (first :: after.takeWhile (!endsKey ·)) = none)
    (hopen : afterEquals.dropWhile isSpace = quote :: afterQuote) (hquote : isQuote quote = true)
    (hclose : afterQuote.dropWhile (· != quote) = last :: rest) :
    ∃ position,
      let more := attributesFrom length
        ((first :: after.takeWhile (!endsKey ·), position) :: seen) rest
      attributesFrom length seen bs
        = (⟨first :: after.takeWhile (!endsKey ·), afterQuote.takeWhile (· != quote)⟩ :: more.1,
            more.2) := by
  rw [attributesFrom]
  split <;> rename_i h <;> rw [hstart] at h <;> cases h
  split <;> rename_i h <;> rw [hequals] at h <;> cases h
  rw [if_neg (by decide)]
  split
  · rename_i hseen
    rw [hnew] at hseen
    cases hseen
  · split <;> rename_i h <;> rw [hopen] at h <;> cases h
    rw [if_neg (by simp [hquote])]
    split <;> rename_i h <;> rw [hclose] at h <;> cases h
    exact ⟨_, rfl⟩

/-- An attribute with a new key is read, and reading goes on behind its closing quote. -/
theorem attributesFrom_place (length : Nat) {seen : List (Bytes × Nat)} (p : Place)
    (value : String) (rest : Bytes) (hnew : seen.lookup p.key.word.bytes = none) :
    ∃ position,
      let more := attributesFrom length ((p.key.word.bytes, position) :: seen) rest
      attributesFrom length seen (p.bytes value ++ rest)
        = (⟨p.key.word.bytes, valueBytes value⟩ :: more.1, more.2) := by
  have hname : ∀ b ∈ p.key.word.bytes, isNameByte b = true :=
    fun b hb => (Word.isNameByte_of_mem hb).1
  have hvalue : ∀ b ∈ valueBytes value, (b != p.quote.byte) = true := by
    intro b hb
    simpa using ne_of_mem_of_not_mem hb (p.quote.not_mem_valueBytes value)
  rw [Place.bytes]
  cases hkey : p.key.word.bytes with
  | nil => exact absurd hkey p.key.word.bytes_ne_nil
  | cons first letters =>
    rw [hkey, List.forall_mem_cons] at hname
    rw [hkey] at hnew
    generalize hquoted : valueBytes value ++ p.quote.byte :: rest = quoted
    -- the key ends at the equals sign, and the value at the quote behind it
    have hends : ∀ b ∈ letters, (!endsKey b) = true := by
      intro b hb
      simp [endsKey_of_isNameByte (hname.2 b hb)]
    have hletters : (letters ++ 0x3D :: p.quote.byte :: quoted).takeWhile (!endsKey ·)
        = letters := by
      rw [List.takeWhile_append_of_pos hends]
      simp [endsKey]
    have hequals : ((letters ++ 0x3D :: p.quote.byte :: quoted).dropWhile (!endsKey ·)).dropWhile
        isSpace = 0x3D :: p.quote.byte :: quoted := by
      rw [List.dropWhile_append_of_pos hends]
      simp [endsKey, isSpace]
    have hopen : (p.quote.byte :: quoted).dropWhile isSpace = p.quote.byte :: quoted :=
      List.dropWhile_cons_of_neg (by simp [p.quote.isSpace_byte])
    have htext : quoted.takeWhile (· != p.quote.byte) = valueBytes value := by
      rw [← hquoted, List.takeWhile_append_of_pos hvalue]
      simp
    have hclose : quoted.dropWhile (· != p.quote.byte) = p.quote.byte :: rest := by
      rw [← hquoted, List.dropWhile_append_of_pos hvalue]
      simp
    rw [← hletters] at hnew
    have hread := attributesFrom_step length
      (dropWhile_blanks p.blanks (isSpace_of_isNameByte hname.1)) hequals hnew hopen
      p.quote.isQuote_byte hclose
    rw [hletters, htext, ← hquoted] at hread
    simpa using hread

theorem Key.eq_of_bytes {key other : Key} (h : key.word.bytes = other.word.bytes) :
    key = other := by
  revert h
  cases key <;> cases other <;> decide

/-- All attributes of a tag are read. -/
theorem attributesFrom_places (length : Nat) (value : Key → String) (tail : List Blank)
    {seen : List (Bytes × Nat)} {places : List Place} (hnodup : (places.map (·.key)).Nodup)
    (hnew : ∀ p ∈ places, seen.lookup p.key.word.bytes = none) :
    attributesFrom length seen
        (places.flatMap (fun p => p.bytes (value p.key)) ++ tail.map Blank.byte)
      = (places.map fun p => ⟨p.key.word.bytes, valueBytes (value p.key)⟩, none) := by
  induction places generalizing seen with
  | nil => exact attributesFrom_blanks length seen tail
  | cons p places ih =>
    rw [List.forall_mem_cons] at hnew
    rw [List.map_cons, List.nodup_cons] at hnodup
    rw [List.flatMap_cons, List.append_assoc]
    obtain ⟨position, hread⟩ := attributesFrom_place length p (value p.key)
      (places.flatMap (fun p => p.bytes (value p.key)) ++ tail.map Blank.byte) hnew.1
    rw [hread, ih hnodup.2, List.map_cons]
    intro q hq
    have hne : q.key.word.bytes ≠ p.key.word.bytes := by
      intro heq
      exact hnodup.1 (List.mem_map.mpr ⟨q, hq, Key.eq_of_bytes heq⟩)
    rw [List.lookup_cons, beq_false_of_ne hne]
    exact hnew.2 q hq

/-! ## The element of a tag -/

theorem Word.localName_bytes (w : Word) : localName w.bytes = w.bytes := by
  have hcolon : w.bytes.dropWhile (· != 0x3A) = [] := by
    rw [List.dropWhile_eq_nil_iff]
    intro b hb
    simpa using (isNameByte_of_mem hb).2
  rw [localName, hcolon]

theorem Tag.localName_bytes (t : Tag) : localName t.bytes = t.name.bytes := by
  unfold bytes
  split
  · exact t.name.localName_bytes
  · rename_i scope hscope
    have hcolon : (scope.bytes ++ 0x3A :: t.name.bytes).dropWhile (· != 0x3A)
        = 0x3A :: t.name.bytes := by
      rw [List.dropWhile_append_of_pos]
      · rfl
      · intro b hb
        simpa using (Word.isNameByte_of_mem hb).2
    rw [localName, hcolon]

/-- What stands in an element under a key. -/
def Key.get (e : Element) : Key → String
  | .name => e.name
  | .mixin => e.mixin
  | .inherits => e.inherits

/-- An element with something else under a key. -/
def Key.set (e : Element) (value : String) : Key → Element
  | .name => { e with name := value }
  | .mixin => { e with mixin := value }
  | .inherits => { e with inherits := value }

theorem withAttribute_key (e : Element) (key : Key) (value : String) :
    withAttribute e ⟨key.word.bytes, valueBytes value⟩ = .ok (key.set e value) := by
  have htext : Attribute.text ⟨key.word.bytes, valueBytes value⟩ = .ok value :=
    text_of_escape _ value
  rw [withAttribute, Word.localName_bytes, htext]
  cases key <;> rfl

theorem foldlM_withAttribute (value : Key → String) (places : List Place) (e : Element) :
    (places.map fun p => Attribute.mk p.key.word.bytes (valueBytes (value p.key))).foldlM
        withAttribute e
      = .ok (places.foldl (fun e p => p.key.set e (value p.key)) e) := by
  induction places generalizing e with
  | nil => rfl
  | cons p places ih =>
    rw [List.map_cons, List.foldlM_cons, withAttribute_key]
    exact ih _

theorem Key.get_set (key other : Key) (e : Element) (value : String) :
    key.get (other.set e value) = if key = other then value else key.get e := by
  cases key <;> cases other <;> rfl

/-- What was written under a key is what stands there in the end. -/
theorem Key.get_foldl (value : Key → String) (places : List Place) (key : Key) (e : Element) :
    key.get (places.foldl (fun e p => p.key.set e (value p.key)) e)
      = if key ∈ places.map (·.key) then value key else key.get e := by
  induction places generalizing e with
  | nil => rfl
  | cons p places ih =>
    rw [List.foldl_cons, ih, Key.get_set, List.map_cons]
    by_cases hkey : key = p.key
    · simp [hkey]
    · simp [hkey]

theorem tag_foldl (value : Key → String) (places : List Place) (e : Element) :
    (places.foldl (fun e p => p.key.set e (value p.key)) e).tag = e.tag := by
  induction places generalizing e with
  | nil => rfl
  | cons p places ih =>
    rw [List.foldl_cons, ih]
    cases p.key <;> rfl

theorem element_ext {e f : Element} (htag : e.tag = f.tag)
    (hget : ∀ key : Key, key.get e = key.get f) : e = f := by
  cases e
  cases f
  exact (Element.mk.injEq ..).mpr ⟨htag, hget .name, hget .mixin, hget .inherits⟩

namespace StartTag

variable (t : StartTag)

/-- What stands behind the name in a tag starts with a blank. -/
theorem isSpace_of_head? (h : t.attributeBytes.head? = some b) : isSpace b = true := by
  unfold attributeBytes at h
  cases hplaces : t.places with
  | nil =>
    rw [hplaces, List.flatMap_nil, List.nil_append] at h
    exact Blank.isSpace_of_mem (List.mem_of_mem_head? h)
  | cons p places =>
    cases hblanks : p.blanks with
    | nil => exact absurd hblanks p.separated
    | cons blank blanks =>
      rw [hplaces, List.flatMap_cons, Place.bytes, hblanks] at h
      obtain rfl : blank.byte = b := Option.some.inj h
      cases blank <;> rfl

theorem span_content :
    t.content.takeWhile (!isSpace ·) = t.tag.bytes ∧
      t.content.dropWhile (!isSpace ·) = t.attributeBytes := by
  have hname : ∀ b ∈ t.tag.bytes, (!isSpace b) = true := by
    intro b hb
    simp [isSpace_of_isNameByte (Tag.isNameByte_of_mem hb)]
  have hstop : ∀ b ∈ t.attributeBytes.head?, (!isSpace b) = false := by
    intro b hb
    simp [t.isSpace_of_head? hb]
  exact ⟨takeWhile_run hname hstop, dropWhile_run hname hstop⟩

theorem tagName_content : tagName t.content = t.tag.bytes := t.span_content.1

theorem attributes_content :
    attributes t.content
      = (t.places.map fun p => ⟨p.key.word.bytes, valueBytes (t.value p.key)⟩, none) := by
  rw [attributes, t.span_content.2]
  exact attributesFrom_places _ t.value t.tail t.nodup fun _ _ => rfl

/-- A tag is read as the element that it was written for. -/
theorem element_content : Markup.element t.content = .ok t.element := by
  rw [Markup.element, t.attributes_content, t.tagName_content, t.tag.localName_bytes]
  simp only [foldlM_withAttribute]
  refine congrArg Except.ok (element_ext ?_ fun key => ?_)
  · rw [tag_foldl]
    exact Utf8.lossy_encode _
  · rw [Key.get_foldl]
    split
    · cases key <;> rfl
    · rename_i hkey
      have homitted := t.omitted key hkey
      cases key <;> exact homitted.symm

end StartTag

end Markup

end Lineage
