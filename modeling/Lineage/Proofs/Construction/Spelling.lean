import Lineage.Construction
import Lineage.Proofs.Text.Characters
import Lineage.Proofs.Text.Utf8

/-!
# How constructions are spelled

The reader of constructions takes the longest runs it can and tries fewer blanks where more lead
nowhere. For a composition function of word characters none of this shows: a construction is read
exactly where one is spelled, in only one way, and its length is that of the spelling with the
semicolon that may follow it.

## Main statements

- `definition?_eq_some_iff`: what may stand behind the equals sign
- `definitionAfterBlanks?_eq`: only the longest skip of blanks counts
- `construction?_eq_some_iff`: what is read is what is spelled
-/

namespace Lineage

open Utf8 (encode span Stops next?)

/-- Whether a text is a nonempty run of word characters. -/
structure IsWord (s : String) : Prop where
  ne_nil : s.toList ≠ []
  isWordChar : ∀ c ∈ s.toList, isWordChar c = true

instance (s : String) : Decidable (IsWord s) :=
  decidable_of_iff (s.toList ≠ [] ∧ s.toList.all isWordChar = true)
    ⟨fun h => ⟨h.1, List.all_eq_true.mp h.2⟩, fun h => ⟨h.1, List.all_eq_true.mpr h.2⟩⟩

/-- Whether a text is a run of word characters, which may be empty. -/
def OfWordChars (s : String) : Prop := ∀ c ∈ s.toList, isWordChar c = true

theorem IsWord.ofWordChars {s : String} (h : IsWord s) : OfWordChars s := h.isWordChar

/-! ## Definitions -/

/-- The bytes of a definition without the semicolon behind it: a brace, or a composition. -/
def definitionBytes (compose : Bytes) : Option (List Char) → Bytes
  | none => [0x7B]
  | some arguments => compose ++ 0x28 :: (encode arguments ++ [0x29])

/-- Whether a list can stand between the parentheses. -/
def ValidArguments : Option (List Char) → Prop
  | none => True
  | some arguments => arguments ≠ [] ∧ ∀ c ∈ arguments, c ≠ ')'

/-- The width of the semicolon that belongs to a definition. -/
def semicolonWidth : Option (List Char) → Bytes → Nat
  | none, _ => 0
  | some _, rest => if rest.head? = some 0x3B then 1 else 0

theorem semicolonWidth_congr {rest rest' : Bytes} (h : rest.head? = rest'.head?)
    (arguments : Option (List Char)) :
    semicolonWidth arguments rest = semicolonWidth arguments rest' := by
  cases arguments with
  | none => rfl
  | some arguments => simp only [semicolonWidth, h]

/-- The argument list ends at its first closing parenthesis. -/
theorem stops_close (rest : Bytes) : Stops (fun c => c ≠ ')') (0x29 :: rest) :=
  Utf8.stops_cons_of_ascii (by decide) (by decide) rest

/-- What a definition in front of some bytes is read as. -/
def spelledDefinition (compose : Bytes) (arguments : Option (List Char)) (rest : Bytes) :
    Definition where
  arguments := arguments.map String.ofList
  length := (definitionBytes compose arguments).length + semicolonWidth arguments rest

theorem prefix_definitionBytes (compose : Bytes) (arguments : List Char) (rest : Bytes) :
    compose <+: definitionBytes compose (some arguments) ++ rest :=
  ⟨0x28 :: (encode arguments ++ 0x29 :: rest), by simp [definitionBytes]⟩

/-- The closing parenthesis and the semicolon are counted the same way by the reader. -/
private theorem spelledDefinition_some (compose : Bytes) (arguments : List Char) (rest : Bytes) :
    spelledDefinition compose (some arguments) rest
      = ⟨some (String.ofList arguments), compose.length + 1 + Utf8.width arguments + 1
          + if rest.head? = some 0x3B then 1 else 0⟩ := by
  simp only [spelledDefinition, definitionBytes, semicolonWidth, Utf8.width, Option.map_some,
    List.length_append, List.length_cons, List.length_nil, Definition.mk.injEq, true_and]
  omega

/-- A composition is read where one is spelled. -/
theorem composition?_definitionBytes (compose : Bytes) {arguments : List Char}
    (hvalid : ValidArguments (some arguments)) (rest : Bytes) :
    composition? compose (definitionBytes compose (some arguments) ++ rest)
      = some (spelledDefinition compose (some arguments) rest) := by
  obtain ⟨hne, harguments⟩ := hvalid
  obtain ⟨first, run, rfl⟩ := List.exists_cons_of_ne_nil hne
  have hleads : compose.isPrefixOf (definitionBytes compose (some (first :: run)) ++ rest)
      = true :=
    List.isPrefixOf_iff_prefix.mpr (prefix_definitionBytes compose (first :: run) rest)
  have hdrop : (definitionBytes compose (some (first :: run)) ++ rest).drop compose.length
      = 0x28 :: (encode (first :: run) ++ 0x29 :: rest) := by
    simp [definitionBytes]
  have hspan : span (fun c => decide (c ≠ ')')) (encode (first :: run) ++ 0x29 :: rest)
      = (first :: run, 0x29 :: rest) :=
    Utf8.span_encode_append (fun c hc => by simpa using harguments c hc) (stops_close rest)
  -- a semicolon behind the parenthesis is counted in
  simp only [composition?, hleads, if_true, hdrop, hspan, spelledDefinition_some]
  split <;> rfl

/-- Nothing else is read as a composition. -/
theorem exists_of_composition?_eq_some {compose bs : Bytes} {d : Definition}
    (h : composition? compose bs = some d) :
    ∃ arguments rest, ValidArguments (some arguments) ∧
      bs = definitionBytes compose (some arguments) ++ rest ∧
      d = spelledDefinition compose (some arguments) rest := by
  unfold composition? at h
  split at h
  · rename_i hleads
    obtain ⟨tail, rfl⟩ := List.isPrefixOf_iff_prefix.mp hleads
    rw [List.drop_left] at h
    split at h
    · rename_i afterOpen
      split at h
      · rename_i first run rest hspan
        -- the run of arguments ends at the parenthesis that closes them
        obtain ⟨rfl, hrun, -⟩ := Utf8.span_eq_iff.mp hspan
        refine ⟨first :: run, rest, ⟨by simp, fun c hc => ?_⟩, ?_, ?_⟩
        · simpa using hrun c hc
        · simp [definitionBytes]
        · rw [spelledDefinition_some, ← Option.some.inj h]
          split <;> rfl
      · cases h
    · cases h
  · cases h

theorem composition?_eq_some_iff {compose bs : Bytes} {d : Definition} :
    composition? compose bs = some d ↔
      ∃ arguments rest, ValidArguments (some arguments) ∧
        bs = definitionBytes compose (some arguments) ++ rest ∧
        d = spelledDefinition compose (some arguments) rest := by
  constructor
  · exact exists_of_composition?_eq_some
  · rintro ⟨arguments, rest, hvalid, rfl, rfl⟩
    exact composition?_definitionBytes compose hvalid rest

variable {compose : String}

/-- Where a definition is spelled, a word character is read first, or what opens the definition. -/
theorem exists_next?_definitionBytes (hcompose : OfWordChars compose)
    (arguments : Option (List Char)) (rest : Bytes) :
    ∃ c tail, next? (definitionBytes (Utf8.ofString compose) arguments ++ rest) = some (c, tail) ∧
      (isWordChar c = true ∨ c = '(' ∨ c = '\x7b') := by
  cases arguments with
  | none => exact ⟨'\x7b', rest, Utf8.next?_encodeChar_append '\x7b' rest, by simp⟩
  | some arguments =>
    cases hcs : compose.toList with
    | nil =>
      -- an empty function leaves the parenthesis
      refine ⟨'(', encode arguments ++ 0x29 :: rest, ?_, by simp⟩
      simp only [definitionBytes, Utf8.ofString, hcs, Utf8.encode_nil, List.nil_append,
        List.cons_append, List.append_assoc]
      exact Utf8.next?_encodeChar_append '(' _
    | cons c cs =>
      refine ⟨c, encode cs ++ 0x28 :: (encode arguments ++ 0x29 :: rest), ?_, ?_⟩
      · simp only [definitionBytes, Utf8.ofString, hcs, Utf8.encode_cons, List.cons_append,
          List.append_assoc, List.nil_append]
        exact Utf8.next?_encodeChar_append c _
      · left
        apply hcompose
        simp [hcs]

theorem composition?_brace (hcompose : OfWordChars compose) (rest : Bytes) :
    composition? (Utf8.ofString compose) (0x7B :: rest) = none := by
  unfold composition?
  split
  · rename_i hleads
    cases hcs : compose.toList with
    | nil => simp [Utf8.ofString, hcs]
    | cons c cs =>
      -- the function would start with a brace
      obtain ⟨tail, htail⟩ := List.isPrefixOf_iff_prefix.mp hleads
      rw [Utf8.ofString, hcs, Utf8.encode_cons, List.append_assoc] at htail
      have hword : isWordChar c = true := hcompose c (by simp [hcs])
      have hstop : Stops isWordChar (0x7B :: rest) :=
        Utf8.stops_cons_of_ascii (by decide) (by decide) rest
      rw [← htail] at hstop
      rw [hstop c _ (Utf8.next?_encodeChar_append c _)] at hword
      cases hword
  · rfl

/-- A definition is read exactly where one is spelled. -/
theorem definition?_eq_some_iff (hcompose : OfWordChars compose) {bs : Bytes} {d : Definition} :
    definition? (Utf8.ofString compose) bs = some d ↔
      ∃ arguments rest, ValidArguments arguments ∧
        bs = definitionBytes (Utf8.ofString compose) arguments ++ rest ∧
        d = spelledDefinition (Utf8.ofString compose) arguments rest := by
  constructor
  · intro h
    unfold definition? at h
    cases hcomp : composition? (Utf8.ofString compose) bs with
    | some d' =>
      rw [hcomp] at h
      obtain rfl : d' = d := by simpa using h
      obtain ⟨arguments, rest, hvalid, hbs, hd⟩ := composition?_eq_some_iff.mp hcomp
      exact ⟨some arguments, rest, hvalid, hbs, hd⟩
    | none =>
      -- what is no composition can only be a brace
      rw [hcomp] at h
      change (if bs.head? = some 0x7B then some (⟨none, 1⟩ : Definition) else none) = some d at h
      rw [Option.ite_none_right_eq_some, Option.some.injEq] at h
      obtain ⟨hhead, rfl⟩ := h
      obtain ⟨rest, rfl⟩ : ∃ rest, bs = 0x7B :: rest := by
        cases bs with
        | nil => cases hhead
        | cons b rest => exact ⟨rest, by simpa using hhead⟩
      exact ⟨none, rest, trivial, rfl, rfl⟩
  · rintro ⟨arguments, rest, hvalid, rfl, rfl⟩
    unfold definition?
    cases arguments with
    | none =>
      rw [definitionBytes, List.singleton_append, composition?_brace hcompose rest]
      rfl
    | some arguments =>
      rw [composition?_definitionBytes _ hvalid]
      rfl

/-- Where a definition is spelled, no blank is read first. -/
theorem stops_isBlank_definitionBytes (hcompose : OfWordChars compose)
    (arguments : Option (List Char)) (rest : Bytes) :
    Stops isBlank (definitionBytes (Utf8.ofString compose) arguments ++ rest) := by
  intro c rest' hnext
  obtain ⟨d, tail, hd, hfirst⟩ := exists_next?_definitionBytes hcompose arguments rest
  rw [hd] at hnext
  obtain ⟨rfl, rfl⟩ : d = c ∧ tail = rest' := by simpa using hnext
  rcases hfirst with hword | rfl | rfl
  · exact isBlank_eq_false_of_isWordChar hword
  · decide
  · decide

/-! ## Blanks behind the equals sign -/

/-- Where no blank stands, skipping is over. -/
theorem blankSkipsFrom_of_stops {bs : Bytes} (h : Stops isBlank bs) (ways : List (Nat × Bytes))
    (skipped : Nat) : blankSkipsFrom ways skipped bs = (skipped, bs) :: ways := by
  rw [blankSkipsFrom]
  split
  · rename_i c rest hnext
    rw [h c rest hnext]
    rfl
  · rfl

/-- In front of a blank there is the way to skip no more and those that skip it. -/
theorem blankSkipsFrom_encodeChar_append {c : Char} (hc : isBlank c = true) (rest : Bytes)
    (ways : List (Nat × Bytes)) (skipped : Nat) :
    blankSkipsFrom ways skipped (String.utf8EncodeChar c ++ rest)
      = blankSkipsFrom ((skipped, String.utf8EncodeChar c ++ rest) :: ways)
          (skipped + c.utf8Size) rest := by
  rw [blankSkipsFrom]
  split
  · rename_i d tail hd
    rw [Utf8.next?_encodeChar_append] at hd
    obtain ⟨rfl, rfl⟩ : c = d ∧ rest = tail := by simpa using hd
    rw [if_pos hc]
  · rename_i hd
    rw [Utf8.next?_encodeChar_append] at hd
    cases hd

/-- Where nothing can be made of a rest that starts with a blank, only the longest skip counts. -/
private theorem findSome?_blankSkipsFrom {α : Type} {f : Nat × Bytes → Option α}
    (hf : ∀ n c rest, isBlank c = true → f (n, String.utf8EncodeChar c ++ rest) = none)
    {gap : List Char} {rest : Bytes} (hgap : ∀ c ∈ gap, isBlank c = true)
    (hrest : Stops isBlank rest) (ways : List (Nat × Bytes)) (skipped : Nat)
    (hways : ways.findSome? f = none) :
    (blankSkipsFrom ways skipped (encode gap ++ rest)).findSome? f
      = f (skipped + Utf8.width gap, rest) := by
  induction gap generalizing ways skipped with
  | nil =>
    rw [Utf8.encode_nil, List.nil_append, blankSkipsFrom_of_stops hrest, List.findSome?_cons]
    show _ = f (skipped, rest)
    cases h : f (skipped, rest) with
    | none => exact hways
    | some x => rfl
  | cons c gap ih =>
    have hc : isBlank c = true := hgap c (List.mem_cons_self ..)
    have hrest_gap : ∀ d ∈ gap, isBlank d = true := fun d hd => hgap d (List.mem_cons_of_mem _ hd)
    -- the way that skips no more is of no use either
    have hways' : ((skipped, String.utf8EncodeChar c ++ (encode gap ++ rest)) :: ways).findSome? f
        = none := by
      rw [List.findSome?_cons, hf skipped c _ hc]
      exact hways
    have hwidth : skipped + c.utf8Size + Utf8.width gap = skipped + Utf8.width (c :: gap) := by
      simp only [Utf8.width, Utf8.encode_cons, List.length_append, String.length_utf8EncodeChar]
      omega
    rw [Utf8.encode_cons, List.append_assoc, blankSkipsFrom_encodeChar_append hc,
      ih hrest_gap _ _ hways', hwidth]

/-- Only the longest skip of blanks counts. -/
theorem definitionAfterBlanks?_eq (hcompose : OfWordChars compose) {gap : List Char} {rest : Bytes}
    (hgap : ∀ c ∈ gap, isBlank c = true) (hrest : Stops isBlank rest) :
    definitionAfterBlanks? (Utf8.ofString compose) (encode gap ++ rest)
      = (definition? (Utf8.ofString compose) rest).map fun d =>
          { d with length := Utf8.width gap + d.length } := by
  unfold definitionAfterBlanks?
  rw [findSome?_blankSkipsFrom (fun n c rest hc => ?_) hgap hrest [] 0 rfl, Nat.zero_add]
  -- a definition does not start with a blank
  simp only [Option.map_eq_none_iff]
  by_contra hsome
  obtain ⟨d, hd⟩ := Option.ne_none_iff_exists'.mp hsome
  obtain ⟨arguments, tail, -, hbs, -⟩ := (definition?_eq_some_iff hcompose).mp hd
  have hstop := stops_isBlank_definitionBytes hcompose arguments tail
  rw [← hbs] at hstop
  rw [hstop c rest (Utf8.next?_encodeChar_append c rest)] at hc
  cases hc

/-! ## Constructions -/

/-- How a construction is spelled, but for the semicolon behind it. -/
structure Spelling where
  name : List Char
  /-- The blanks in front of the equals sign. -/
  before : List Char
  /-- The blanks behind the equals sign. -/
  after : List Char
  /-- The argument list of a composition. -/
  arguments : Option (List Char)

namespace Spelling

/-- Whether the parts are what they are called. -/
structure Valid (s : Spelling) : Prop where
  name_ne_nil : s.name ≠ []
  isWordChar_name : ∀ c ∈ s.name, isWordChar c = true
  isBlank_before : ∀ c ∈ s.before, isBlank c = true
  isBlank_after : ∀ c ∈ s.after, isBlank c = true
  arguments : ValidArguments s.arguments

/-- The bytes of a spelling. -/
def bytes (compose : Bytes) (s : Spelling) : Bytes :=
  encode s.name ++ (encode s.before ++ (0x3D :: (encode s.after ++
    definitionBytes compose s.arguments)))

/-- What a spelling in front of some bytes is read as. -/
def construction (compose : Bytes) (s : Spelling) (rest : Bytes) : Construction :=
  { bundle := String.ofList s.name
    parents := ((s.arguments.map String.ofList).map parentList).getD []
    length := (s.bytes compose).length + semicolonWidth s.arguments rest }

end Spelling

theorem stops_isWordChar_encode_blank {gap : List Char} (hgap : ∀ c ∈ gap, isBlank c = true)
    {rest : Bytes} (hrest : Stops isWordChar rest) : Stops isWordChar (encode gap ++ rest) := by
  cases gap with
  | nil => simpa using hrest
  | cons c gap =>
    -- the first blank ends the word
    intro d tail hnext
    rw [Utf8.encode_cons, List.append_assoc, Utf8.next?_encodeChar_append] at hnext
    obtain ⟨rfl, -⟩ : c = d ∧ encode gap ++ rest = tail := by simpa using hnext
    exact isWordChar_eq_false_of_isBlank (hgap c (List.mem_cons_self ..))

/-- A construction is read where one is spelled. -/
theorem construction?_bytes (hcompose : OfWordChars compose) {s : Spelling} (hvalid : s.Valid)
    (rest : Bytes) :
    construction? (Utf8.ofString compose) (s.bytes (Utf8.ofString compose) ++ rest)
      = some (s.construction (Utf8.ofString compose) rest) := by
  obtain ⟨name, before, after, arguments⟩ := s
  obtain ⟨hne, hword, hbefore, hafter, harguments⟩ := hvalid
  have hbytes : Spelling.bytes (Utf8.ofString compose) ⟨name, before, after, arguments⟩ ++ rest
      = encode name ++ (encode before ++ (0x3D :: (encode after ++
          (definitionBytes (Utf8.ofString compose) arguments ++ rest)))) := by
    simp [Spelling.bytes]
  -- each run ends where the next part starts
  have hname := Utf8.span_encode_append hword <| stops_isWordChar_encode_blank hbefore <|
    Utf8.stops_cons_of_ascii (b := 0x3D) (by decide) (by decide) (encode after ++
      (definitionBytes (Utf8.ofString compose) arguments ++ rest))
  have hgap := Utf8.span_encode_append hbefore <|
    Utf8.stops_cons_of_ascii (b := 0x3D) (by decide) (by decide) (encode after ++
      (definitionBytes (Utf8.ofString compose) arguments ++ rest))
  have hdefinition := definitionAfterBlanks?_eq hcompose hafter
    (stops_isBlank_definitionBytes hcompose arguments rest)
  have hread := (definition?_eq_some_iff hcompose).mpr ⟨arguments, rest, harguments, rfl, rfl⟩
  obtain ⟨first, run, rfl⟩ := List.exists_cons_of_ne_nil hne
  rw [hbytes]
  simp only [construction?, hname, hgap, hdefinition, hread]
  simp only [Option.map_some, Spelling.construction, Spelling.bytes, spelledDefinition, Utf8.width,
    List.length_append, List.length_cons, Option.some.injEq, Construction.mk.injEq, true_and]
  omega

/-- Nothing else is read as a construction. -/
theorem exists_of_construction?_eq_some (hcompose : OfWordChars compose) {bs : Bytes}
    {c : Construction} (h : construction? (Utf8.ofString compose) bs = some c) :
    ∃ (s : Spelling) (rest : Bytes), s.Valid ∧ bs = s.bytes (Utf8.ofString compose) ++ rest ∧
      c = s.construction (Utf8.ofString compose) rest := by
  unfold construction? at h
  split at h
  · cases h
  · rename_i name afterName hname hspan
    obtain ⟨rfl, hword, -⟩ := Utf8.span_eq_iff.mp hspan
    split at h
    · rename_i gap afterEquals hgap
      obtain ⟨rfl, hbefore, -⟩ := Utf8.span_eq_iff.mp hgap
      -- all blanks behind the equals sign were skipped
      obtain ⟨after, tail, rfl, hafter, htail⟩ := Utf8.exists_run isBlank afterEquals
      rw [definitionAfterBlanks?_eq hcompose hafter htail, Option.map_map,
        Option.map_eq_some_iff] at h
      obtain ⟨d, hd, rfl⟩ := h
      obtain ⟨arguments, rest, hvalid, rfl, rfl⟩ := (definition?_eq_some_iff hcompose).mp hd
      refine ⟨⟨name, gap, after, arguments⟩, rest, ⟨?_, hword, hbefore, hafter, hvalid⟩, ?_, ?_⟩
      · rintro rfl
        exact hname rfl
      · simp [Spelling.bytes]
      · simp only [Function.comp, Spelling.construction, Spelling.bytes, spelledDefinition,
          Utf8.width, List.length_append, List.length_cons, Construction.mk.injEq, true_and]
        omega
    · cases h

/-- A construction is read exactly where one is spelled. -/
theorem construction?_eq_some_iff (hcompose : OfWordChars compose) {bs : Bytes} {c : Construction} :
    construction? (Utf8.ofString compose) bs = some c ↔
      ∃ (s : Spelling) (rest : Bytes), s.Valid ∧ bs = s.bytes (Utf8.ofString compose) ++ rest ∧
        c = s.construction (Utf8.ofString compose) rest := by
  constructor
  · exact exists_of_construction?_eq_some hcompose
  · rintro ⟨s, rest, hvalid, rfl, rfl⟩
    exact construction?_bytes hcompose hvalid rest

end Lineage
