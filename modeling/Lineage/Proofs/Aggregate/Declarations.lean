import Lineage.Authoritative
import Lineage.Proofs.Aggregate.Classes
import Lineage.Proofs.Construction.Spelling

/-!
# Reading an aggregate back

An aggregate is itself a file of declarations. The reader of declarations looks for the marker
wherever it may stand. In an aggregate of words it stands only in front of the class names, because
nothing else but the header has a dash in it. So each class is found once, and an aggregate that
takes these declarations for granted has no class left.

## Main statements

- `declaredNamesFrom_spelled`: what is read where a declaration is spelled
- `Aggregate.declaredNames_ofParagraphs`: the declarations of an aggregate are its classes
- `Aggregate.declaredIn_render`: so they are read back, and then nothing is left to declare
-/

namespace Lineage

open Utf8 (encode)

/-! ## Declarations as they are spelled -/

section

variable {marker rest : Bytes} {gap name : List Char} {b : UInt8}

/-- A declaration is read where the marker, blanks and a word are spelled. -/
theorem declaration?_spelled (marker : Bytes) (hgap : gap ≠ []) (hblank : ∀ c ∈ gap, isBlank c = true)
    (hname : name ≠ []) (hword : ∀ c ∈ name, isWordChar c = true)
    (hrest : Utf8.Stops isWordChar rest) :
    declaration? marker (marker ++ (encode gap ++ (encode name ++ rest)))
      = some ⟨String.ofList name, (marker ++ encode gap ++ encode name).length⟩ := by
  obtain ⟨first, run, rfl⟩ := List.exists_cons_of_ne_nil hname
  -- the word stops the blanks, and what follows stops the word
  have hstops : Utf8.Stops isBlank (encode (first :: run) ++ rest) := by
    intro c tail hnext
    rw [Utf8.encode_cons, List.append_assoc, Utf8.next?_encodeChar_append] at hnext
    obtain ⟨rfl, -⟩ : first = c ∧ encode run ++ rest = tail := by simpa using hnext
    exact isBlank_eq_false_of_isWordChar (hword first (List.mem_cons_self ..))
  have hblanks := Utf8.span_encode_append hblank hstops
  have hletters := Utf8.span_encode_append hword hrest
  obtain ⟨blank, blanks, rfl⟩ := List.exists_cons_of_ne_nil hgap
  have hleads : marker.isPrefixOf
      (marker ++ (encode (blank :: blanks) ++ (encode (first :: run) ++ rest))) = true :=
    List.isPrefixOf_iff_prefix.mpr (List.prefix_append _ _)
  rw [declaration?, if_pos hleads, List.drop_left]
  simp only [hblanks, hletters, Utf8.width, List.length_append]

/-- Nothing is declared where the marker does not begin. -/
theorem declaration?_eq_none_of_ne (hmarker : marker.head? = some b) {c : UInt8} (hne : c ≠ b)
    (rest : Bytes) : declaration? marker (c :: rest) = none := by
  rw [declaration?, if_neg]
  intro hleads
  obtain ⟨tail, htail⟩ := List.isPrefixOf_iff_prefix.mp hleads
  cases marker with
  | nil => cases hmarker
  | cons m marker =>
    obtain rfl : m = b := Option.some.inj hmarker
    exact hne (List.cons.inj htail).1.symm

/-- What belongs to a declaration is passed over. -/
theorem declaredNamesFrom_length_append (marker taken rest : Bytes) :
    declaredNamesFrom marker taken.length (taken ++ rest) = declaredNamesFrom marker 0 rest := by
  induction taken with
  | nil => rfl
  | cons b taken ih => exact ih

/-- Bytes in which the marker cannot begin declare nothing. -/
theorem declaredNamesFrom_append_of_notMem (hmarker : marker.head? = some b) {quiet : Bytes}
    (hquiet : b ∉ quiet) :
    declaredNamesFrom marker 0 (quiet ++ rest) = declaredNamesFrom marker 0 rest := by
  induction quiet with
  | nil => rfl
  | cons c quiet ih =>
    rw [List.mem_cons, not_or] at hquiet
    obtain ⟨hne, hquiet⟩ := hquiet
    rw [List.cons_append, declaredNamesFrom]
    simp only [declaration?_eq_none_of_ne hmarker (Ne.symm hne)]
    exact ih hquiet

/-- A declaration that is spelled is found, and the reader goes on behind it. -/
theorem declaredNamesFrom_spelled (hmarker : marker ≠ []) (hgap : gap ≠ [])
    (hblank : ∀ c ∈ gap, isBlank c = true) (hname : name ≠ [])
    (hword : ∀ c ∈ name, isWordChar c = true) (hrest : Utf8.Stops isWordChar rest) :
    declaredNamesFrom marker 0 (marker ++ (encode gap ++ (encode name ++ rest)))
      = String.ofList name :: declaredNamesFrom marker 0 rest := by
  have hread := declaration?_spelled marker hgap hblank hname hword hrest
  obtain ⟨m, tail, rfl⟩ := List.exists_cons_of_ne_nil hmarker
  have hbehind := declaredNamesFrom_length_append (m :: tail)
    (tail ++ (encode gap ++ encode name)) rest
  simp only [List.cons_append] at hread ⊢
  rw [declaredNamesFrom]
  simp only [hread]
  -- the first byte of the marker is the one that was just read
  rw [← hbehind]
  simp [List.append_assoc]

end

namespace Aggregate

variable {sites : SiteSettings} {emit : EmitSettings} {g : Graph}
  {authoritative entities : NameSet} {names : List String} {ancestors : String → NameSet}

/-! ## Aggregates of words -/

/-- A dash is no part of a word. -/
theorem dash_notMem_of_isWord {name : String} (h : IsWord name) : '-' ∉ name.toList := by
  intro hmem
  exact absurd (h.isWordChar '-' hmem) (by decide +kernel)

/-- Behind the name of a class there is no dash. -/
theorem dash_notMem_parents {list : NameSet} (hlist : ∀ y ∈ list, IsWord y) :
    0x2D ∉ Utf8.ofString (": " ++ ", ".intercalate list.toList ++ "\n" ++ "\n") := by
  rw [Utf8.ofString, Utf8.mem_encode_iff (by decide)]
  rintro ⟨c, hc, hdash⟩
  obtain rfl : c = '-' := Char.toNat_inj.mp hdash
  simp only [String.toList_append, List.mem_append, or_assoc] at hc
  rcases hc with hcolon | hlisted | hbreak | hbreak
  · exact absurd hcolon (by decide)
  · rcases exists_mem_of_mem_intercalate hlisted with hcomma | ⟨y, hy, hmem⟩
    · exact absurd hcomma (by decide)
    · exact dash_notMem_of_isWord (hlist y hy) hmem
  · exact absurd hbreak (by decide)
  · exact absurd hbreak (by decide)

/-- A paragraph of words declares its class and nothing else. -/
theorem declaredNamesFrom_paragraph {name : String} {list : NameSet} (hname : IsWord name)
    (hlist : ∀ y ∈ list, IsWord y) (rest : Bytes) :
    declaredNamesFrom (Utf8.ofString "---@class") 0
        (Utf8.ofString (paragraph "---@class" name list) ++ rest)
      = name :: declaredNamesFrom (Utf8.ofString "---@class") 0 rest := by
  have hparts : Utf8.ofString (paragraph "---@class" name list) ++ rest
      = Utf8.ofString "---@class" ++ (encode [' '] ++ (encode name.toList
          ++ (Utf8.ofString (": " ++ ", ".intercalate list.toList ++ "\n" ++ "\n") ++ rest))) := by
    simp only [paragraph, Utf8.ofString_append, List.append_assoc]
    rfl
  -- the name ends at the colon
  have hcolon : Utf8.Stops isWordChar
      (Utf8.ofString (": " ++ ", ".intercalate list.toList ++ "\n" ++ "\n") ++ rest) := by
    simp only [Utf8.ofString_append, List.append_assoc]
    exact Utf8.stops_cons_of_ascii (b := 0x3A) (by decide) (by decide +kernel) _
  have hspace : ∀ c ∈ [' '], isBlank c = true := by
    intro c hc
    rw [List.mem_singleton.mp hc]
    decide
  rw [hparts, declaredNamesFrom_spelled (by decide) (by simp) hspace hname.ne_nil
    hname.isWordChar hcolon, String.ofList_toList,
    declaredNamesFrom_append_of_notMem (b := 0x2D) (by decide) (dash_notMem_parents hlist)]

/-- The declarations of an aggregate of words are its classes, one after another. -/
theorem declaredNames_ofParagraphs (hmarker : sites.annotationMarker = "---@class")
    (hheader : sites.metaHeader.getD standardHeader = "---@meta")
    (hnames : ∀ name ∈ names, IsWord name)
    (hancestors : ∀ name ∈ names, ∀ y ∈ ancestors name, IsWord y) :
    declaredNames "---@class" (Utf8.ofString (ofParagraphs sites names ancestors).text)
      = names := by
  have hparagraphs : declaredNamesFrom (Utf8.ofString "---@class") 0 (Utf8.ofString
      (String.join (names.map fun name => paragraph "---@class" name (ancestors name))))
        = names := by
    induction names with
    | nil => rfl
    | cons name rest ih =>
      rw [List.map_cons, String.join_cons, Utf8.ofString_append,
        declaredNamesFrom_paragraph (hnames name (List.mem_cons_self ..))
          (hancestors name (List.mem_cons_self ..)),
        ih (fun other hother => hnames other (List.mem_cons_of_mem _ hother))
          (fun other hother => hancestors other (List.mem_cons_of_mem _ hother))]
  -- the header has dashes, but not the marker
  rw [declaredNames, ofParagraphs, hmarker, hheader, Utf8.ofString_append]
  exact hparagraphs

/-! ## Rendering again -/

/-- Without classes an aggregate is its header. -/
theorem render_eq_header (h : ∀ x, ¬ Declares emit g authoritative entities x) :
    (render sites emit g ∅ authoritative entities).1
      = ⟨sites.metaHeader.getD standardHeader ++ "\n\n", 0⟩ := by
  have hnone : classNames emit g authoritative entities = [] := by
    rw [List.eq_nil_iff_forall_not_mem]
    exact fun x hx => h x (mem_classNames_iff.mp hx)
  rw [render_eq, hnone]
  simp [ofParagraphs]

/-- Of entities and ancestors that are words, the declarations in the text of an aggregate are its
    classes, each found once. An aggregate that leaves them out has no class. -/
theorem declaredIn_render (sites : SiteSettings) (emit : EmitSettings) (g : Graph)
    (authoritative entities : NameSet) (hmarker : sites.annotationMarker = "---@class")
    (hheader : sites.metaHeader.getD standardHeader = "---@meta")
    (hentities : ∀ x ∈ entities, IsWord x)
    (hancestors : ∀ x ∈ entities, ∀ y, g.Reaches x y → IsWord y) :
    let rendered := (render sites emit g ∅ authoritative entities).1
    let declared := declaredIn "---@class" [Utf8.ofString rendered.text]
    (∃ ancestors, rendered = ofParagraphs sites declared.toList ancestors) ∧
      (∀ x, x ∈ declared ↔ Declares emit g authoritative entities x) ∧
      declared.size = rendered.classes ∧
      declaredNames "---@class" (Utf8.ofString rendered.text) = declared.toList ∧
      (render sites emit g ∅ (authoritative.union declared) entities).1
        = ⟨"---@meta" ++ "\n\n", 0⟩ := by
  intro rendered declared
  have hrendered : rendered = ofParagraphs sites (classNames emit g authoritative entities)
      (remembered (closing emit g authoritative entities)) := render_eq ..
  -- every name in the text is that of an entity or of something that an entity reaches
  have hfound : declaredNames "---@class" (Utf8.ofString rendered.text)
      = classNames emit g authoritative entities := by
    rw [hrendered]
    apply declaredNames_ofParagraphs hmarker hheader
    · intro x hx
      exact hentities x (mem_classNames_iff.mp hx).mem
    · intro x hx y hy
      have hreach := (isAnswer_closing hx).reaches y hy
      exact hancestors x (mem_classNames_iff.mp hx).mem y hreach
  have hdeclared : declared
      = ⟨classNames emit g authoritative entities, pairwise_classNames⟩ := by
    refine NameSet.ext fun x => ?_
    show x ∈ NameSet.ofList ([Utf8.ofString rendered.text].flatMap (declaredNames "---@class"))
      ↔ x ∈ classNames emit g authoritative entities
    rw [NameSet.mem_ofList, List.flatMap_singleton, hfound]
  have hmem : ∀ x, x ∈ declared ↔ Declares emit g authoritative entities x := by
    intro x
    rw [hdeclared]
    exact mem_classNames_iff
  refine ⟨⟨remembered (closing emit g authoritative entities), ?_⟩, hmem, ?_, ?_, ?_⟩
  · rw [hdeclared]
    exact hrendered
  · rw [hdeclared, hrendered]
    rfl
  · rw [hfound, hdeclared]
  · -- what could be declared again is declared elsewhere now
    rw [← hheader]
    apply render_eq_header
    rintro x ⟨hx, hpublic, hnot, hparents⟩
    rw [NameSet.mem_union, not_or] at hnot
    exact hnot.2 ((hmem x).mpr ⟨hx, hpublic, hnot.1, hparents⟩)

/-- The entities of a graph with a cycle of two. -/
def loopEntities : NameSet := NameSet.ofList ["Base", "Top", "X", "Y"]

/-- Classes on a cycle and above it are read back, and none is left. -/
theorem declaredIn_render_loop :
    (∀ x ∈ loopEntities, IsWord x) ∧
      (∀ x ∈ loopEntities, ∀ y, Session.loop.Reaches x y → IsWord y) ∧
      declaredNames "---@class"
          (Utf8.ofString (render {} {} Session.loop ∅ ∅ loopEntities).1.text)
        = ["Top", "X", "Y"] ∧
      (render {} {} Session.loop ∅ (NameSet.ofList ["Top", "X", "Y"]) loopEntities).1
        = ⟨"---@meta" ++ "\n\n", 0⟩ := by
  have hentities : ∀ x ∈ loopEntities, IsWord x := by
    show ∀ x ∈ loopEntities.toList, IsWord x
    decide +kernel
  have hancestors : ∀ x ∈ loopEntities, ∀ y, Session.loop.Reaches x y → IsWord y := by
    intro x hx y hreach
    have hfirst : ∀ x ∈ loopEntities.toList, ∀ q ∈ (Session.loop.parentsOf x).toList,
        q ∈ ["Base", "X", "Y"] := by
      decide +kernel
    have hmem : y ∈ ["Base", "X", "Y"] := hreach.mem_of_closed (hfirst x hx) (by decide +kernel)
    have hwords : ∀ y ∈ ["Base", "X", "Y"], IsWord y := by decide +kernel
    exact hwords y hmem
  obtain ⟨-, -, -, hread, hagain⟩ :=
    declaredIn_render {} {} Session.loop ∅ loopEntities rfl rfl hentities hancestors
  have hdeclared : declaredIn "---@class"
      [Utf8.ofString (render {} {} Session.loop ∅ ∅ loopEntities).1.text]
        = NameSet.ofList ["Top", "X", "Y"] := by
    decide +kernel
  rw [hdeclared] at hread hagain
  refine ⟨hentities, hancestors, hread.trans (by decide +kernel), ?_⟩
  have hunion : (∅ : NameSet).union (NameSet.ofList ["Top", "X", "Y"])
      = NameSet.ofList ["Top", "X", "Y"] := by
    decide +kernel
  rw [hunion] at hagain
  exact hagain

end Aggregate

end Lineage
