import Lineage.Annotation.Annotator
import Lineage.Proofs.Construction.Insertion

/-!
# Line safety

A class line can be recognised again if it stays one line and closes no argument list. This holds
if neither the marker nor a parent has a newline or a closing parenthesis in it; the bundle never
does, being a word.

## Main definitions

- `SiteSettings.LineSafe` for the marker and the composition function
- `Annotator.LineSafe` for a store, parents included

## Main statements

- `Annotator.isLine_line`: the class line of a safe construction
-/

namespace Lineage

/-- Whether a text stays on its line and closes no argument list. -/
def StaysInLine (s : String) : Prop := '\n' ∉ s.toList ∧ ')' ∉ s.toList

instance (s : String) : Decidable (StaysInLine s) :=
  inferInstanceAs (Decidable (_ ∧ _))

theorem staysInLine_append {s t : String} :
    StaysInLine (s ++ t) ↔ StaysInLine s ∧ StaysInLine t := by
  simp only [StaysInLine, String.toList_append, List.mem_append, not_or]
  constructor
  · rintro ⟨⟨hs, ht⟩, hs', ht'⟩
    exact ⟨⟨hs, hs'⟩, ht, ht'⟩
  · rintro ⟨⟨hs, hs'⟩, ht, ht'⟩
    exact ⟨⟨hs, ht⟩, hs', ht'⟩

theorem staysInLine_intercalate {sep : String} (hsep : StaysInLine sep) {names : List String}
    (h : ∀ name ∈ names, StaysInLine name) : StaysInLine (sep.intercalate names) := by
  constructor
  · intro hmem
    rcases exists_mem_of_mem_intercalate hmem with hbetween | ⟨name, hname, hin⟩
    · exact hsep.1 hbetween
    · exact (h name hname).1 hin
  · intro hmem
    rcases exists_mem_of_mem_intercalate hmem with hbetween | ⟨name, hname, hin⟩
    · exact hsep.2 hbetween
    · exact (h name hname).2 hin

/-- A word stays in its line. -/
theorem staysInLine_of_isWordChar {cs : List Char} (h : ∀ c ∈ cs, isWordChar c = true) :
    StaysInLine (String.ofList cs) := by
  rw [StaysInLine, String.toList_ofList]
  constructor
  · intro hmem
    exact absurd (h '\n' hmem) (by decide)
  · intro hmem
    exact absurd (h ')' hmem) (by decide)

/-! ## Lines with a marker -/

/-- The line of a marker and a text. -/
def markedLine (marker text : String) : Bytes := Utf8.ofString (marker ++ " " ++ text ++ "\n")

/-- A marked line is a line if its marker starts with a dash and nothing in it leaves the line. -/
theorem isLine_markedLine {marker text : String} (hdash : marker.toList.head? = some '-')
    (hmarker : StaysInLine marker) (htext : StaysInLine text) : IsLine (markedLine marker text) := by
  -- the line is the dash of its marker and a rest that holds neither a newline nor a parenthesis
  obtain ⟨tail, htail⟩ : ∃ tail, marker.toList = '-' :: tail := List.head?_eq_some_iff.mp hdash
  have hbody : StaysInLine (marker ++ " " ++ text) := by
    rw [staysInLine_append, staysInLine_append]
    exact ⟨⟨hmarker, by decide⟩, htext⟩
  refine ⟨tail ++ ' ' :: text.toList, ?_, ?_, ?_⟩
  · simp [Utf8.ofString, markedLine, htail]
  · intro hmem
    apply hbody.1
    simpa [htail] using hmem
  · intro hmem
    apply hbody.2
    simpa [htail] using hmem

theorem marker_prefix_markedLine (marker text : String) :
    Utf8.ofString marker <+: markedLine marker text := by
  rw [markedLine, Utf8.ofString_append, Utf8.ofString_append, Utf8.ofString_append,
    List.append_assoc, List.append_assoc]
  exact List.prefix_append _ _

theorem markedLine_ne_nil (marker text : String) : markedLine marker text ≠ [] := by
  intro h
  have hnewline : newline ∈ markedLine marker text := by
    rw [markedLine, Utf8.ofString_append, List.mem_append]
    right
    exact newline_mem_encode_iff.mpr (List.mem_singleton.mpr rfl)
  rw [h] at hnewline
  cases hnewline

theorem ClassLine.ofString_render (c : ClassLine) (marker : String) :
    Utf8.ofString (c.render marker) = markedLine marker c.declaration := rfl

theorem ClassLine.staysInLine_declaration {c : ClassLine} (hname : StaysInLine c.name)
    (hparents : ∀ p ∈ c.parents, StaysInLine p) : StaysInLine c.declaration := by
  unfold ClassLine.declaration
  split
  · exact hname
  · have hlist : StaysInLine (", ".intercalate c.parents) :=
      staysInLine_intercalate (by decide) hparents
    rw [staysInLine_append, staysInLine_append]
    exact ⟨⟨hname, by decide⟩, hlist⟩

/-! ## Safe settings and stores -/

/-- Settings under which class lines can be lines: the marker starts with a dash and stays in its
    line, and the composition function is a word. -/
structure SiteSettings.LineSafe (s : SiteSettings) : Prop where
  dash : s.annotationMarker.toList.head? = some '-'
  staysInLine : StaysInLine s.annotationMarker
  isWord : IsWord s.composeFunction

instance (s : SiteSettings) : Decidable s.LineSafe :=
  decidable_of_iff (s.annotationMarker.toList.head? = some '-' ∧ StaysInLine s.annotationMarker ∧
      IsWord s.composeFunction)
    ⟨fun h => ⟨h.1, h.2.1, h.2.2⟩, fun h => ⟨h.dash, h.staysInLine, h.isWord⟩⟩

/-- The default marker and composition function are safe. -/
theorem SiteSettings.lineSafe_default : ({} : SiteSettings).LineSafe := by decide

theorem SiteSettings.lineSafe_of_default {s : SiteSettings}
    (hmarker : s.annotationMarker = "---@class")
    (hcompose : s.composeFunction = "CreateFromMixins") : s.LineSafe := by
  have hdefault := SiteSettings.lineSafe_default
  refine ⟨?_, ?_, ?_⟩
  · rw [hmarker]
    exact hdefault.dash
  · rw [hmarker]
    exact hdefault.staysInLine
  · rw [hcompose]
    exact hdefault.isWord

theorem SiteSettings.LineSafe.marker_ne_empty {s : SiteSettings} (h : s.LineSafe) :
    s.annotationMarker ≠ "" := by
  intro hempty
  have hdash := h.dash
  rw [hempty] at hdash
  cases hdash

namespace Annotator

variable {a : Annotator}

/-- A safe store: the settings are safe, and so are the parents of every construction. -/
structure LineSafe (a : Annotator) (store : Store) : Prop where
  settings : a.settings.LineSafe
  staysInLine : ∀ f ∈ store.files, ∀ m ∈ a.constructionsIn f.content,
    ∀ p ∈ a.parentsFor m, StaysInLine p

/-- The bundle of a construction is a word. -/
theorem staysInLine_bundle (hcompose : IsWord a.settings.composeFunction) {content : Bytes}
    {m : Match} (hm : m ∈ a.constructionsIn content) : StaysInLine m.bundle := by
  obtain ⟨pre, post, c, -, -, hread, rfl⟩ := mem_constructions hm
  obtain ⟨s, rest, hvalid, -, rfl⟩ := (construction?_eq_some_iff hcompose.ofWordChars).mp hread
  exact staysInLine_of_isWordChar hvalid.isWordChar_name

/-- The class line of a construction with safe parents is a line. -/
theorem isLine_line (h : a.settings.LineSafe) {content : Bytes} {m : Match}
    (hm : m ∈ a.constructionsIn content) (hparents : ∀ p ∈ a.parentsFor m, StaysInLine p) :
    IsLine (a.line m) := by
  rw [line, ClassLine.ofString_render]
  apply isLine_markedLine h.dash h.staysInLine
  exact ClassLine.staysInLine_declaration (staysInLine_bundle h.isWord hm) hparents

theorem marker_prefix_line (m : Match) : Utf8.ofString a.settings.annotationMarker <+: a.line m := by
  rw [line, ClassLine.ofString_render]
  exact marker_prefix_markedLine ..

theorem line_ne_nil (m : Match) : a.line m ≠ [] := by
  rw [line, ClassLine.ofString_render]
  exact markedLine_ne_nil _ _

end Annotator

end Lineage
