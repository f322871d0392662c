import Lineage.Annotation.MetaHeader
import Lineage.Proofs.Annotation.Writing

/-!
# Headers in front of contents

A header line that carries no marker moves the constructions of a content and does nothing else to
them: none is added or hidden, and each is annotated if it was before. A content with the header
does not get it again.

## Main definitions

- `SiteSettings.HeaderSafe` for the header line

## Main statements

- `Annotator.constructionsIn_withHeader`, `Annotator.annotated_withHeader`
- `Annotator.openIn_withHeader`, `Annotator.lineNumber_belowHeader`
- `withHeader?_withHeader`
-/

namespace Lineage

variable {header : String} {content : Bytes}

/-! ## The header -/

theorem withHeader_eq_self (h : Utf8.ofString header <+: content) :
    withHeader header content = content := by
  rw [withHeader, withHeader?, if_pos (List.isPrefixOf_iff_prefix.mpr h)]
  rfl

theorem withHeader_eq_append (h : ¬ Utf8.ofString header <+: content) :
    withHeader header content = Utf8.ofString header ++ [newline] ++ content := by
  rw [withHeader, withHeader?, if_neg (fun hstarts => h (List.isPrefixOf_iff_prefix.mp hstarts))]
  simp

/-- A content with the header starts with it. -/
theorem prefix_withHeader (header : String) (content : Bytes) :
    Utf8.ofString header <+: withHeader header content := by
  by_cases h : Utf8.ofString header <+: content
  · rw [withHeader_eq_self h]
    exact h
  · rw [withHeader_eq_append h, List.append_assoc]
    exact List.prefix_append _ _

/-- The header takes no byte away. -/
theorem sublist_withHeader (header : String) (content : Bytes) :
    content.Sublist (withHeader header content) := by
  by_cases h : Utf8.ofString header <+: content
  · rw [withHeader_eq_self h]
  · rw [withHeader_eq_append h]
    exact List.sublist_append_right _ content

/-- The header is put in front once. -/
theorem withHeader?_withHeader (header : String) (content : Bytes) :
    withHeader? header (withHeader header content) = none := by
  rw [withHeader?, if_pos (List.isPrefixOf_iff_prefix.mpr (prefix_withHeader header content))]

/-- The number of bytes that the header takes up in front of a content. -/
def headerWidth (header : String) (content : Bytes) : Nat :=
  (withHeader header content).length - content.length

theorem headerWidth_eq_zero (h : Utf8.ofString header <+: content) :
    headerWidth header content = 0 := by
  rw [headerWidth, withHeader_eq_self h, Nat.sub_self]

theorem headerWidth_eq_length (h : ¬ Utf8.ofString header <+: content) :
    headerWidth header content = (Utf8.ofString header ++ [newline]).length := by
  rw [headerWidth, withHeader_eq_append h, List.length_append, Nat.add_sub_cancel]

/-- A header that stands as a line by itself and does not carry the marker. -/
structure SiteSettings.HeaderSafe (s : SiteSettings) (header : String) : Prop where
  isLine : IsLine (Utf8.ofString header ++ [newline])
  unmarked : ¬ Utf8.ofString s.annotationMarker <:+: Utf8.ofString header ++ [newline]

theorem SiteSettings.HeaderSafe.exists_bytes {s : SiteSettings} {header : String}
    (h : s.HeaderSafe header) :
    ∃ body, Utf8.ofString header = 0x2D :: body ∧ newline ∉ body := by
  obtain ⟨body, hline, hbody⟩ := h.isLine.exists_bytes
  exact ⟨body, List.append_cancel_right (hline.trans (List.cons_append ..).symm), hbody⟩

/-- The default header is safe with the default marker. -/
theorem SiteSettings.headerSafe_of_default {s : SiteSettings}
    (hmarker : s.annotationMarker = "---@class") : s.HeaderSafe "---@meta" where
  isLine := by
    refine ⟨"--@meta".toList, ?_, ?_, ?_⟩
    · decide
    · decide
    · decide
  unmarked := by
    rw [hmarker, ← occursIn_iff]
    decide

/-! ## Constructions below the header -/

theorem isAnnotated_line_append {line : Bytes} (h : IsLine line) {marker compose : String}
    (hmarker : ¬ Utf8.ofString marker <:+: line) {m : Match}
    (hm : m ∈ constructions compose content) :
    isAnnotated marker (line ++ content) (line.length + m.start)
      = isAnnotated marker content m.start := by
  obtain ⟨pre, post, c, rfl, hpre, -, rfl⟩ := mem_constructions hm
  show isAnnotated marker (line ++ (pre ++ post)) (line.length + pre.length)
    = isAnnotated marker (pre ++ post) pre.length
  by_cases hnil : pre = []
  · -- the header is the line above, where nothing was before
    subst hnil
    have habove := h.isAnnotated_append marker post
    have hoccurs : Bytes.occursIn (Utf8.ofString marker) line = false := by
      rw [← Bool.not_eq_true, occursIn_iff]
      exact hmarker
    rw [hoccurs, Bool.and_false] at habove
    show isAnnotated marker (line ++ post) line.length = isAnnotated marker post 0
    rw [isAnnotated_zero, habove]
  · -- the line above is the same as before
    have hbelow := isAnnotated_append_append h.endsLine hpre hnil marker post
    have halone := isAnnotated_append_append endsLine_nil hpre hnil marker post
    rw [List.nil_append] at halone
    rw [← List.append_assoc, ← List.length_append, hbelow, halone]

namespace Annotator

variable {a : Annotator}

theorem moveTo_start {m : Match} (hm : m ∈ a.constructionsIn content) : m.moveTo m.start = m := by
  obtain ⟨pre, post, c, rfl, -, -, rfl⟩ := mem_constructions hm
  exact Construction.moveTo_matchAt c _ _

/-- A construction where it stands below the header. -/
def belowHeader (header : String) (content : Bytes) (m : Match) : Match :=
  m.moveTo (headerWidth header content + m.start)

section

variable (h : a.settings.HeaderSafe header)

include h

/-- The header adds no construction and hides none. -/
theorem constructionsIn_withHeader (content : Bytes) :
    a.constructionsIn (withHeader header content)
      = (a.constructionsIn content).map (belowHeader header content) := by
  by_cases hstarts : Utf8.ofString header <+: content
  · have hid : ∀ m ∈ a.constructionsIn content, belowHeader header content m = id m := by
      intro m hm
      rw [belowHeader, headerWidth_eq_zero hstarts, Nat.zero_add, moveTo_start hm, id]
    rw [withHeader_eq_self hstarts, List.map_congr_left hid, List.map_id]
  · rw [withHeader_eq_append hstarts, constructionsIn, constructions_line_append h.isLine]
    refine List.map_congr_left fun m _ => ?_
    rw [belowHeader, headerWidth_eq_length hstarts]

/-- The header takes no annotation away and adds none. -/
theorem annotated_withHeader {m : Match} (hm : m ∈ a.constructionsIn content) :
    a.annotated (withHeader header content) (belowHeader header content m)
      = a.annotated content m := by
  show isAnnotated _ _ (headerWidth header content + m.start) = _
  by_cases hstarts : Utf8.ofString header <+: content
  · rw [headerWidth_eq_zero hstarts, withHeader_eq_self hstarts, Nat.zero_add, annotated]
  · rw [headerWidth_eq_length hstarts, withHeader_eq_append hstarts]
    exact isAnnotated_line_append h.isLine h.unmarked hm

/-- The same constructions are open below the header. -/
theorem openIn_withHeader (content : Bytes) :
    a.openIn (withHeader header content)
      = (a.openIn content).map (belowHeader header content) := by
  rw [openIn, constructionsIn_withHeader h, List.filter_map, openIn]
  refine congrArg (List.map _) (List.filter_congr fun m hm => ?_)
  show a.isOpen _ (belowHeader header content m) = a.isOpen content m
  rw [isOpen, annotated_withHeader h hm]
  rfl

/-- The header moves every construction down by one line. -/
theorem lineNumber_belowHeader (content : Bytes) (m : Match) :
    lineNumber (withHeader header content) (belowHeader header content m).start
      = lineNumber content m.start + if Utf8.ofString header <+: content then 0 else 1 := by
  show lineNumber _ (headerWidth header content + m.start) = _
  split
  · rename_i hstarts
    rw [withHeader_eq_self hstarts, headerWidth_eq_zero hstarts, Nat.zero_add, Nat.add_zero]
  · rename_i hstarts
    obtain ⟨body, hbytes, hbody⟩ := h.isLine.exists_bytes
    have hcount : (Utf8.ofString header ++ [newline]).count newline = 1 := by
      have hnone : (0x2D :: body).count newline = 0 := by
        rw [List.count_eq_zero, List.mem_cons, not_or]
        exact ⟨by decide, hbody⟩
      rw [hbytes, ← List.cons_append, List.count_append, hnone]
      rfl
    rw [withHeader_eq_append hstarts, headerWidth_eq_length hstarts, lineNumber_append_add, hcount,
      Nat.add_comm]

end

end Annotator

end Lineage
