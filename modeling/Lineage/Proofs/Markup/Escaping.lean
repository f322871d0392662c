import Lineage.Markup.Attribute
import Lineage.Proofs.Text.Utf8

/-!
# Values and their spelling

A text is written as an attribute value with a reference in place of each character that markup
treats specially. Reading the value gives the text back, and none of the special characters stands
in it but the signs that start and end references.

## Main definitions

- `Reference.escape` writes a text as a value

## Main statements

- `Reference.expand_escape`: reading what was escaped
- `Markup.text_of_escape`: the text of an attribute
-/

namespace Lineage

namespace Reference

/-! ## Escaping -/

/-- The name that a special character is written by. -/
def name? : Char → Option (List Char)
  | '<' => some ['l', 't']
  | '>' => some ['g', 't']
  | '&' => some ['a', 'm', 'p']
  | '\'' => some ['a', 'p', 'o', 's']
  | '"' => some ['q', 'u', 'o', 't']
  | _ => none

/-- A character in a value. -/
def escapeChar (c : Char) : List Char :=
  match name? c with
  | some name => '&' :: (name ++ [';'])
  | none => [c]

/-- A text as a value. -/
def escape (cs : List Char) : List Char := cs.flatMap escapeChar

/-- The names are those that are known, without special characters and what ends a reference. -/
theorem name?_cases {c : Char} {name : List Char} (h : name? c = some name) :
    named? name = some c ∧ name.head? ≠ some '#' ∧
      ∀ d ∈ name, isDelimiter d = false ∧ name? d = none := by
  unfold name? at h
  split at h <;> cases h <;> simp [named?, isDelimiter, name?]

theorem resolve_name {c : Char} {name : List Char} (h : name? c = some name) (start : Nat) :
    resolve start name = .ok c := by
  obtain ⟨hnamed, hhash, -⟩ := name?_cases h
  unfold resolve
  split
  · simp at hhash
  · rw [hnamed]

/-- A character is read back from a value. -/
theorem expandFrom_escapeChar (length offset : Nat) (read : List Char) (c : Char)
    (rest : List Char) :
    ∃ offset', expandFrom length read offset (escapeChar c ++ rest)
      = expandFrom length (c :: read) offset' rest := by
  cases hname : name? c with
  | none =>
    have hplain : c ≠ '&' := by
      rintro rfl
      cases hname
    rw [escapeChar, hname]
    refine ⟨offset + c.utf8Size, ?_⟩
    show expandFrom length read offset (c :: rest) = _
    rw [expandFrom, if_neg hplain]
  | some name =>
    have hplain : ∀ d ∈ name, (!isDelimiter d) = true := by
      intro d hd
      simp [((name?_cases hname).2.2 d hd).1]
    have htake : (name ++ ';' :: rest).takeWhile (!isDelimiter ·) = name := by
      rw [List.takeWhile_append_of_pos hplain]
      simp [isDelimiter]
    have hdrop : (name ++ ';' :: rest).dropWhile (!isDelimiter ·) = ';' :: rest := by
      rw [List.dropWhile_append_of_pos hplain]
      simp [isDelimiter]
    rw [escapeChar, hname]
    refine ⟨offset + Utf8.width name + 2, ?_⟩
    show expandFrom length read offset ('&' :: (name ++ [';'] ++ rest)) = _
    rw [List.append_assoc, List.singleton_append, expandFrom, if_pos rfl]
    split
    · rename_i after hafter
      rw [hdrop] at hafter
      cases hafter
      simp only [htake, resolve_name hname]
    · rename_i hnot
      exact absurd hdrop (hnot rest)

theorem expandFrom_escape (length offset : Nat) (read cs : List Char) :
    expandFrom length read offset (escape cs) = .ok (read.reverse ++ cs) := by
  induction cs generalizing offset read with
  | nil =>
    rw [escape, List.flatMap_nil, expandFrom, List.append_nil]
  | cons c cs ih =>
    obtain ⟨offset', hc⟩ := expandFrom_escapeChar length offset read c (escape cs)
    rw [escape, List.flatMap_cons, ← escape, hc, ih]
    simp

theorem expand_escape (cs : List Char) :
    expand (String.ofList (escape cs)) = .ok (String.ofList cs) := by
  rw [expand, String.toList_ofList, expandFrom_escape]
  rfl

/-- A character that is written by a name does not stand in a value, unless it starts a
    reference. -/
theorem not_mem_escape {c : Char} (h : name? c ≠ none) (hc : c ≠ '&') (cs : List Char) :
    c ∉ escape cs := by
  intro hmem
  obtain ⟨d, -, hd⟩ := List.mem_flatMap.mp hmem
  unfold escapeChar at hd
  split at hd
  · rename_i name hname
    rw [List.mem_cons, List.mem_append, List.mem_singleton] at hd
    rcases hd with rfl | hd | rfl
    · exact hc rfl
    · exact h ((name?_cases hname).2.2 c hd).2
    · exact h rfl
  · rename_i hnone
    rw [List.mem_singleton.mp hd] at h
    exact h hnone

end Reference

namespace Markup

/-- The text of a value is what was written as that value. -/
theorem text_of_escape (key : Bytes) (value : String) :
    Attribute.text ⟨key, Utf8.encode (Reference.escape value.toList)⟩ = .ok value := by
  rw [Attribute.text, Utf8.decode_encode]
  show (Reference.expand _).mapError _ = _
  rw [Reference.expand_escape, String.ofList_toList]
  rfl

end Markup

end Lineage
