import Lineage.Markup.MarkupFile
import Lineage.Proofs.Markup.Parts
import Lineage.Settings.Basic

/-!
# Strict and lenient reading

A fault in a markup file fails the file where the settings are strict. Otherwise the file stands
for what comes before the fault, and a finding carries the message that the failure would have had.
What comes before the fault is the longest beginning of the content that has none.

## Main definitions

- `ScanSettings.withStrictMarkup` sets the mode
- `Markup.ReadableUpTo` tells how much of a content comes before its first fault

## Main statements

- `Markup.exists_readableUpTo`: the elements that are read before a fault
- `MarkupFile.ofContent_lenient`, `MarkupFile.ofContent_strict_eq_ok_iff` and
  `MarkupFile.ofContent_strict_eq_error_iff`: the two modes
-/

namespace Lineage

/-- Settings with the mode set that faults in markup are treated in. -/
def ScanSettings.withStrictMarkup (s : ScanSettings) (strict : Bool) : ScanSettings :=
  { s with strictMarkup := strict }

namespace Markup

variable {content before : Bytes}

/-! ## Up to the first fault -/

/-- A content can be read up to some place: what comes before it has no fault, and every beginning
    of the content that reaches further has one. -/
structure ReadableUpTo (content before : Bytes) : Prop where
  initial : before <+: content
  fault : (read before).fault = none
  longest : ∀ longer, longer <+: content → before.length < longer.length →
    (read longer).fault ≠ none

/-- The byte order mark of a content, if there is one, stands in front of its beginnings too. -/
theorem exists_mark (content : Bytes) :
    ∃ mark, content = mark ++ withoutMark content ∧
      ∀ initial, initial <+: withoutMark content → withoutMark (mark ++ initial) = initial := by
  unfold withoutMark
  split
  · rename_i rest
    exact ⟨[0xEF, 0xBB, 0xBF], rfl, fun initial _ => rfl⟩
  · rename_i hmark
    refine ⟨[], rfl, fun initial hinitial => ?_⟩
    rw [List.nil_append]
    split
    · rename_i rest
      obtain ⟨tail, htail⟩ := hinitial
      exact absurd htail.symm (hmark _)
    · rfl

/-- A beginning that reaches behind a bracket is cut off somewhere behind it. -/
theorem exists_cut {b : UInt8} {after longer : Bytes} (h : longer <+: before ++ b :: after)
    (hlt : before.length < longer.length) :
    ∃ cut, cut <+: after ∧ longer = before ++ b :: cut := by
  obtain ⟨part, rfl⟩ := List.prefix_of_prefix_length_le (List.prefix_append ..) h hlt.le
  rw [List.prefix_append_right_inj, List.prefix_cons_iff] at h
  rcases h with rfl | ⟨cut, rfl, hcut⟩
  · simp at hlt
  · exact ⟨cut, hcut, rfl⟩

/-- What is read of a content with a fault is what is read of the part before it. -/
theorem exists_readableUpTo (content : Bytes) :
    ∃ before, ReadableUpTo content before ∧ (read before).elements = (read content).elements ∧
      ((read content).fault = none ↔ before = content) := by
  obtain ⟨mark, hcontent, hmark⟩ := exists_mark content
  rcases exists_reads [] (withoutMark content) with ⟨elements, openTags, hreads⟩ |
    ⟨before, after, elements, openTags, hbody, hreads, hfaulty⟩
  · have hfault : (read content).fault = none := by
      rw [read, hreads.readFrom_eq]
    refine ⟨content, ⟨List.prefix_refl content, hfault, fun longer hlonger hlt => ?_⟩, rfl, ?_⟩
    · exact absurd hlonger.length_le (Nat.not_le_of_lt hlt)
    · simp [hfault]
  · have hinitial : before <+: withoutMark content := ⟨_, hbody.symm⟩
    have hbefore : read (mark ++ before) = ⟨elements, none⟩ := by
      rw [read, hmark before hinitial, hreads.readFrom_eq]
    have hsplit : content = (mark ++ before) ++ 0x3C :: after := by
      rw [List.append_assoc, ← hbody, ← hcontent]
    -- the construct behind the part is at fault, also if it is cut short
    have hcuts : ∀ cut, cut <+: after →
        ∃ fault, read ((mark ++ before) ++ 0x3C :: cut) = ⟨elements, some fault⟩ := by
      rintro cut ⟨tail, rfl⟩
      have hcut : before ++ 0x3C :: cut <+: withoutMark content := ⟨tail, by simp [hbody]⟩
      obtain ⟨fault, hfault⟩ : ∃ fault, readFrom (before ++ 0x3C :: cut).length openTags
          (0x3C :: cut) = ⟨[], some fault⟩ := exists_fault_of_faulty hfaulty.of_append
      refine ⟨fault, ?_⟩
      rw [read, List.append_assoc, hmark _ hcut, hreads.readFrom_append, Reading.foldr_cons, hfault,
        List.append_nil]
    obtain ⟨fault, hfault⟩ := hcuts after (List.prefix_refl after)
    rw [← hsplit] at hfault
    refine ⟨mark ++ before, ⟨?_, by rw [hbefore], ?_⟩, by rw [hbefore, hfault], ?_⟩
    · exact ⟨0x3C :: after, hsplit.symm⟩
    · intro longer hlonger hlt
      rw [hsplit] at hlonger
      obtain ⟨cut, hcut, rfl⟩ := exists_cut hlonger hlt
      obtain ⟨fault, hfault⟩ := hcuts cut hcut
      rw [hfault]
      exact Option.some_ne_none fault
    · rw [hfault]
      constructor
      · intro hnone
        cases hnone
      · intro heq
        rw [heq, hfault] at hbefore
        cases hbefore

end Markup

namespace MarkupFile

variable {s : ScanSettings} {path : Path} {content : Bytes}

/-! ## The two modes -/

/-- In lenient mode every content stands for a file. -/
def lenient (s : ScanSettings) (path : Path) (content : Bytes) : MarkupFile :=
  { relations := Relations.ofElements s.frameTags (Markup.read content).elements
    recovered := (Markup.read content).fault.map fun fault => .markupRecovered path fault.message }

theorem ofContent_lenient :
    ofContent (s.withStrictMarkup false) path content = .ok (lenient s path content) := by
  rw [ofContent, lenient]
  cases (Markup.read content).fault <;> rfl

theorem ofContent_strict_eq_ok_iff {file : MarkupFile} :
    ofContent (s.withStrictMarkup true) path content = .ok file ↔
      (lenient s path content).recovered = none ∧ file = lenient s path content := by
  rw [ofContent, lenient]
  cases (Markup.read content).fault with
  | none => simp [ScanSettings.withStrictMarkup, eq_comm]
  | some fault => simp [ScanSettings.withStrictMarkup]

theorem ofContent_strict_eq_error_iff {failure : Failure} :
    ofContent (s.withStrictMarkup true) path content = .error failure ↔
      ∃ message, failure = .markup path message ∧
        (lenient s path content).recovered = some (.markupRecovered path message) := by
  rw [ofContent, lenient]
  cases (Markup.read content).fault with
  | none => simp [ScanSettings.withStrictMarkup]
  | some fault => simp [ScanSettings.withStrictMarkup, eq_comm]

end MarkupFile

end Lineage
