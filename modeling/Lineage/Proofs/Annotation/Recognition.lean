import Lineage.Proofs.Annotation.Convergence

/-!
# Recognising written class lines

Whether a construction is annotated is seen from the one line above it. A class line whose parents
hold newlines spreads over several lines, and only the last of them is looked at; a construction
below a class line that is not recognised stays open and is annotated over and over again.

## Main statements

- `Annotator.annotated_of_mem`: what a pass has written is seen if its last line has the marker
- `Annotator.run_annotates_once`: safe names are annotated once, in any run
-/

namespace Lineage

namespace Annotator

variable {a : Annotator} {content : Bytes} {ms : List Match} {store : Store}

/-- Whether a construction right below its class line counts as annotated. -/
def recognizes (a : Annotator) (m : Match) : Bool :=
  isAnnotated a.settings.annotationMarker (a.line m) (a.line m).length

theorem endsLine_line (m : Match) : EndsLine (a.line m) := by
  have hnewline : Utf8.ofString "\n" = [newline] := by decide
  rw [line, ClassLine.render, Utf8.ofString_append, hnewline]
  exact endsLine_append_newline _

theorem endsLine_linesAt (hordered : ms.Pairwise fun m n => m.start < n.start) (q : Nat) :
    EndsLine (a.linesAt ms q) := by
  by_cases hnil : a.linesAt ms q = []
  · exact .inl hnil
  · obtain ⟨m, hm, rfl⟩ := exists_of_linesAt_ne_nil hnil
    rw [linesAt_start hordered hm]
    exact endsLine_line m

/-- A construction whose class line was written is annotated exactly if that line is recognised.
    Nothing is asked of its parents here. -/
theorem annotated_of_mem (hms : ms.Sublist (a.constructionsIn content)) {m : Match}
    (hm : m ∈ ms) :
    a.annotated (a.annotate content ms) (a.moved content ms m) = a.recognizes m := by
  have hordered := pairwise_start_of_sublist hms
  have hfound := hms.subset hm
  have hlt := start_lt_length hfound
  obtain ⟨pre, post, c, rfl, hpre, -, rfl⟩ := mem_constructions hfound
  have hpost : post ≠ [] := by
    rintro rfl
    simp [Construction.matchAt] at hlt
  have hline : a.linesAt ms pre.length = a.line (c.matchAt pre.length) := linesAt_start hordered hm
  -- the class line is the only piece put in above the construction
  have hne : a.linesAt ms pre.length ≠ [] := by
    rw [hline]
    exact line_ne_nil _
  show isAnnotated _ (a.annotate _ ms) (place (a.linesAt ms) (pre ++ post) pre.length) = _
  rw [annotate_eq_weave hms,
    isAnnotated_weave_of_ne_nil hpre hpost (endsLine_linesAt hordered _) hne, hline]
  rfl

/-- Safe names are recognised. -/
theorem recognizes_of_isLine (hmarker : a.settings.annotationMarker ≠ "") {m : Match}
    (h : IsLine (a.line m)) : a.recognizes m = true :=
  h.isAnnotated hmarker (marker_prefix_line m).isInfix

/-! ## Runs -/

/-- With the default marker and composition function, a pass over any contents leaves exactly those
    of its constructions unannotated whose class line is not recognised. If no parent of an open
    construction leaves its line or closes an argument list, every run writes the class line of a
    construction at most once, and all that it writes is recognised. -/
theorem run_annotates_once (hmarker : a.settings.annotationMarker = "---@class")
    (hcompose : a.settings.composeFunction = "CreateFromMixins") (store : Store) :
    (∀ k : Knowledge, ∀ f ∈ store.files, ∀ m ∈ a.chosen k f.content,
      a.annotated (a.annotate f.content (a.chosen k f.content))
        (a.moved f.content (a.chosen k f.content) m) = a.recognizes m) ∧
    ((∀ f ∈ store.files, ∀ m ∈ a.openIn f.content, ∀ p ∈ a.parentsFor m, StaysInLine p) →
      (a.run store).2.annotationsInserted ≤ (a.gaps store).length ∧
      ∃ choice : Match → Bool, (a.run store).1 = a.annotateWhere choice store ∧
        (a.run store).2.annotationsInserted = (a.openMatches store).countP choice ∧
        ∀ f ∈ store.files, ∀ m ∈ (a.openIn f.content).filter choice,
          a.annotated (a.annotate f.content ((a.openIn f.content).filter choice))
            (a.moved f.content ((a.openIn f.content).filter choice) m) = true) := by
  have hsettings : a.settings.LineSafe := SiteSettings.lineSafe_of_default hmarker hcompose
  refine ⟨fun k f _ m hm => ?_, fun hnames => ?_⟩
  · exact annotated_of_mem (List.filter_sublist.trans openIn_sublist) hm
  · -- the names of open constructions are all that a run writes
    have hwritable : a.Writable store := by
      refine ⟨hsettings, fun f hf m hm => ?_⟩
      exact isLine_line hsettings (mem_openIn.mp hm).1 (hnames f hf m hm)
    obtain ⟨choice, -, hstore, hinserted⟩ := exists_choice_run hwritable
    refine ⟨?_, choice, hstore, hinserted, fun f hf m hm => ?_⟩
    · rw [hinserted, length_gaps]
      exact List.countP_le_length
    · rw [annotated_of_mem (List.filter_sublist.trans openIn_sublist) hm]
      exact recognizes_of_isLine hsettings.marker_ne_empty
        (hwritable.isLine f hf m (List.mem_of_mem_filter hm))

theorem run_annotates_once_circle :
    (∀ f ∈ circle.files, ∀ m ∈ plain.openIn f.content, ∀ p ∈ plain.parentsFor m, StaysInLine p) ∧
      (plain.run circle).2.annotationsInserted ≤ (plain.gaps circle).length := by
  have hnames : ∀ f ∈ circle.files, ∀ m ∈ plain.openIn f.content, ∀ p ∈ plain.parentsFor m,
      StaysInLine p := by
    decide +kernel
  exact ⟨hnames, ((run_annotates_once rfl rfl circle).2 hnames).1⟩

/-- A composition whose arguments stand on two lines, with a comment between them. -/
def commented : Store :=
  .ofFiles [.ofContent ⟨"a.lua"⟩ <|
    Utf8.ofString "A = CreateFromMixins(\n  B, -- first\n  C\n)\n"]

/-- Its one construction is annotated twice in two passes, and is still open then. -/
theorem commented_annotated_twice :
    (plain.gaps commented).length = 1 ∧
      ((plain.withBound 2).run commented).2.annotationsInserted = 2 ∧
      (plain.gaps ((plain.withBound 2).run commented).1).length = 1 := by
  decide +kernel

end Annotator

end Lineage
