import Lineage.Proofs.Hierarchy.Reports
import Lineage.Proofs.Run.Repetition
import Lineage.Proofs.Run.WriteSet

/-!
# The lines of reported gaps

A run looks for gaps in the annotated sources and puts the header in front of them only then. So
the line that it reports for a gap is the one on which the construction stands afterwards if the
file had its header before the run, and one too few if the header came on top.

Class lines do not get in the way of that: they go to line starts, so a file starts with the header
after they are written if and only if it did before.

## Main statements

- `Annotator.InsertsEach.header_prefix_iff`: class lines neither make nor hide a header
- `Corpus.mem_gaps_of_mem_report`: which gaps are reported
- `gap_lines_of_run`: where reported gaps stand
-/

namespace Lineage

/-! ## Headers and class lines -/

namespace Annotator

variable {a : Annotator} {header : String} {content : Bytes}

section

variable (hheader : a.settings.HeaderSafe header)
  (hmarker : ¬ Utf8.ofString header <+: Utf8.ofString a.settings.annotationMarker)

include hheader hmarker

/-- No class line starts with the header. -/
theorem not_header_prefix_line (m : Match) (rest : Bytes) :
    ¬ Utf8.ofString header <+: a.line m ++ rest := by
  intro h
  have hline : Utf8.ofString a.settings.annotationMarker <+: a.line m ++ rest :=
    (marker_prefix_line m).trans (List.prefix_append _ rest)
  rcases List.prefix_or_prefix_of_prefix h hline with hstarts | hstarts
  · exact hmarker hstarts
  · exact hheader.unmarked (hstarts.trans (List.prefix_append _ [newline])).isInfix

/-- A pass neither puts a header in front of a content nor hides the one there. -/
theorem Inserts.header_prefix_iff {is : List Insertion} (h : a.Inserts content is) :
    Utf8.ofString header <+: makeAll content is ↔ Utf8.ofString header <+: content := by
  obtain ⟨body, hbytes, hbody⟩ := hheader.exists_bytes
  have honeLine : newline ∉ Utf8.ofString header := by
    rw [hbytes, List.mem_cons, not_or]
    exact ⟨by decide, hbody⟩
  induction h with
  | nil => rfl
  | @concat is m _ hopen _ huntouched ih =>
    obtain ⟨pre, post, c, rfl, hpre, hread, rfl⟩ := mem_constructions (mem_openIn.mp hopen).1
    rw [makeAll_concat]
    refine Iff.trans ?_ ih
    show _ <+: insertAt _ pre.length _ ↔ _
    by_cases hnil : pre = []
    · -- the content starts with a construction, and the class line goes in front of it
      subst hnil
      have hcontent : ¬ Utf8.ofString header <+: [] ++ post := by
        rintro ⟨rest, rfl⟩
        rw [hbytes, List.cons_append, construction?_eq_none_of_stops
          (Utf8.stops_cons_of_ascii (by decide) (by decide) _)] at hread
        cases hread
      have htext := fun h => hcontent (ih.mp h)
      exact iff_of_false (not_header_prefix_line hheader hmarker _ _) htext
    · -- the lines in front of the construction stay
      have hfront : (makeAll (pre ++ post) is).take pre.length = pre := by
        have hle : pre.length ≤ (c.matchAt pre.length).stop := Nat.le_add_right ..
        have htake := congrArg (List.take pre.length) huntouched
        rw [List.take_take, List.take_take, Nat.min_eq_left hle, List.take_left] at htake
        exact htake
      have hsplit := List.take_append_drop pre.length (makeAll (pre ++ post) is)
      rw [hfront] at hsplit
      rw [insertAt, hfront, List.append_assoc, hpre.prefix_append_iff honeLine hnil, ← hsplit,
        hpre.prefix_append_iff honeLine hnil]

/-- Class lines neither make nor hide a header. -/
theorem InsertsEach.header_prefix_iff {each : List (List Insertion)}
    (h : a.InsertsEach content each) :
    Utf8.ofString header <+: makeAll content each.flatten ↔ Utf8.ofString header <+: content := by
  induction h with
  | nil => rfl
  | cons first _ ih =>
    rw [List.flatten_cons, makeAll_append, ih, first.header_prefix_iff hheader hmarker]

end

/-! ## Where reported gaps come from -/

/-- Annotating itself reports no gaps. -/
theorem unannotated_notMem_run {store : Store} {bundle : String} {path : Path} {line : Nat} :
    .unannotated bundle path line ∉ (a.run store).2.diagnostics := by
  intro h
  rcases finding_of_run h with ⟨_, _, _, heq⟩ | ⟨_, -, heq⟩ | ⟨-, heq⟩ | ⟨_, -, heq⟩ <;> cases heq

end Annotator

/-- What is found on markup files are faults. -/
theorem MarkupFile.eq_markupRecovered {s : ScanSettings} {path : Path} {content : Bytes}
    {file : MarkupFile} (h : MarkupFile.ofContent s path content = .ok file) {d : Diagnostic}
    (hd : file.recovered = some d) : ∃ message, d = .markupRecovered path message := by
  unfold MarkupFile.ofContent at h
  cases hfault : (Markup.read content).fault with
  | none =>
    simp only [hfault] at h
    cases h
    cases hd
  | some fault =>
    simp only [hfault] at h
    split at h
    · cases h
    · cases h
      exact ⟨fault.message, (Option.some.inj hd).symm⟩

theorem Disk.exists_markupRecovered {d : Disk} {s : ScanSettings} {root : Path} {scan : MarkupScan}
    (h : scanMarkup (m := StateM Disk) s root d = (.ok scan, d)) {finding : Diagnostic}
    (hfinding : finding ∈ scan.diagnostics) :
    ∃ path message, finding = .markupRecovered path message := by
  obtain ⟨⟨-, files, rfl, hfiles⟩, -⟩ := Disk.scanMarkup_eq_ok_iff.mp h
  have hfaults : List.Forall₂ (fun file _ => (∀ finding, file.recovered = some finding →
      ∃ path message, finding = .markupRecovered path message) ∧ True) files
      (d.filesWith root s.markupExtension) := by
    refine hfiles.flip.imp ?_
    rintro file path ⟨content, -, hfile⟩
    exact ⟨fun finding hd => ⟨path, MarkupFile.eq_markupRecovered hfile hd⟩, trivial⟩
  obtain ⟨file, hfile, hrecovered⟩ := List.mem_filterMap.mp hfinding
  exact ((List.forall₂_and_left _ _).mp hfaults).1 file hfile finding hrecovered

/-- The aggregate asks for the ancestors of its candidates. -/
theorem Aggregate.session_render (sites : SiteSettings) (emit : EmitSettings) (g : Graph)
    (session : Session) (authoritative entities : NameSet) :
    (Aggregate.render sites emit g session authoritative entities).2
      = session.afterEach g (Aggregate.candidates emit authoritative entities) := by
  change (Aggregate.classLines g session (Aggregate.candidates emit authoritative entities)).2 = _
  rw [Aggregate.classLines, Session.foldl_snd_eq_afterEach]
  exact fun _ _ => rfl

/-! ## Where they stand -/

namespace Corpus

variable {c : Corpus} {s : Settings} {header : String}

/-- What a plan holds for a source file: its class lines, and the header above. -/
theorem exists_store_plan (c : Corpus) (hheader : s.sites.metaHeader = some header) :
    ∃ each : Bytes → List (List Insertion),
      (∀ content, (c.annotator s).InsertsEach content (each content)) ∧
      ((c.annotator s).run c.sources.store).1
        = c.sources.store.edit (fun f => makeAll f.content (each f.content).flatten) ∧
      (c.plan s).store = c.sources.store.edit fun f =>
        withHeader header (makeAll f.content (each f.content).flatten) := by
  obtain ⟨each, heach, hannotated, hplan⟩ := c.exists_recorded_plan s
  refine ⟨each, heach.insertsEach, hannotated, ?_⟩
  rw [hplan]
  exact Store.edit_congr fun f _ => SiteSettings.headed_eq_withHeader hheader _

/-- The reported gaps are those that the annotation leaves. -/
theorem mem_gaps_of_mem_report {d : Disk} {paths : RunPaths}
    (hgather : gather (m := StateM Disk) s paths d = (.ok c, d)) {bundle : String} {path : Path}
    {line : Nat} (h : .unannotated bundle path line ∈ (c.plan s).report.diagnostics) :
    .unannotated bundle path line
      ∈ (c.annotator s).gaps ((c.annotator s).run c.sources.store).1 := by
  obtain ⟨⟨-, -, hmarkup, -⟩, -⟩ := Disk.gather_eq_ok_iff.mp hgather
  rcases List.mem_append.mp h with h | hgap
  · exfalso
    rcases List.mem_append.mp h with h | hsession
    · rcases List.mem_append.mp h with hfault | hrun
      · obtain ⟨_, _, heq⟩ := Disk.exists_markupRecovered hmarkup hfault
        cases heq
      · exact Annotator.unannotated_notMem_run hrun
    · -- sessions report cycles
      have haccounted := (Session.accounted_empty (c.graph s)).afterEach
        (Aggregate.candidates s.emit c.authoritative c.markup.relations.entityNames)
      rw [← Aggregate.session_render s.sites] at haccounted
      obtain ⟨_, _, _, heq, -⟩ := haccounted.reports _ hsession
      cases heq
  · exact hgap

end Corpus

/-- Every gap that a run reports for a file is a construction that stands unannotated in the file
    afterwards, unless the aggregate file took its place. The reported line is the one of the
    construction if the file started with the header before the run; otherwise it is the line
    above. -/
theorem gap_lines_of_run {s : ValidSettings} {paths : RunPaths} {d d' : Disk} {r : Report}
    (hmarker : s.sites.annotationMarker = "---@class")
    (hheader : s.sites.metaHeader = some "---@meta")
    (hrun : run (m := StateM Disk) s paths d = (.ok r, d')) {bundle : String} {path : Path}
    {line : Nat} (hgap : .unannotated bundle path line ∈ r.diagnostics)
    (htarget : path.location ≠ (Aggregate.target s.emit paths.output).location) :
    ∃ before after m, d.read path = .ok before ∧ d'.read path = .ok after ∧
      m ∈ constructions s.sites.composeFunction after ∧ m.bundle = bundle ∧
      isAnnotated s.sites.annotationMarker after m.start = false ∧
      lineNumber after m.start
        = line + if Utf8.ofString "---@meta" <+: before then 0 else 1 := by
  obtain ⟨corpus, saved, hgather, hsave, rfl⟩ := run_eq_ok_iff.mp hrun
  have hreported : .unannotated bundle path line
      ∈ (corpus.plan s.toSettings).report.diagnostics := by
    obtain ⟨_, _, _, _, -, -, rfl⟩ := Disk.save_eq_ok_iff.mp hsave
    exact hgap
  obtain ⟨each, heach, hannotated, hplan⟩ := corpus.exists_store_plan hheader
  have hsafe : (corpus.annotator s.toSettings).settings.HeaderSafe "---@meta" :=
    SiteSettings.headerSafe_of_default hmarker
  have hapart : ¬ Utf8.ofString "---@meta"
      <+: Utf8.ofString (corpus.annotator s.toSettings).settings.annotationMarker := by
    show ¬ _ <+: Utf8.ofString s.sites.annotationMarker
    rw [hmarker]
    decide
  -- the gap is an open construction of an annotated file
  have hleft := Corpus.mem_gaps_of_mem_report hgather hreported
  rw [hannotated] at hleft
  obtain ⟨g, hg, m, hm, rfl, rfl, rfl⟩ := Annotator.mem_gaps.mp hleft
  obtain ⟨f, hf, rfl⟩ := List.mem_map.mp hg
  rw [SourceFile.content_replace] at hm ⊢
  rw [SourceFile.path_replace] at htarget ⊢
  -- it is open below the header too, and that is what the file holds in the end
  have hbelow := List.mem_map_of_mem (f := Annotator.belowHeader "---@meta"
    (makeAll f.content (each f.content).flatten)) hm
  rw [← Annotator.openIn_withHeader hsafe] at hbelow
  obtain ⟨hconstruction, hopen⟩ := Annotator.mem_openIn.mp hbelow
  have hunannotated := (Bool.and_eq_true_iff.mp hopen).1
  rw [Bool.not_eq_true'] at hunannotated
  have hread := (read_of_gather hgather hf).1
  have hafter := (changes_of_save hsave).read_of_content? hread <| content?_of_save
    (fun content => withHeader "---@meta" (makeAll content (each content).flatten))
    hgather hplan hsave hf htarget
  refine ⟨f.content, _, _, hread, hafter, hconstruction, rfl, hunannotated, ?_⟩
  rw [Annotator.lineNumber_belowHeader hsafe]
  simp only [(heach f.content).header_prefix_iff hsafe hapart]

/-- Settings under which a run makes one pass. -/
def onePass : ValidSettings where
  sites := { maxPasses := 1 }
  checked := by decide +kernel

theorem gap_lines_of_run_sample :
    ∃ r d' after m, run (m := StateM Disk) onePass samplePaths sample = (.ok r, d') ∧
      .unannotated "A" ⟨"corpus/a.lua"⟩ 1 ∈ r.diagnostics ∧
      d'.read ⟨"corpus/a.lua"⟩ = .ok after ∧
      m ∈ constructions onePass.sites.composeFunction after ∧ m.bundle = "A" ∧
      lineNumber after m.start = 2 := by
  have hreported : (run (m := StateM Disk) onePass samplePaths sample).1.map
      (fun r => decide (.unannotated "A" ⟨"corpus/a.lua"⟩ 1 ∈ r.diagnostics)) = .ok true := by
    decide +kernel
  have hsource : sample.read ⟨"corpus/a.lua"⟩
      = .ok (Utf8.ofString "A = CreateFromMixins(B)\nB = \x7b\x7d\n") := by decide +kernel
  have htarget : Path.location ⟨"corpus/a.lua"⟩
      ≠ (Aggregate.target onePass.emit samplePaths.output).location := by decide +kernel
  cases hrun : run (m := StateM Disk) onePass samplePaths sample with
  | mk result d' =>
    rw [hrun] at hreported
    cases result with
    | error failure => cases hreported
    | ok r =>
      have hgap : .unannotated "A" ⟨"corpus/a.lua"⟩ 1 ∈ r.diagnostics := by
        simpa [Except.map] using hreported
      obtain ⟨before, after, m, hbefore, hafter, hm, hbundle, -, hline⟩ :=
        gap_lines_of_run rfl rfl hrun hgap htarget
      rw [hsource] at hbefore
      obtain rfl := Except.ok.inj hbefore
      rw [if_neg (by decide)] at hline
      exact ⟨r, d', after, m, rfl, hgap, hafter, hm, hbundle, hline⟩

/-- The sample corpus has no header. One pass leaves its first construction without class line and
    reports it on line 1, but the run puts it on line 2. -/
theorem gap_above_its_line :
    (run (m := StateM Disk) onePass samplePaths sample).1.map
        (fun r => r.diagnostics.filter fun d => d matches .unannotated ..)
      = .ok [.unannotated "A" ⟨"corpus/a.lua"⟩ 1] ∧
    ((run (m := StateM Disk) onePass samplePaths sample).2.read ⟨"corpus/a.lua"⟩).map
        (fun after => (constructions onePass.sites.composeFunction after).map
          fun m => (m.bundle, lineNumber after m.start))
      = .ok [("A", 2), ("B", 4)] := by
  decide +kernel

end Lineage
