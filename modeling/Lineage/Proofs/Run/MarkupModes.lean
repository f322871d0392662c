import Lineage.Proofs.Markup.Modes
import Lineage.Proofs.Run.Reading

/-!
# Scans in strict and lenient mode

A scan of markup treats faults in the mode that its settings say. In lenient mode it never fails
because of a fault; if all files can be read it lists one finding for each file with a fault, in the
order of the paths. In strict mode it fails because of the first of them, and without any it gives
what the lenient scan gives.

## Main definitions

- `Holds` lists the files that a scan finds, with what they hold

## Main statements

- `scanMarkup_eq`: a scan whose files can all be read
- `lenient_extends_strict`: the two modes, for one content and for a scan
-/

namespace Lineage

open Program (bind_eq_ok_iff bind_eq_error_iff lift_eq_ok_iff)

variable {σ : Type} [Host (StateM σ)] {st : σ} {root : Path} {extension : String}
  {files : List (Path × Bytes)}

/-! ## Files that can be read -/

/-- The files that a scan finds can all be read: these are their paths, in order, with what they
    hold. -/
structure Holds (st : σ) (root : Path) (extension : String) (files : List (Path × Bytes)) :
    Prop where
  discovered : discoveryFailure? st root = none
  paths : files.map Prod.fst = scannedFiles st root extension
  contents : ∀ f ∈ files, (Host.read (m := StateM σ) f.1 st).1 = .ok f.2

/-- The files stand in the order of their paths. -/
theorem Holds.pairwise (h : Holds st root extension files) :
    files.Pairwise fun f g => f.1.compare g.1 ≠ .gt := by
  have hsorted : (scannedFiles st root extension).Pairwise fun p q => p.compare q ≠ .gt := by
    rw [scannedFiles]
    split
    · exact .nil
    · rw [Entry.discover_eq]
      exact pairwise_mergeSort_path id _
  rw [← h.paths, List.pairwise_map] at hsorted
  exact hsorted

variable [Host.Quiet σ] {s : ScanSettings}

theorem readMarkup_eq {path : Path} {content : Bytes}
    (h : (Host.read (m := StateM σ) path st).1 = .ok content) :
    readMarkup (m := StateM σ) s path st = (MarkupFile.ofContent s path content, st) := by
  obtain ⟨found, hfound⟩ := Host.Quiet.read path st
  rw [hfound] at h
  obtain rfl : found = .ok content := h
  have hread : readContent (m := StateM σ) path st = (.ok content, st) :=
    bind_eq_ok_iff.mpr ⟨.ok content, st, lift_eq_ok_iff.mpr hfound, rfl⟩
  cases hfile : MarkupFile.ofContent s path content with
  | error failure =>
    refine bind_eq_error_iff.mpr (.inr ⟨content, st, hread, ?_⟩)
    rw [hfile]
    rfl
  | ok file =>
    refine bind_eq_ok_iff.mpr ⟨content, st, hread, ?_⟩
    rw [hfile]
    rfl

/-- A scan whose files can all be read fails if one of them does. -/
theorem scanMarkup_eq (h : Holds st root s.markupExtension files) :
    scanMarkup (m := StateM σ) s root st
      = ((files.mapM fun f => MarkupFile.ofContent s f.1 f.2).map MarkupScan.ofFiles, st) := by
  have hends := Program.ends_discoverFiles root s.markupExtension st
  rw [h.discovered] at hends
  obtain ⟨paths, hpaths⟩ := hends.exists_eq_ok
  obtain rfl := Program.eq_scannedFiles hpaths
  have hfiles : (scannedFiles st root s.markupExtension).mapM (readMarkup (m := StateM σ) s) st
      = (files.mapM fun f => MarkupFile.ofContent s f.1 f.2, st) := by
    rw [← h.paths, List.mapM_map]
    exact Program.mapM_eq fun f hf => readMarkup_eq (h.contents f hf)
  cases hresult : files.mapM fun f => MarkupFile.ofContent s f.1 f.2 with
  | error failure =>
    rw [hresult] at hfiles
    exact bind_eq_error_iff.mpr (.inr ⟨_, st, hpaths, bind_eq_error_iff.mpr (.inl hfiles)⟩)
  | ok found =>
    rw [hresult] at hfiles
    exact bind_eq_ok_iff.mpr ⟨_, st, hpaths, bind_eq_ok_iff.mpr ⟨found, st, hfiles, rfl⟩⟩

/-! ## The two modes -/

/-- The files of a lenient scan. -/
def lenientFiles (s : ScanSettings) (files : List (Path × Bytes)) : List MarkupFile :=
  files.map fun f => .lenient s f.1 f.2

theorem mapM_lenient :
    (files.mapM fun f => MarkupFile.ofContent (s.withStrictMarkup false) f.1 f.2)
      = .ok (lenientFiles s files) := by
  simp only [MarkupFile.ofContent_lenient]
  exact List.mapM_pure

/-- Reading files in strict mode ends with the first finding of the lenient mode; without any it
    gives the same files. -/
theorem mapM_strict (s : ScanSettings) (files : List (Path × Bytes)) :
    ((lenientFiles s files).filterMap (·.recovered) = [] ∧
      (files.mapM fun f => MarkupFile.ofContent (s.withStrictMarkup true) f.1 f.2)
        = .ok (lenientFiles s files)) ∨
    ∃ path message,
      ((lenientFiles s files).filterMap (·.recovered)).head?
          = some (.markupRecovered path message) ∧
        (files.mapM fun f => MarkupFile.ofContent (s.withStrictMarkup true) f.1 f.2)
          = .error (.markup path message) := by
  induction files with
  | nil => exact .inl ⟨rfl, rfl⟩
  | cons f files ih =>
    rw [List.mapM_cons, lenientFiles, List.map_cons, List.filterMap_cons, ← lenientFiles]
    cases hfile : MarkupFile.ofContent (s.withStrictMarkup true) f.1 f.2 with
    | error failure =>
      obtain ⟨message, rfl, hrecovered⟩ := MarkupFile.ofContent_strict_eq_error_iff.mp hfile
      rw [hrecovered]
      exact .inr ⟨f.1, message, rfl, rfl⟩
    | ok file =>
      obtain ⟨hrecovered, rfl⟩ := MarkupFile.ofContent_strict_eq_ok_iff.mp hfile
      rw [hrecovered]
      rcases ih with ⟨hnone, hrest⟩ | ⟨path, message, hfirst, hrest⟩
      · rw [hrest]
        exact .inl ⟨hnone, rfl⟩
      · rw [hrest]
        exact .inr ⟨path, message, hfirst, rfl⟩

/-- The findings of a lenient scan: one for each file with a fault, in the order of the files, with
    the message of the failure in strict mode. -/
theorem forall₂_findings :
    List.Forall₂ (fun f finding => ∃ message,
        MarkupFile.ofContent (s.withStrictMarkup true) f.1 f.2 = .error (.markup f.1 message) ∧
          finding = .markupRecovered f.1 message)
      (files.filter fun f => (Markup.read f.2).fault.isSome)
      ((lenientFiles s files).filterMap (·.recovered)) := by
  induction files with
  | nil => exact .nil
  | cons f files ih =>
    rw [lenientFiles, List.map_cons, List.filterMap_cons, List.filter_cons, ← lenientFiles]
    cases hfault : (Markup.read f.2).fault with
    | none =>
      have hrecovered : (MarkupFile.lenient s f.1 f.2).recovered = none := by
        rw [MarkupFile.lenient, hfault]
        rfl
      rw [hrecovered]
      exact ih
    | some fault =>
      have hrecovered : (MarkupFile.lenient s f.1 f.2).recovered
          = some (.markupRecovered f.1 fault.message) := by
        rw [MarkupFile.lenient, hfault]
        rfl
      rw [hrecovered]
      refine .cons ⟨fault.message, ?_, rfl⟩ ih
      exact MarkupFile.ofContent_strict_eq_error_iff.mpr ⟨_, rfl, hrecovered⟩

/-- A lenient scan does not fail because of a fault in markup, whether or not its files can be
    read. -/
theorem scanMarkup_lenient_ne_markup (path : Path) (message : String) :
    (scanMarkup (m := StateM σ) (s.withStrictMarkup false) root st).1
      ≠ .error (.markup path message) := by
  intro hfails
  obtain ⟨r, hr, hfailure⟩ := Program.ends_scanMarkup (s.withStrictMarkup false) root st
  rw [hr] at hfails
  obtain rfl : r = _ := hfails
  rcases firstFailure_of_scanFailure? hfailure.symm with _ | _ | ⟨_, _, _, hfile, _⟩
  -- the failure of a file is that it cannot be read
  rw [fileFailure?] at hfile
  split at hfile
  · cases hfile
  · rw [markupFault?, if_neg (by simp [ScanSettings.withStrictMarkup])] at hfile
    cases hfile

/-- Lenient mode extends strict mode.

    A content that strict mode accepts gives the same file in lenient mode, and nothing is found.
    For any other content lenient mode finds the message that strict mode fails with, and keeps the
    relations of the elements that come before the fault: the elements of the longest beginning of
    the content that has none.

    A lenient scan does not fail because of faults. If all files can be read it succeeds, with one
    finding for each file with a fault, in the order of the paths. In strict mode the same scan
    fails with the first of these findings, and without any it gives the same result. -/
theorem lenient_extends_strict (s : ScanSettings) :
    (∀ path content, ∃ file,
      MarkupFile.ofContent (s.withStrictMarkup false) path content = .ok file ∧
      (∀ other, MarkupFile.ofContent (s.withStrictMarkup true) path content = .ok other ↔
        file.recovered = none ∧ other = file) ∧
      (∀ failure, MarkupFile.ofContent (s.withStrictMarkup true) path content = .error failure ↔
        ∃ message, failure = .markup path message ∧
          file.recovered = some (.markupRecovered path message)) ∧
      ∃ before, Markup.ReadableUpTo content before ∧
        file.relations = Relations.ofElements s.frameTags (Markup.read before).elements) ∧
    ∀ (root : Path) (st : σ),
      (∀ path message, (scanMarkup (m := StateM σ) (s.withStrictMarkup false) root st).1
        ≠ .error (.markup path message)) ∧
      ∀ files, Holds st root s.markupExtension files →
        ∃ scan,
          scanMarkup (m := StateM σ) (s.withStrictMarkup false) root st = (.ok scan, st) ∧
          files.Pairwise (fun f g => f.1.compare g.1 ≠ .gt) ∧
          List.Forall₂ (fun f finding => ∃ message,
              MarkupFile.ofContent (s.withStrictMarkup true) f.1 f.2
                = .error (.markup f.1 message) ∧
              finding = .markupRecovered f.1 message)
            (files.filter fun f => (Markup.read f.2).fault.isSome) scan.diagnostics ∧
          (∀ other, scanMarkup (m := StateM σ) (s.withStrictMarkup true) root st = (.ok other, st) ↔
            scan.diagnostics = [] ∧ other = scan) ∧
          ∀ failure,
            scanMarkup (m := StateM σ) (s.withStrictMarkup true) root st = (.error failure, st) ↔
              ∃ path message, scan.diagnostics.head? = some (.markupRecovered path message) ∧
                failure = .markup path message := by
  constructor
  · intro path content
    obtain ⟨before, hbefore, helements, -⟩ := Markup.exists_readableUpTo content
    refine ⟨.lenient s path content, MarkupFile.ofContent_lenient,
      fun _ => MarkupFile.ofContent_strict_eq_ok_iff,
      fun _ => MarkupFile.ofContent_strict_eq_error_iff, before, hbefore, ?_⟩
    rw [helements]
    rfl
  · intro root st
    refine ⟨scanMarkup_lenient_ne_markup, fun files hfiles => ?_⟩
    have hlenient := scanMarkup_eq (s := s.withStrictMarkup false) hfiles
    have hstrict := scanMarkup_eq (s := s.withStrictMarkup true) hfiles
    rw [mapM_lenient] at hlenient
    refine ⟨.ofFiles (lenientFiles s files), hlenient, hfiles.pairwise, forall₂_findings, ?_⟩
    have hdiagnostics : (MarkupScan.ofFiles (lenientFiles s files)).diagnostics
        = (lenientFiles s files).filterMap (·.recovered) := rfl
    rw [hdiagnostics, hstrict]
    rcases mapM_strict s files with ⟨hnone, hresult⟩ |
      ⟨path, message, hfirst, hresult⟩
    · -- nothing was found
      rw [hresult, hnone]
      refine ⟨fun other => ⟨?_, ?_⟩, fun failure => ⟨nofun, ?_⟩⟩
      · intro hother
        cases hother
        exact ⟨rfl, rfl⟩
      · rintro ⟨-, rfl⟩
        rfl
      · rintro ⟨_, _, hfirst, -⟩
        cases hfirst
    · rw [hresult, hfirst]
      refine ⟨fun other => ⟨nofun, ?_⟩, fun failure => ⟨?_, ?_⟩⟩
      · rintro ⟨hnone, -⟩
        rw [hnone] at hfirst
        cases hfirst
      · intro hfailure
        cases hfailure
        exact ⟨path, message, rfl, rfl⟩
      · rintro ⟨_, _, hsame, rfl⟩
        cases hsame
        rfl

/-- Three markup files, of which the second one closes an element that is not the innermost. -/
def mixedContents : List (Path × Bytes) :=
  [(⟨"corpus/a.xml"⟩, Utf8.ofString "<Ui><Frame name='A' mixin='Shared'/></Ui>"),
    (⟨"corpus/b.xml"⟩, Utf8.ofString "<Ui><Frame name='B' mixin='Shared'></Ui>"),
    (⟨"corpus/c.xml"⟩, Utf8.ofString "<Ui><Button name='C' mixin='Own'/></Ui>")]

def mixedCorpus : Disk where
  top := .dir "corpus"
    (.file "a.xml" (Utf8.ofString "<Ui><Frame name='A' mixin='Shared'/></Ui>")
      (.file "b.xml" (Utf8.ofString "<Ui><Frame name='B' mixin='Shared'></Ui>")
        (.file "c.xml" (Utf8.ofString "<Ui><Button name='C' mixin='Own'/></Ui>") .empty))) .empty
  proper := by simp [Listing.Proper, Listing.names, Listing.isEntryName]

theorem holds_mixedCorpus : Holds mixedCorpus ⟨"corpus"⟩ "xml" mixedContents where
  discovered := by decide +kernel
  paths := by
    have hfound : mixedCorpus.filesWith ⟨"corpus"⟩ "xml"
        = (mixedContents.map Prod.fst).mergeSort fun p q => p.compare q != .gt :=
      congrArg (List.mergeSort · _) (by decide +kernel)
    have hsorted : (mixedContents.map Prod.fst).Pairwise fun p q => (p.compare q != .gt) := by
      decide +kernel
    obtain ⟨e, hentry⟩ : ∃ e, mixedCorpus.entry ⟨"corpus"⟩ = .ok e := ⟨_, rfl⟩
    have hdiscovered : discoverFiles (m := StateM Disk) ⟨"corpus"⟩ "xml" mixedCorpus
        = (.ok (mixedCorpus.filesWith ⟨"corpus"⟩ "xml"), mixedCorpus) :=
      Disk.discoverFiles_eq_ok_iff.mpr ⟨⟨e, hentry⟩, rfl, rfl⟩
    rw [← Program.eq_scannedFiles hdiscovered, hfound, List.mergeSort_of_pairwise hsorted]
  contents := by decide +kernel

/-- The lenient scan finds the fault in the second file, and the strict one fails with it. -/
theorem lenient_extends_strict_mixed :
    ∃ scan message,
      scanMarkup (m := StateM Disk) (({} : ScanSettings).withStrictMarkup false) ⟨"corpus"⟩
        mixedCorpus = (.ok scan, mixedCorpus) ∧
      scan.diagnostics = [.markupRecovered ⟨"corpus/b.xml"⟩ message] ∧
      scanMarkup (m := StateM Disk) (({} : ScanSettings).withStrictMarkup true) ⟨"corpus"⟩
        mixedCorpus = (.error (.markup ⟨"corpus/b.xml"⟩ message), mixedCorpus) := by
  obtain ⟨scan, hscan, -, hfindings, -, hfails⟩ :=
    ((lenient_extends_strict ({} : ScanSettings)).2 ⟨"corpus"⟩ mixedCorpus).2 _ holds_mixedCorpus
  have hmalformed : (mixedContents.filter fun f => (Markup.read f.2).fault.isSome)
      = [(⟨"corpus/b.xml"⟩, Utf8.ofString "<Ui><Frame name='B' mixin='Shared'></Ui>")] := by
    decide +kernel
  rw [hmalformed, List.forall₂_cons_left_iff] at hfindings
  obtain ⟨finding, others, ⟨message, -, rfl⟩, hothers, hdiagnostics⟩ := hfindings
  rw [List.forall₂_nil_left_iff] at hothers
  subst hothers
  refine ⟨scan, message, hscan, hdiagnostics, (hfails _).mpr ⟨_, _, ?_, rfl⟩⟩
  rw [hdiagnostics]
  rfl

end Lineage
