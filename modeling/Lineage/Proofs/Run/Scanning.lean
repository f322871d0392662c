import Lineage.Proofs.Disk.Listing
import Lineage.Proofs.Disk.Program
import Lineage.Run.Basic

/-!
# Scans and their failures

A scan looks a root up, finds the files below it and reads them one after another. If looking things
up leaves the state of a host alone, so does a scan, and the failure that it ends in, if any, can be
told from what is looked up: a directory that cannot be listed comes before all files, and of the
files that cannot be used the first one counts.

Nothing is assumed about a host but that; what it lists and what it lets be read may be anything.

## Main definitions

- `Host.Quiet`: looking things up changes nothing
- `scanFailure?`: the failure of a scan
- `FirstFailure`: how a scan fails

## Main statements

- `firstFailure_of_scanFailure?`, `not_firstFailure_of_scanFailure?`: what a failure says, and what
  it says that there is none
- `Program.ends_scan`: a scan and its failure
- `Program.ends_gather`: reading a corpus
-/

namespace Lineage

/-- Looking things up leaves the state of a host alone. -/
class Host.Quiet (σ : Type) [Host (StateM σ)] : Prop where
  entry : ∀ path (st : σ), ∃ found, Host.entry (m := StateM σ) path st = (found, st)
  read : ∀ path (st : σ), ∃ found, Host.read (m := StateM σ) path st = (found, st)
  now : ∀ st : σ, ∃ moment, Host.now (m := StateM σ) st = (moment, st)

/-! ## Orders of paths -/

section

variable {α β : Type} {as : List α}

theorem pairwise_mergeSort_path (place : α → Path) (as : List α) :
    (as.mergeSort fun a b => (place a).compare (place b) != .gt).Pairwise
      fun a b => (place a).compare (place b) ≠ .gt := by
  have htrans : ∀ a b c : α, ((place a).compare (place b) != .gt) = true →
      ((place b).compare (place c) != .gt) = true →
        ((place a).compare (place c) != .gt) = true := by
    intro a b c hab hbc
    have hab' : ((place a).compare (place b)).isLE := by simpa [Ordering.isLE_iff_ne_gt] using hab
    have hbc' : ((place b).compare (place c)).isLE := by simpa [Ordering.isLE_iff_ne_gt] using hbc
    simpa [Ordering.isLE_iff_ne_gt] using Std.TransCmp.isLE_trans hab' hbc'
  have htotal : ∀ a b : α, ((place a).compare (place b) != .gt
      || (place b).compare (place a) != .gt) = true := by
    intro a b
    have hswap : (place b).compare (place a) = ((place a).compare (place b)).swap :=
      Std.OrientedCmp.eq_swap
    rw [hswap]
    cases (place a).compare (place b) <;> rfl
  apply (List.pairwise_mergeSort htrans htotal as).imp
  intro a b hab
  simpa using hab

/-- What is found first in the order of paths comes before everything else that could be found. -/
theorem first_of_findSome? (place : α → Path) {f : α → Option β} {b : β}
    (h : (as.mergeSort fun a b => (place a).compare (place b) != .gt).findSome? f = some b) :
    ∃ a ∈ as, f a = some b ∧ ∀ other ∈ as, f other ≠ none →
      (place a).compare (place other) ≠ .gt := by
  have hsorted := pairwise_mergeSort_path place as
  obtain ⟨before, a, after, hsplit, hfound, hbefore⟩ := List.findSome?_eq_some_iff.mp h
  rw [hsplit] at hsorted
  have hmem : ∀ other, other ∈ as ↔ other ∈ before ++ a :: after := by
    intro other
    rw [← hsplit, List.mem_mergeSort]
  refine ⟨a, (hmem a).mpr (by simp), hfound, fun other hother hsome => ?_⟩
  rcases List.mem_append.mp ((hmem other).mp hother) with hearlier | hlater
  · exact absurd (hbefore other hearlier) hsome
  · rcases List.mem_cons.mp hlater with rfl | hlater
    · have hself : (place other).compare (place other) = .eq := Std.ReflCmp.compare_self
      rw [hself]
      decide
    · have hbehind := (List.pairwise_append.mp hsorted).2.1
      exact (List.pairwise_cons.mp hbehind).1 other hlater

end

/-! ## Failures -/

section

variable {σ : Type} [Host (StateM σ)]

/-- Why the files below a root cannot be found, if they cannot. -/
def discoveryFailure? (st : σ) (root : Path) : Option Failure :=
  match (Host.entry (m := StateM σ) root st).1 with
  | .error cause => some (.discovery root cause)
  | .ok e => (e.obstacle? root).map fun (place, cause) => .discovery place cause

/-- The files that a scan looks at, in order. -/
def scannedFiles (st : σ) (root : Path) (extension : String) : List Path :=
  match (Host.entry (m := StateM σ) root st).1 with
  | .error _ => []
  | .ok e => e.discover root extension

/-- Why a file cannot be used: it cannot be read, or there is a fault in what it holds. -/
def fileFailure? (fault : Path → Bytes → Option Failure) (st : σ) (path : Path) :
    Option Failure :=
  match (Host.read (m := StateM σ) path st).1 with
  | .error cause => some (.access path cause)
  | .ok content => fault path content

/-- Why a scan fails, if it does. -/
def scanFailure? (fault : Path → Bytes → Option Failure) (st : σ) (root : Path)
    (extension : String) : Option Failure :=
  (discoveryFailure? st root).or
    ((scannedFiles st root extension).findSome? (fileFailure? fault st))

/-- There is no fault in a content. -/
def noFault : Path → Bytes → Option Failure := fun _ _ => none

/-- A fault in a markup file counts where the settings are strict. -/
def markupFault? (s : ScanSettings) (path : Path) (content : Bytes) : Option Failure :=
  if s.strictMarkup then (Markup.read content).fault.map fun fault => .markup path fault.message
  else none

/-- Why the classes that are declared outside the corpus cannot be read, if they cannot. A directory
    that is not there is no reason. -/
def authoritativeFailure? (s : Settings) (paths : RunPaths) (st : σ) : Option Failure :=
  match paths.authoritative with
  | none => none
  | some root =>
    match (Host.entry (m := StateM σ) root st).1 with
    | .error _ => none
    | .ok _ => scanFailure? noFault st root s.scan.sourceExtension

/-- Why the markup of a corpus cannot be read, if it cannot. -/
def markupFailure? (s : Settings) (paths : RunPaths) (st : σ) : Option Failure :=
  scanFailure? (markupFault? s.scan) st paths.corpus s.scan.markupExtension

/-- Why the sources of a corpus cannot be read, if they cannot. -/
def sourceFailure? (s : Settings) (paths : RunPaths) (st : σ) : Option Failure :=
  scanFailure? noFault st paths.corpus s.scan.sourceExtension

/-- A scan fails: nothing is at its root, or there is a directory that cannot be listed, and this is
    the first, or all directories can be listed and this is the first file that cannot be used. -/
inductive FirstFailure (fault : Path → Bytes → Option Failure) (st : σ) (root : Path)
    (extension : String) : Failure → Prop where
  | missing {cause : FileError} (entry : (Host.entry (m := StateM σ) root st).1 = .error cause) :
      FirstFailure fault st root extension (.discovery root cause)
  | obstacle {e : Entry (Except FileError Unit)} {place : Path} {cause : FileError}
      (entry : (Host.entry (m := StateM σ) root st).1 = .ok e)
      (mem : (place, cause) ∈ e.obstacles root)
      (first : ∀ o ∈ e.obstacles root, place.compare o.1 ≠ .gt) :
      FirstFailure fault st root extension (.discovery place cause)
  | file {e : Entry (Except FileError Unit)} {path : Path} {failure : Failure}
      (entry : (Host.entry (m := StateM σ) root st).1 = .ok e)
      (clear : e.obstacles root = [])
      (mem : path ∈ (e.files root).filter (Entry.hasExtension extension))
      (fails : fileFailure? fault st path = some failure)
      (first : ∀ other ∈ (e.files root).filter (Entry.hasExtension extension),
        fileFailure? fault st other ≠ none → path.compare other ≠ .gt) :
      FirstFailure fault st root extension failure

theorem Entry.obstacles_eq_nil_of_obstacle? {root : Path} {e : Entry (Except FileError Unit)}
    (h : e.obstacle? root = none) : e.obstacles root = [] := by
  rw [obstacle?, List.head?_eq_none_iff] at h
  -- sorting loses nothing
  rw [← List.length_eq_zero_iff, ← List.length_mergeSort, h, List.length_nil]

/-- What the failure of a scan says. -/
theorem firstFailure_of_scanFailure? {fault : Path → Bytes → Option Failure} {st : σ} {root : Path}
    {extension : String} {failure : Failure}
    (h : scanFailure? fault st root extension = some failure) :
    FirstFailure fault st root extension failure := by
  rw [scanFailure?, discoveryFailure?, scannedFiles] at h
  cases hentry : (Host.entry (m := StateM σ) root st).1 with
  | error cause =>
    rw [hentry] at h
    obtain rfl : Failure.discovery root cause = failure := Option.some.inj h
    exact .missing hentry
  | ok e =>
    rw [hentry] at h
    cases hobstacle : e.obstacle? root with
    | some o =>
      simp only [hobstacle] at h
      obtain rfl : Failure.discovery o.1 o.2 = failure := Option.some.inj h
      rw [Entry.obstacle?, ← List.filterMap_some (l := List.mergeSort _ _),
        List.head?_filterMap] at hobstacle
      obtain ⟨first, hmem, hfirst, hothers⟩ := first_of_findSome? Prod.fst hobstacle
      obtain rfl : first = o := Option.some.inj hfirst
      exact .obstacle hentry hmem fun other hother => hothers other hother (Option.some_ne_none _)
    | none =>
      simp only [hobstacle, Option.map_none, Option.none_or, Entry.discover_eq] at h
      have hclear := Entry.obstacles_eq_nil_of_obstacle? hobstacle
      obtain ⟨path, hmem, hfails, hfirst⟩ := first_of_findSome? id h
      exact .file hentry hclear hmem hfails hfirst

/-- A scan without failure has its root, lists all directories and can use all files. -/
theorem not_firstFailure_of_scanFailure? {fault : Path → Bytes → Option Failure} {st : σ}
    {root : Path} {extension : String} (h : scanFailure? fault st root extension = none)
    (failure : Failure) : ¬ FirstFailure fault st root extension failure := by
  intro hfirst
  rw [scanFailure?, Option.or_eq_none_iff, discoveryFailure?, scannedFiles] at h
  obtain ⟨hdiscovery, hfiles⟩ := h
  cases hfirst with
  | missing entry =>
    rw [entry] at hdiscovery
    cases hdiscovery
  | @obstacle e place cause entry mem first =>
    rw [entry] at hdiscovery
    have hnone : e.obstacle? root = none := Option.map_eq_none_iff.mp hdiscovery
    have hclear := Entry.obstacles_eq_nil_of_obstacle? hnone
    rw [hclear] at mem
    cases mem
  | @file e path failure entry clear mem fails first =>
    rw [entry] at hfiles
    have hmem : path ∈ e.discover root extension := by
      rw [Entry.discover_eq, List.mem_mergeSort]
      exact mem
    have hfine := List.findSome?_eq_none_iff.mp hfiles path hmem
    rw [fails] at hfine
    cases hfine

end

/-! ## Scans -/

namespace Program

variable {σ : Type} [Host (StateM σ)] {st : σ} {root path : Path}
  {extension : String} {fault : Path → Bytes → Option Failure} {β γ : Type}

/-- The files that are found are those that the scan looks at. -/
theorem eq_scannedFiles {paths : List Path}
    (h : discoverFiles (m := StateM σ) root extension st = (.ok paths, st)) :
    paths = scannedFiles st root extension := by
  obtain ⟨found, st₁, hentry, hrest⟩ := bind_eq_ok_iff.mp h
  rw [lift_eq_ok_iff] at hentry
  rw [scannedFiles, hentry]
  cases found with
  | error cause => cases hrest
  | ok e =>
    simp only at hrest
    cases hobstacle : e.obstacle? root with
    | none =>
      rw [hobstacle] at hrest
      exact (pure_eq_ok_iff.mp hrest).1.symm
    | some o =>
      rw [hobstacle] at hrest
      cases hrest

variable [Host.Quiet σ]

/-- A file is read and something is made of what it holds. -/
theorem ends_readContent_bind {f : Bytes → ExceptT Failure (StateM σ) β}
    (hf : ∀ content, Ends (f content) st (fault path content)) :
    Ends (readContent path >>= f) st (fileFailure? fault st path) := by
  obtain ⟨found, hfound⟩ := Host.Quiet.read path st
  rw [fileFailure?, hfound]
  cases found with
  | error cause =>
    have hread : readContent (m := StateM σ) path st = (.error (.access path cause), st) :=
      bind_eq_error_iff.mpr (.inr ⟨.error cause, st, lift_eq_ok_iff.mpr hfound, rfl⟩)
    exact ⟨.error (.access path cause), bind_eq_error_iff.mpr (.inl hread), rfl⟩
  | ok content =>
    have hread : readContent (m := StateM σ) path st = (.ok content, st) :=
      bind_eq_ok_iff.mpr ⟨.ok content, st, lift_eq_ok_iff.mpr hfound, rfl⟩
    exact (hf content).bind_of_eq_ok hread

/-- Files are found, or one of the directories cannot be listed. -/
theorem ends_discoverFiles (root : Path) (extension : String) (st : σ) :
    Ends (discoverFiles root extension) st (discoveryFailure? st root) := by
  obtain ⟨found, hfound⟩ := Host.Quiet.entry root st
  rw [discoveryFailure?, hfound]
  apply Ends.bind_lift hfound
  cases found with
  | error cause => exact ends_throw _ st
  | ok e =>
    simp only
    cases e.obstacle? root with
    | none => exact ends_pure _ st
    | some o => exact ends_throw _ st

/-- A scan ends in the failure that is told from what is looked up. -/
theorem ends_scan {read : Path → ExceptT Failure (StateM σ) β}
    (hread : ∀ path, Ends (read path) st (fileFailure? fault st path)) (build : List β → γ) :
    Ends (do
        let paths ← discoverFiles root extension
        return build (← paths.mapM read)) st (scanFailure? fault st root extension) := by
  apply (ends_discoverFiles root extension st).bind
  intro paths hpaths
  rw [eq_scannedFiles hpaths]
  exact (Ends.mapM hread (scannedFiles st root extension)).bind_pure build

theorem ends_readContent (path : Path) (st : σ) :
    Ends (readContent path) st (fileFailure? noFault st path) := by
  have hread : Ends (readContent path >>= pure) st (fileFailure? noFault st path) :=
    ends_readContent_bind fun content => ends_pure content st
  rw [bind_pure] at hread
  exact hread

theorem ends_readMarkup (s : ScanSettings) (path : Path) (st : σ) :
    Ends (readMarkup s path) st (fileFailure? (markupFault? s) st path) := by
  apply ends_readContent_bind
  intro content
  have hfault : failure? (MarkupFile.ofContent s path content) = markupFault? s path content := by
    rw [markupFault?, MarkupFile.ofContent]
    cases (Markup.read content).fault with
    | none => cases s.strictMarkup <;> rfl
    | some fault => cases s.strictMarkup <;> rfl
  rw [← hfault]
  exact ends_ofExcept _ st

theorem ends_readSource (path : Path) (st : σ) :
    Ends (readSource path) st (fileFailure? noFault st path) :=
  ends_readContent_bind fun content => ends_pure (SourceFile.ofContent path content) st

theorem ends_scanMarkup (s : ScanSettings) (root : Path) (st : σ) :
    Ends (scanMarkup s root) st (scanFailure? (markupFault? s) st root s.markupExtension) :=
  ends_scan (ends_readMarkup s · st) MarkupScan.ofFiles

theorem ends_scanSources (s : ScanSettings) (compose : String) (root : Path) (st : σ) :
    Ends (scanSources s compose root) st (scanFailure? noFault st root s.sourceExtension) :=
  ends_scan (ends_readSource · st) (Index.ofFiles compose)

/-! ## Corpora -/

/-- A directory that is not there declares nothing. -/
theorem ends_scanAuthoritative (root : Path) (marker extension : String) (st : σ) :
    Ends (scanAuthoritative root marker extension) st
      (match (Host.entry (m := StateM σ) root st).1 with
        | .error _ => none
        | .ok _ => scanFailure? noFault st root extension) := by
  obtain ⟨found, hfound⟩ := Host.Quiet.entry root st
  rw [hfound]
  apply Ends.bind_lift hfound
  cases found with
  | error cause => exact ends_pure ∅ st
  | ok e => exact ends_scan (ends_readContent · st) (declaredIn marker)

/-- Both scans are carried out, and the failure of the markup comes first. -/
theorem ends_scanCorpus (s : Settings) (paths : RunPaths) (st : σ) :
    Ends (scanCorpus s paths.corpus) st
      ((markupFailure? s paths st).or (sourceFailure? s paths st)) := by
  obtain ⟨markup, hmarkup, hmarkupFailure⟩ := ends_scanMarkup s.scan paths.corpus st
  obtain ⟨sources, hsources, hsourceFailure⟩ :=
    ends_scanSources s.scan s.sites.composeFunction paths.corpus st
  rw [markupFailure?, sourceFailure?, ← hmarkupFailure, ← hsourceFailure]
  -- both scans give a result, and only then it is looked at
  apply Ends.bind_lift hmarkup
  apply Ends.bind_lift hsources
  apply (ends_ofExcept markup st).bind
  intro markup _
  exact (ends_ofExcept sources st).bind_pure (markup, ·)

/-- Reading a corpus leaves the state alone, and of its three scans the first that fails counts. -/
theorem ends_gather (s : Settings) (paths : RunPaths) (st : σ) :
    Ends (gather s paths) st ((authoritativeFailure? s paths st).or
      ((markupFailure? s paths st).or (sourceFailure? s paths st))) := by
  have hscans : ∀ authoritative : NameSet, Ends (do
      let scans ← scanCorpus s paths.corpus
      return ⟨authoritative, scans.1, scans.2⟩ : ExceptT Failure (StateM σ) Corpus) st
        ((markupFailure? s paths st).or (sourceFailure? s paths st)) := by
    intro authoritative
    exact (ends_scanCorpus s paths st).bind_pure fun scans =>
      (⟨authoritative, scans.1, scans.2⟩ : Corpus)
  rw [gather, authoritativeFailure?]
  cases paths.authoritative with
  | none => exact (ends_pure ∅ st).bind fun authoritative _ => hscans authoritative
  | some root =>
    have hauthoritative := ends_scanAuthoritative root s.sites.annotationMarker
      s.scan.sourceExtension st
    exact hauthoritative.bind fun authoritative _ => hscans authoritative

end Program

end Lineage
