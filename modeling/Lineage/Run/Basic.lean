import Lineage.Run.Report
import Lineage.Run.Saving

/-!
# Runs

A run reads a corpus, computes what becomes of it, and saves that: the annotated source files and
the aggregate file. The computation in the middle touches no file.

## Main definitions

- `gather` reads what a run goes by
- `Corpus.plan` computes what a run writes and reports
- `run` does all of it
-/

namespace Lineage

/-! ## Reading -/

/-- The directories of a run. -/
structure RunPaths where
  /-- Where markup is read and sources are annotated in place. -/
  corpus : Path
  /-- Where the aggregate file is written. -/
  output : Path
  /-- Where classes are declared that the run leaves alone. -/
  authoritative : Option Path := none
  deriving DecidableEq, Repr

/-- What a run goes by. -/
structure Corpus where
  authoritative : NameSet
  markup : MarkupScan
  sources : Index
  deriving Repr

section

variable {m : Type → Type} [Monad m] [Host m]

/-- Scans markup and sources. Both scans are carried out, and where both fail it is the markup that
    is reported. -/
def scanCorpus (s : Settings) (root : Path) : ExceptT Failure m (MarkupScan × Index) := do
  let markup ← ExceptT.lift (scanMarkup s.scan root).run
  let sources ← ExceptT.lift (scanSources s.scan s.sites.composeFunction root).run
  return (← MonadExcept.ofExcept markup, ← MonadExcept.ofExcept sources)

/-- Reads what a run goes by. -/
def gather (s : Settings) (paths : RunPaths) : ExceptT Failure m Corpus := do
  let authoritative ←
    match paths.authoritative with
    | some root => scanAuthoritative root s.sites.annotationMarker s.scan.sourceExtension
    | none => pure ∅
  let (markup, sources) ← scanCorpus s paths.corpus
  return { authoritative, markup, sources }

end

/-! ## Computing -/

/-- What a run is going to write, and what it will report. -/
structure Plan where
  /-- The source files as they are to be. -/
  store : Store
  /-- The aggregate file. -/
  aggregate : Aggregate
  /-- The report, but for what saving adds to it. -/
  report : Report

namespace Corpus

/-- The annotator of a corpus. -/
def annotator (c : Corpus) (s : Settings) : Annotator :=
  { settings := s.sites, relations := c.markup.relations, authoritative := c.authoritative }

/-- The parent graph of a corpus. -/
def graph (c : Corpus) (s : Settings) : Graph :=
  Graph.ofSources c.markup.relations c.sources.composedParents s.hierarchy.frameParent

/-- Computes what becomes of a corpus. The sites that were left out are looked for before the
    headers are put in front. -/
def plan (c : Corpus) (s : Settings) : Plan :=
  let graph := c.graph s
  let annotator := c.annotator s
  let (annotated, outcome) := annotator.run c.sources.store
  -- their lines count from before the headers
  let gaps := annotator.gaps annotated
  let entities := c.markup.relations.entityNames
  let (aggregate, session) := Aggregate.render s.sites s.emit graph ∅ c.authoritative entities
  let (store, headers) :=
    match s.sites.metaHeader with
    | some header => (annotated.addHeaders header, annotated.countWithoutHeader header)
    | none => (annotated, 0)
  { store
    aggregate
    report :=
      { markupFiles := c.markup.filesScanned
        sourceFiles := c.sources.store.size
        constructionSites := c.sources.siteCount
        authoritativeNames := c.authoritative.size
        entities := entities.size
        directEdges := graph.edgeCount
        passes := outcome.passes
        productivePasses := outcome.productivePasses
        annotationsInserted := outcome.annotationsInserted
        boundExceeded := outcome.boundExceeded
        changedFiles := outcome.changedFiles
        metaHeadersAdded := headers
        aggregateClasses := aggregate.classes
        cycleMembers := session.cycles.keys
        diagnostics :=
          c.markup.diagnostics ++ outcome.diagnostics ++ session.reports ++ gaps } }

end Corpus

/-! ## Saving -/

section

variable {m : Type → Type} [Monad m] [Host m]

/-- Saves what was computed: the source files first, then the aggregate file. -/
def Plan.save (p : Plan) (s : Settings) (output : Path) : ExceptT Failure m Report := do
  let (written, _) ← ExceptT.lift (persist p.store)
  let filesWritten ← MonadExcept.ofExcept written
  let aggregatePath ← emitAggregate s.emit output p.aggregate.text
  return { p.report with filesWritten, aggregatePath }

/-- Annotates a corpus in place, writes the aggregate file and reports. -/
def run (s : ValidSettings) (paths : RunPaths) : ExceptT Failure m Report := do
  let started ← ExceptT.lift Host.now
  let corpus ← gather s.toSettings paths
  let report ← (corpus.plan s.toSettings).save s.toSettings paths.output
  let finished ← ExceptT.lift Host.now
  return { report with elapsedMs := finished - started }

/-- Writes a report to a file. -/
def writeReport (r : Report) (path : Path) : ExceptT Failure m Unit :=
  writeContent path (Utf8.ofString r.toJson.pretty)

end

end Lineage
