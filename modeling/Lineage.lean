import Lineage.Main
import Lineage.Proofs.Annotation.Convergence
import Lineage.Proofs.Annotation.LineSafety
import Lineage.Proofs.Annotation.MetaHeader
import Lineage.Proofs.Annotation.Passes
import Lineage.Proofs.Annotation.Recognition
import Lineage.Proofs.Annotation.WaitingGraph
import Lineage.Proofs.Annotation.Writing
import Lineage.Proofs.Construction.Insertion
import Lineage.Proofs.Construction.Matches
import Lineage.Proofs.Construction.Spelling
import Lineage.Proofs.Construction.Weave
import Lineage.Proofs.Data.Names
import Lineage.Proofs.Disk.Changes
import Lineage.Proofs.Disk.Host
import Lineage.Proofs.Disk.Listing
import Lineage.Proofs.Disk.Location
import Lineage.Proofs.Disk.Operations
import Lineage.Proofs.Hierarchy.Answers
import Lineage.Proofs.Hierarchy.Memory
import Lineage.Proofs.Hierarchy.Queries
import Lineage.Proofs.Hierarchy.Reachability
import Lineage.Proofs.Hierarchy.Walk
import Lineage.Proofs.Run.Failure
import Lineage.Proofs.Run.Planning
import Lineage.Proofs.Run.Reading
import Lineage.Proofs.Run.Repetition
import Lineage.Proofs.Run.Saving
import Lineage.Proofs.Source.Index
import Lineage.Proofs.Source.Store
import Lineage.Proofs.Text.Characters
import Lineage.Proofs.Text.Lines
import Lineage.Proofs.Text.Utf8
import Lineage.Proofs.Hierarchy.Cycles
import Lineage.Proofs.Hierarchy.Reports
import Lineage.Proofs.Annotation.Accounting
import Lineage.Proofs.Annotation.Insertions
import Lineage.Proofs.Run.GapLines
import Lineage.Proofs.Aggregate.Classes
import Lineage.Proofs.Aggregate.Declarations
import Lineage.Proofs.Run.Scanning
import Lineage.Proofs.Run.ScanFailure
import Lineage.Proofs.Run.WriteSet
import Lineage.Proofs.Construction.Grammar
import Lineage.Proofs.Annotation.MarkedLines
import Lineage.Proofs.Annotation.BlockedSites
import Lineage.Proofs.Annotation.Ranks
import Lineage.Proofs.Annotation.DependencyOrder
import Lineage.Proofs.Markup.Merging
import Lineage.Proofs.Annotation.Circles
import Lineage.Proofs.Annotation.ReleasedCircles
import Lineage.Proofs.Markup.Parts
import Lineage.Proofs.Markup.Modes
import Lineage.Proofs.Markup.Escaping
import Lineage.Proofs.Markup.Tags
import Lineage.Proofs.Markup.Attributes
import Lineage.Proofs.Markup.Document
import Lineage.Proofs.Run.MarkupModes
import Lineage.Proofs.Hierarchy.Edges
import Lineage.Proofs.Annotation.UnknownParents
import Lineage.Proofs.Disk.Access
import Lineage.Proofs.Run.Headers
import Lineage.Proofs.Run.Persistence
import Lineage.Proofs.Markup.Entities
import Lineage.Proofs.Annotation.MarkupEntities
import Lineage.Proofs.Run.Discovery
import Lineage.Proofs.Source.Partition
import Lineage.Proofs.Text.Digits
import Lineage.Proofs.Yaml.Cursor
import Lineage.Proofs.Yaml.Plain
import Lineage.Proofs.Yaml.Quoted
import Lineage.Proofs.Yaml.Block
import Lineage.Proofs.Yaml.Scanner
import Lineage.Proofs.Yaml.Tokens
import Lineage.Proofs.Yaml.Members
import Lineage.Proofs.Yaml.Reading
import Lineage.Proofs.Settings.RoundTrip
import Lineage.Proofs.Annotation.CircleSearch
import Lineage.Proofs.Annotation.InsertedLine
import Lineage.Proofs.Annotation.Splicing
import Lineage.Proofs.Text.ParentLists
import Lineage.Proofs.Annotation.ShortestCircles
import Lineage.Proofs.Annotation.CircleSearch
import Lineage.Proofs.Annotation.Splicing
import Lineage.Proofs.Annotation.InsertedLine
import Lineage.Proofs.Text.ParentLists
