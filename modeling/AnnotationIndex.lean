import AnnotationIndex.Annotations.Basic
import AnnotationIndex.Annotations.Block
import AnnotationIndex.Annotations.Directive
import AnnotationIndex.Annotations.Namespace
import AnnotationIndex.Annotations.Parse
import AnnotationIndex.Annotations.Payload
import AnnotationIndex.Association
import AnnotationIndex.Batch
import AnnotationIndex.CommandLine.Arguments
import AnnotationIndex.CommandLine.Help
import AnnotationIndex.CommandLine.Run
import AnnotationIndex.CommandLine.Suggestion
import AnnotationIndex.CommandLine.Usage
import AnnotationIndex.Comment.Line
import AnnotationIndex.Comment.Syntax
import AnnotationIndex.Configuration
import AnnotationIndex.Configuration.Load
import AnnotationIndex.Constraint
import AnnotationIndex.Diagnostic
import AnnotationIndex.Digest.Sha256
import AnnotationIndex.Disk
import AnnotationIndex.Glob.Brace
import AnnotationIndex.Glob.Bracket
import AnnotationIndex.Glob.Match
import AnnotationIndex.Glob.Segment
import AnnotationIndex.Index.Assembly
import AnnotationIndex.Index.Basic
import AnnotationIndex.Index.Document
import AnnotationIndex.Index.IndexedFile
import AnnotationIndex.Index.Restore
import AnnotationIndex.Index.Summary
import AnnotationIndex.Json.Check
import AnnotationIndex.Json.Print
import AnnotationIndex.Json.Read
import AnnotationIndex.Json.Value
import AnnotationIndex.Language
import AnnotationIndex.LineSpan
import AnnotationIndex.Link.Edges
import AnnotationIndex.Link.ExportSearch
import AnnotationIndex.Link.FileSet
import AnnotationIndex.Link.Inquiry
import AnnotationIndex.Link.ModuleTarget
import AnnotationIndex.Link.Session
import AnnotationIndex.Link.Tables
import AnnotationIndex.Log
import AnnotationIndex.Main
import AnnotationIndex.Membership.GlobReader
import AnnotationIndex.Membership.IgnoreRule
import AnnotationIndex.Membership.ProjectFilter
import AnnotationIndex.Membership.Scan
import AnnotationIndex.Number.Binary
import AnnotationIndex.Number.Decimal
import AnnotationIndex.Outline.Basic
import AnnotationIndex.Outline.CodeLine
import AnnotationIndex.Outline.Extractor
import AnnotationIndex.Outline.Go
import AnnotationIndex.Outline.Java
import AnnotationIndex.Outline.Mask
import AnnotationIndex.Outline.Python
import AnnotationIndex.Outline.Registry
import AnnotationIndex.Outline.Rust
import AnnotationIndex.Outline.Script
import AnnotationIndex.Outline.Script.BindingGrammar
import AnnotationIndex.Outline.Script.ClassGrammar
import AnnotationIndex.Outline.Script.ElementGrammar
import AnnotationIndex.Outline.Script.Exported
import AnnotationIndex.Outline.Script.ExpressionGrammar
import AnnotationIndex.Outline.Script.Grammar
import AnnotationIndex.Outline.Script.Names
import AnnotationIndex.Outline.Script.Parse
import AnnotationIndex.Outline.Script.StatementGrammar
import AnnotationIndex.Outline.Script.Token
import AnnotationIndex.Outline.Script.Tree
import AnnotationIndex.Outline.Script.TypeGrammar
import AnnotationIndex.Outline.UseTree
import AnnotationIndex.Path
import AnnotationIndex.Project.Basic
import AnnotationIndex.Project.Batcher
import AnnotationIndex.Project.Changes
import AnnotationIndex.Project.Promise
import AnnotationIndex.Project.Store
import AnnotationIndex.Project.Update
import AnnotationIndex.Project.Watch
import AnnotationIndex.Provenance.Basic
import AnnotationIndex.Provenance.Date
import AnnotationIndex.Provenance.Group
import AnnotationIndex.Query.Display
import AnnotationIndex.Query.Finding
import AnnotationIndex.Query.Response
import AnnotationIndex.Query.Result
import AnnotationIndex.Query.Search
import AnnotationIndex.Query.Statistics
import AnnotationIndex.Table
import AnnotationIndex.Text.Blank
import AnnotationIndex.Text.Case
import AnnotationIndex.Text.CaseTable
import AnnotationIndex.Text.IdentifierTable
import AnnotationIndex.Text.Lines
import AnnotationIndex.Text.Order
import AnnotationIndex.Text.Pattern
import AnnotationIndex.Text.Search
import AnnotationIndex.Text.Unit
import AnnotationIndex.Yaml.Read
import AnnotationIndex.Yaml.Scalar
import AnnotationIndex.Proofs.Inquiry
import AnnotationIndex.Proofs.ModuleTarget
import AnnotationIndex.Proofs.Search
import AnnotationIndex.Proofs.Session
import AnnotationIndex.Proofs.Frame
import AnnotationIndex.Proofs.IndexedFile
import AnnotationIndex.Proofs.Reach
import AnnotationIndex.Proofs.Statement
import AnnotationIndex.Proofs.Table
import AnnotationIndex.Proofs.Assembly
import AnnotationIndex.Proofs.Restore
import AnnotationIndex.Proofs.Affected
import AnnotationIndex.Proofs.ExportSource
import AnnotationIndex.Proofs.Naming
import AnnotationIndex.Proofs.Rebuild
import AnnotationIndex.Proofs.Annotation
import AnnotationIndex.Proofs.ReservedNamespace
import AnnotationIndex.Proofs.DistinctNames
import AnnotationIndex.Proofs.Attribution
import AnnotationIndex.Proofs.Consistency
import AnnotationIndex.Proofs.KeyOrder
import AnnotationIndex.Proofs.StringText
import AnnotationIndex.Proofs.Rounding
import AnnotationIndex.Proofs.ShortestDecimal
import AnnotationIndex.Proofs.NumberText
import AnnotationIndex.Proofs.JsonText
import AnnotationIndex.Proofs.Checked
import AnnotationIndex.Proofs.Schema
import AnnotationIndex.Proofs.LineNumbers
import AnnotationIndex.Proofs.AnnotationLines
import AnnotationIndex.Proofs.Storable
import AnnotationIndex.Proofs.StorableIndex
import AnnotationIndex.Proofs.SaveLoad
import AnnotationIndex.Proofs.Spelled
import AnnotationIndex.Proofs.Accepted
import AnnotationIndex.Proofs.Rereading
import AnnotationIndex.Proofs.Lockstep
import AnnotationIndex.Proofs.Refused
import AnnotationIndex.Proofs.StoreEffect
import AnnotationIndex.Proofs.Turns
import AnnotationIndex.Proofs.Replay
import AnnotationIndex.Proofs.Settling
import AnnotationIndex.Proofs.Handover
import AnnotationIndex.Proofs.Saving
import AnnotationIndex.Proofs.AnnotationMap
import AnnotationIndex.Proofs.LineOrder
import AnnotationIndex.Proofs.OneOwner
import AnnotationIndex.Proofs.Recorded
import AnnotationIndex.Proofs.Locks
import AnnotationIndex.Proofs.ProvenanceStats
import AnnotationIndex.Proofs.Domains
import AnnotationIndex.Proofs.CommentRegions
import AnnotationIndex.Proofs.MaskedLines
import AnnotationIndex.Proofs.RawReads
import AnnotationIndex.Proofs.CommentReads
import AnnotationIndex.Proofs.Climbing
import AnnotationIndex.Proofs.PathNames
import AnnotationIndex.Proofs.CratePaths
import AnnotationIndex.Proofs.CrateRoot
import AnnotationIndex.Proofs.LineKinds
import AnnotationIndex.Proofs.LeadingUnits
import AnnotationIndex.Proofs.StartLines
import AnnotationIndex.Proofs.DeclarationOrder
import AnnotationIndex.Proofs.Askable
import AnnotationIndex.Proofs.Repair
import AnnotationIndex.Proofs.Segments
import AnnotationIndex.Proofs.WildNames
import AnnotationIndex.Proofs.GlobReading
import AnnotationIndex.Proofs.WildGlobs
import AnnotationIndex.Proofs.Membership
import AnnotationIndex.Proofs.Conservation
import AnnotationIndex.Proofs.StatementKey
import AnnotationIndex.Proofs.Passages
import AnnotationIndex.Proofs.DirectiveLines
import AnnotationIndex.Proofs.Columns
import AnnotationIndex.Proofs.CommentEnds
import AnnotationIndex.Proofs.MaximalBlocks
import AnnotationIndex.Proofs.DirectiveText
import AnnotationIndex.Proofs.PatternReading
import AnnotationIndex.Proofs.UseTrees
import AnnotationIndex.Proofs.OwnExports
import AnnotationIndex.Proofs.CanonicalText
import AnnotationIndex.Proofs.Flushes
import AnnotationIndex.Proofs.Batches
import AnnotationIndex.Proofs.Lowering
import AnnotationIndex.Proofs.CaseSearch
import AnnotationIndex.Proofs.Lifetimes
import AnnotationIndex.Proofs.Courses
import AnnotationIndex.Proofs.Reports
import AnnotationIndex.Proofs.ProjectKeys
