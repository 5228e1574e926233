import ComponentAtlas.Binding.Resolve
import ComponentAtlas.Binding.Scan
import ComponentAtlas.Features.Completion
import ComponentAtlas.Features.Context
import ComponentAtlas.Features.Definition
import ComponentAtlas.Features.Hover
import ComponentAtlas.Features.Ownership
import ComponentAtlas.Files.Tree
import ComponentAtlas.Glob.Match
import ComponentAtlas.Glob.Pattern
import ComponentAtlas.Indexing.Candidate
import ComponentAtlas.Indexing.Change
import ComponentAtlas.Indexing.Compile
import ComponentAtlas.Indexing.Snapshot
import ComponentAtlas.Indexing.Stats
import ComponentAtlas.Json.Merge
import ComponentAtlas.Json.Printer
import ComponentAtlas.Json.Reader
import ComponentAtlas.Json.Record
import ComponentAtlas.Json.Shape
import ComponentAtlas.Json.Value
import ComponentAtlas.Markup.Component
import ComponentAtlas.Markup.Document
import ComponentAtlas.Markup.Node
import ComponentAtlas.Markup.Reader
import ComponentAtlas.Markup.TagName
import ComponentAtlas.Metadata.Basic
import ComponentAtlas.Metadata.Diagnostic
import ComponentAtlas.Number.Binary
import ComponentAtlas.Number.Shortest
import ComponentAtlas.Path.Basic
import ComponentAtlas.Provider.Basic
import ComponentAtlas.Provider.Builtin
import ComponentAtlas.Registry.Basic
import ComponentAtlas.Registry.Index
import ComponentAtlas.Registry.Lookup
import ComponentAtlas.Script.Component
import ComponentAtlas.Script.DocComment
import ComponentAtlas.Script.Grammar
import ComponentAtlas.Script.Insertion
import ComponentAtlas.Script.Language
import ComponentAtlas.Script.Lexeme
import ComponentAtlas.Server.Basic
import ComponentAtlas.Server.Call
import ComponentAtlas.Server.Message
import ComponentAtlas.Server.Report
import ComponentAtlas.Server.Workspace
import ComponentAtlas.Session.Basic
import ComponentAtlas.Session.DerivedConfig
import ComponentAtlas.Session.Documents
import ComponentAtlas.Session.Pass
import ComponentAtlas.Session.Update
import ComponentAtlas.Tag.Basic
import ComponentAtlas.Tag.Dialect
import ComponentAtlas.Tag.Identity
import ComponentAtlas.Tag.Stored
import ComponentAtlas.Text.CharClass
import ComponentAtlas.Text.Cursor
import ComponentAtlas.Text.Extent
import ComponentAtlas.Text.LetterCase
import ComponentAtlas.Text.Naming
import ComponentAtlas.Text.Pattern
import ComponentAtlas.Text.Position
import ComponentAtlas.Uri.Basic
import ComponentAtlas.Uri.Percent
import ComponentAtlas.Workspace.Basic
import ComponentAtlas.Workspace.Exclusion
import ComponentAtlas.Workspace.Kind
import ComponentAtlas.Workspace.Manifest
import ComponentAtlas.Workspace.Roots
import ComponentAtlas.Workspace.Settings
import ComponentAtlas.Proofs.Registry.Holdings
import ComponentAtlas.Proofs.Registry.Cascade
import ComponentAtlas.Proofs.Files.Reach
import ComponentAtlas.Proofs.Indexing.Candidates
import ComponentAtlas.Proofs.Indexing.Versions
import ComponentAtlas.Proofs.Registry.Mirrors
import ComponentAtlas.Proofs.Registry.Runs
import ComponentAtlas.Proofs.Session.FullPass
import ComponentAtlas.Proofs.Session.Incremental
import ComponentAtlas.Proofs.Files.Growth
import ComponentAtlas.Proofs.Indexing.Snapshots
import ComponentAtlas.Proofs.Indexing.Sources
import ComponentAtlas.Proofs.Session.Batches
import ComponentAtlas.Proofs.Files.Closed
import ComponentAtlas.Proofs.Indexing.NewFolders
import ComponentAtlas.Proofs.Indexing.Refound
import ComponentAtlas.Proofs.Indexing.Relevance
import ComponentAtlas.Proofs.Indexing.RoundTrip
import ComponentAtlas.Proofs.Session.Footprint
import ComponentAtlas.Proofs.Session.Resuming
import ComponentAtlas.Proofs.Registry.Events
import ComponentAtlas.Proofs.Registry.Identifiers
import ComponentAtlas.Proofs.Provider.Listing
import ComponentAtlas.Proofs.Files.Distinct
import ComponentAtlas.Proofs.Indexing.RootSearch
import ComponentAtlas.Proofs.Indexing.ApartRoots
import ComponentAtlas.Proofs.Text.Positions
import ComponentAtlas.Proofs.Text.Patterns
import ComponentAtlas.Proofs.Binding.Scanning
import ComponentAtlas.Proofs.Markup.Trees
import ComponentAtlas.Proofs.Markup.Reading
import ComponentAtlas.Proofs.Binding.Finding
import ComponentAtlas.Proofs.Number.Packing
import ComponentAtlas.Proofs.Number.Arithmetic
import ComponentAtlas.Proofs.Number.Scaling
import ComponentAtlas.Proofs.Json.Numbers
import ComponentAtlas.Proofs.Json.Merging
import ComponentAtlas.Proofs.Json.Extending
import ComponentAtlas.Proofs.Indexing.Locations
import ComponentAtlas.Proofs.Session.Priority
import ComponentAtlas.Proofs.Session.Deriving
import ComponentAtlas.Proofs.Session.Failing
import ComponentAtlas.Proofs.Session.Silence
import ComponentAtlas.Proofs.Files.Filling
import ComponentAtlas.Proofs.Session.StaleRoots
import ComponentAtlas.Proofs.Session.Intake
import ComponentAtlas.Proofs.Session.Contents
import ComponentAtlas.Proofs.Features.MemberCompletion
import ComponentAtlas.Proofs.Registry.Nesting
import ComponentAtlas.Proofs.Registry.Replacing
import ComponentAtlas.Proofs.Features.AttributePositions
import ComponentAtlas.Proofs.Path.Siblings
import ComponentAtlas.Proofs.Session.Placement
import ComponentAtlas.Proofs.Features.TemplateOwners
import ComponentAtlas.Proofs.Markup.Shapes
import ComponentAtlas.Proofs.Markup.Ancestors
import ComponentAtlas.Proofs.Binding.Scoping
import ComponentAtlas.Proofs.Features.HoverRanges
import ComponentAtlas.Proofs.Path.Endings
import ComponentAtlas.Proofs.Features.BindingTargets
import ComponentAtlas.Proofs.Features.AttributeOwners
import ComponentAtlas.Proofs.Metadata.Normalizing
import ComponentAtlas.Proofs.Script.Members
import ComponentAtlas.Proofs.Tag.Spellings
import ComponentAtlas.Proofs.Binding.Declarations
import ComponentAtlas.Proofs.Text.Returning
import ComponentAtlas.Proofs.Text.Trimming
import ComponentAtlas.Proofs.Script.Documentation
import ComponentAtlas.Proofs.Script.BlankComments
import ComponentAtlas.Proofs.Indexing.Recognition
import ComponentAtlas.Proofs.Files.Ways
import ComponentAtlas.Proofs.Session.FreshFiles
import ComponentAtlas.Proofs.Session.ModulePaths
