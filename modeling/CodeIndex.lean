import CodeIndex.Command
import CodeIndex.Command.Arguments
import CodeIndex.Command.Failure
import CodeIndex.Command.Report
import CodeIndex.Config
import CodeIndex.Config.Reading
import CodeIndex.Decimal.Fixed
import CodeIndex.Decimal.Shortest
import CodeIndex.Digest.Sha256
import CodeIndex.Edge
import CodeIndex.Error
import CodeIndex.Extract.Documentation
import CodeIndex.Extract.File
import CodeIndex.Extract.References
import CodeIndex.Extract.Symbols
import CodeIndex.Files.Database
import CodeIndex.Files.Glob
import CodeIndex.Files.Ignore
import CodeIndex.Files.Tree
import CodeIndex.Files.Walk
import CodeIndex.Graph.Adjacency
import CodeIndex.Graph.Build
import CodeIndex.Graph.Cycle
import CodeIndex.Graph.Direction
import CodeIndex.Graph.Traversal
import CodeIndex.Indexing
import CodeIndex.Json.Cursor
import CodeIndex.Json.Fault
import CodeIndex.Json.Relaxed
import CodeIndex.Json.Schema
import CodeIndex.Json.Tagged
import CodeIndex.Json.Value
import CodeIndex.Language
import CodeIndex.Main
import CodeIndex.Path
import CodeIndex.Pipeline
import CodeIndex.Reference
import CodeIndex.Repository
import CodeIndex.Resolve.Alias
import CodeIndex.Resolve.Import
import CodeIndex.Resolve.Specifier
import CodeIndex.Search.Fold
import CodeIndex.Search.Phrase
import CodeIndex.Search.Snippet
import CodeIndex.Search.Token
import CodeIndex.Search.WordChar
import CodeIndex.Source.Dialect
import CodeIndex.Source.Form
import CodeIndex.Source.Grammar.Expression
import CodeIndex.Source.Grammar.Function
import CodeIndex.Source.Grammar.Markup
import CodeIndex.Source.Grammar.Pattern
import CodeIndex.Source.Grammar.Rule
import CodeIndex.Source.Grammar.Statement
import CodeIndex.Source.Grammar.Table
import CodeIndex.Source.Grammar.Type
import CodeIndex.Source.Input
import CodeIndex.Source.Lexeme
import CodeIndex.Source.Parse
import CodeIndex.Source.Semicolon
import CodeIndex.Source.Tree
import CodeIndex.Source.Trivia
import CodeIndex.SourceFile
import CodeIndex.Store.Basic
import CodeIndex.Store.Pool
import CodeIndex.Store.Project
import CodeIndex.Store.Query
import CodeIndex.Store.Run
import CodeIndex.Store.Search
import CodeIndex.Symbol
import CodeIndex.Sync.Deletion
import CodeIndex.Sync.Export
import CodeIndex.Sync.Image
import CodeIndex.Sync.Import
import CodeIndex.Sync.Manifest
import CodeIndex.Sync.Record
import CodeIndex.Sync.Table
import CodeIndex.Text.Blank
import CodeIndex.Text.Pieces
import CodeIndex.Text.Visible
import CodeIndex.Toml.Document
import CodeIndex.Toml.Number
import CodeIndex.Toml.Quoted
import CodeIndex.Toml.Reader
import CodeIndex.Toml.Value
import CodeIndex.Proofs.Extract.Documentation
import CodeIndex.Proofs.Extract.Enclosing
import CodeIndex.Proofs.Extract.Places
import CodeIndex.Proofs.Files.Extension
import CodeIndex.Proofs.Graph.CycleBound
import CodeIndex.Proofs.Graph.Cycles
import CodeIndex.Proofs.Graph.Duality
import CodeIndex.Proofs.Graph.EdgeKey
import CodeIndex.Proofs.Graph.Followed
import CodeIndex.Proofs.Graph.Links
import CodeIndex.Proofs.Graph.Rotation
import CodeIndex.Proofs.Neighbours
import CodeIndex.Proofs.Pipeline.Counts
import CodeIndex.Proofs.Pipeline.Independence
import CodeIndex.Proofs.ProjectNames
import CodeIndex.Proofs.Resolve.Alias
import CodeIndex.Proofs.Resolve.Comments
import CodeIndex.Proofs.Resolve.Pattern
import CodeIndex.Proofs.Store.Hits
import CodeIndex.Proofs.Store.Repeated
import CodeIndex.Proofs.Store.Replacement
import CodeIndex.Proofs.Sync.Canonical
import CodeIndex.Proofs.Sync.Following
import CodeIndex.Proofs.Sync.History
import CodeIndex.Proofs.Sync.Interleaving
import CodeIndex.Proofs.Sync.Isolation
import CodeIndex.Proofs.Sync.Losses
import CodeIndex.Proofs.Sync.ManifestOrder
import CodeIndex.Proofs.Sync.Quiescence
import CodeIndex.Proofs.Sync.Rendering
import CodeIndex.Proofs.Sync.Repetition
import CodeIndex.Proofs.Transaction
