import Inlay.Command.Arguments
import Inlay.Command.Eval
import Inlay.Command.Flag
import Inlay.Command.Init
import Inlay.Command.LogFlags
import Inlay.Command.Offer
import Inlay.Command.Run
import Inlay.Command.Settings
import Inlay.Command.Source
import Inlay.Command.Transform
import Inlay.Command.Tree
import Inlay.Command.World
import Inlay.Data.Json
import Inlay.Data.Yaml
import Inlay.Data.Yaml.Date
import Inlay.Data.Yaml.Node
import Inlay.Data.Yaml.Phrase
import Inlay.Data.Yaml.Reader
import Inlay.Data.Yaml.Scalar
import Inlay.Data.Yaml.Token
import Inlay.Data.Yaml.Token.Block
import Inlay.Data.Yaml.Token.Quoted
import Inlay.Data.Yaml.Token.Scan
import Inlay.Data.Yaml.Writer
import Inlay.Descriptor.Children
import Inlay.Descriptor.Evaluate
import Inlay.Descriptor.Html
import Inlay.Expr.Basic
import Inlay.Expr.Eval
import Inlay.Expr.Fold
import Inlay.Expr.Nature
import Inlay.Expr.Operator
import Inlay.Expr.Parser
import Inlay.Expr.Token
import Inlay.File.Disk
import Inlay.File.Path
import Inlay.Host.Boundary
import Inlay.Host.Locator
import Inlay.Host.Scoped
import Inlay.Host.Strategy
import Inlay.Log.Attr
import Inlay.Log.Flat
import Inlay.Log.Level
import Inlay.Log.Logger
import Inlay.Log.Nested
import Inlay.Log.Settings
import Inlay.Log.Timestamp
import Inlay.Main
import Inlay.Markup.Assembly
import Inlay.Markup.Content
import Inlay.Markup.Fault
import Inlay.Markup.Kind
import Inlay.Markup.Node
import Inlay.Markup.Tag
import Inlay.Number.Exponential
import Inlay.Number.Layout
import Inlay.Number.Literal
import Inlay.Number.Power
import Inlay.Number.Shortest
import Inlay.Playground.Editor
import Inlay.Playground.History
import Inlay.Playground.Model
import Inlay.Problem
import Inlay.Proofs.Command.FirstFragment
import Inlay.Proofs.Command.Reloading
import Inlay.Proofs.Descriptor.Decoding
import Inlay.Proofs.Descriptor.Mirror
import Inlay.Proofs.Descriptor.Siblings
import Inlay.Proofs.Expr.Computing
import Inlay.Proofs.Expr.Lexing
import Inlay.Proofs.Expr.Parsing
import Inlay.Proofs.File.Writing
import Inlay.Proofs.Host.Agreement
import Inlay.Proofs.Host.Bracing
import Inlay.Proofs.Host.Comments
import Inlay.Proofs.Host.Containment
import Inlay.Proofs.Host.EmptyTags
import Inlay.Proofs.Host.Enclosing
import Inlay.Proofs.Host.ExactPlaces
import Inlay.Proofs.Host.Extent
import Inlay.Proofs.Host.FragmentReading
import Inlay.Proofs.Host.HostText
import Inlay.Proofs.Host.Lexemes
import Inlay.Proofs.Host.Loops
import Inlay.Proofs.Host.Partition
import Inlay.Proofs.Host.Remainder
import Inlay.Proofs.Host.Shrinking
import Inlay.Proofs.Host.TagFaults
import Inlay.Proofs.Host.Trailing
import Inlay.Proofs.Host.Uncovered
import Inlay.Proofs.Markup.Balance
import Inlay.Proofs.Markup.Completeness
import Inlay.Proofs.Markup.ContentReading
import Inlay.Proofs.Markup.Exclusion
import Inlay.Proofs.Markup.InsertionOrder
import Inlay.Proofs.Markup.Nesting
import Inlay.Proofs.Markup.Omission
import Inlay.Proofs.Markup.Remainder
import Inlay.Proofs.Markup.Shape
import Inlay.Proofs.Markup.SourceOrder
import Inlay.Proofs.Markup.Spelling
import Inlay.Proofs.Markup.TagEnds
import Inlay.Proofs.Markup.TagReading
import Inlay.Proofs.Playground.Freshness
import Inlay.Proofs.Playground.Persistence
import Inlay.Proofs.Playground.Sessions
import Inlay.Proofs.Rendering.Bracing
import Inlay.Proofs.Rendering.Caching
import Inlay.Proofs.Rendering.CodeValue
import Inlay.Proofs.Rendering.Commuting
import Inlay.Proofs.Rendering.Embedding
import Inlay.Proofs.Rendering.EmptyTags
import Inlay.Proofs.Rendering.Expansion
import Inlay.Proofs.Rendering.Likeness
import Inlay.Proofs.Rendering.Literals
import Inlay.Proofs.Rendering.ObjectLiteral
import Inlay.Proofs.Rendering.OneLine
import Inlay.Proofs.Rendering.Pieces
import Inlay.Proofs.Rendering.Places
import Inlay.Proofs.Rendering.Plain
import Inlay.Proofs.Rendering.Problems
import Inlay.Proofs.Rendering.PropertyNames
import Inlay.Proofs.Rendering.Recall
import Inlay.Proofs.Rendering.Recursion
import Inlay.Proofs.Rendering.Replacement
import Inlay.Proofs.Rendering.Stability
import Inlay.Proofs.Rendering.Strictness
import Inlay.Proofs.Text.LineColumn
import Inlay.Proofs.Text.Place
import Inlay.Proofs.Text.Quoting
import Inlay.Proofs.Text.Spell
import Inlay.Proofs.Text.Utf8
import Inlay.Rendering.Code
import Inlay.Rendering.Config
import Inlay.Rendering.Session
import Inlay.Rendering.Template
import Inlay.Rendering.Transform
import Inlay.Text.Base64
import Inlay.Text.Blank
import Inlay.Text.Bytes
import Inlay.Text.Case
import Inlay.Text.Distance
import Inlay.Text.Fuzzy
import Inlay.Text.Letter
import Inlay.Text.Mark
import Inlay.Text.Printable
import Inlay.Text.Quoted
import Inlay.Text.Runs
import Inlay.Text.Upper
import Inlay.Text.Utf8
import Inlay.Text.Width
import Inlay.Value
import Inlay.Value.Equality
import Inlay.Value.Json
import Inlay.Value.Member
import Inlay.Value.Yaml
import Inlay.Proofs.Descriptor.Flattening
import Inlay.Proofs.Command.SettingOrder
import Inlay.Proofs.File.Resolving
import Inlay.Proofs.Log.Derived
import Inlay.Proofs.Rendering.Steadiness
import Inlay.Proofs.Command.OutputFile
import Inlay.Proofs.Command.InPlace
import Inlay.Proofs.Command.LogScanning
import Inlay.Proofs.Command.Sources
import Inlay.Proofs.Command.Steps
import Inlay.Proofs.File.Overwriting
import Inlay.Proofs.Log.WrittenLevels
import Inlay.Proofs.Text.Letters
