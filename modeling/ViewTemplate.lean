import ViewTemplate.Command
import ViewTemplate.Compile.Attributes
import ViewTemplate.Compile.Classify
import ViewTemplate.Compile.InPlace
import ViewTemplate.Compile.Options
import ViewTemplate.Compile.Ref
import ViewTemplate.Compile.Template
import ViewTemplate.Compile.Walk
import ViewTemplate.Config
import ViewTemplate.Error
import ViewTemplate.Expression.Basic
import ViewTemplate.Expression.Equality
import ViewTemplate.Expression.Error
import ViewTemplate.Expression.Interpolation
import ViewTemplate.Expression.Parser
import ViewTemplate.Expression.Printer
import ViewTemplate.Expression.Reader
import ViewTemplate.Expression.Token
import ViewTemplate.Instruction
import ViewTemplate.Json.Definition
import ViewTemplate.Json.Expression
import ViewTemplate.Json.Markup
import ViewTemplate.Json.Reader
import ViewTemplate.Json.Writer
import ViewTemplate.Markup.Node
import ViewTemplate.Markup.Printer
import ViewTemplate.Markup.Reference
import ViewTemplate.Markup.TagRules
import ViewTemplate.Markup.Token
import ViewTemplate.Markup.Tree
import ViewTemplate.Number.Basic
import ViewTemplate.Number.Decimal
import ViewTemplate.Number.Format
import ViewTemplate.Number.Shortest
import ViewTemplate.Proofs.Compile.Blanks
import ViewTemplate.Proofs.Compile.Configured
import ViewTemplate.Proofs.Compile.Controllers
import ViewTemplate.Proofs.Compile.EachAttribute
import ViewTemplate.Proofs.Compile.Emission
import ViewTemplate.Proofs.Compile.Forged
import ViewTemplate.Proofs.Compile.Groups
import ViewTemplate.Proofs.Compile.HostProperties
import ViewTemplate.Proofs.Compile.InPlace
import ViewTemplate.Proofs.Compile.Inflation
import ViewTemplate.Proofs.Compile.Integrity
import ViewTemplate.Proofs.Compile.LetElements
import ViewTemplate.Proofs.Compile.Lookups
import ViewTemplate.Proofs.Compile.Naming
import ViewTemplate.Proofs.Compile.Nesting
import ViewTemplate.Proofs.Compile.OptionLists
import ViewTemplate.Proofs.Compile.Payloads
import ViewTemplate.Proofs.Compile.Reordering
import ViewTemplate.Proofs.Compile.Rules
import ViewTemplate.Proofs.Compile.Slots
import ViewTemplate.Proofs.Compile.Surface
import ViewTemplate.Proofs.Compile.Targets
import ViewTemplate.Proofs.Expression.Canonical
import ViewTemplate.Proofs.Expression.Cutting
import ViewTemplate.Proofs.Expression.Faults
import ViewTemplate.Proofs.Expression.InStep
import ViewTemplate.Proofs.Expression.Interpolations
import ViewTemplate.Proofs.Expression.Iterations
import ViewTemplate.Proofs.Expression.Layout
import ViewTemplate.Proofs.Expression.Lexing
import ViewTemplate.Proofs.Expression.Precedence
import ViewTemplate.Proofs.Expression.Productions
import ViewTemplate.Proofs.Expression.Reading
import ViewTemplate.Proofs.Expression.Restating
import ViewTemplate.Proofs.Expression.RoundTrip
import ViewTemplate.Proofs.Expression.Segments
import ViewTemplate.Proofs.Expression.Shapes
import ViewTemplate.Proofs.Expression.Sources
import ViewTemplate.Proofs.Expression.Spacing
import ViewTemplate.Proofs.Expression.Spelling
import ViewTemplate.Proofs.Expression.Steps
import ViewTemplate.Proofs.Expression.Tiling
import ViewTemplate.Proofs.Markup.Building
import ViewTemplate.Proofs.Markup.Classes
import ViewTemplate.Proofs.Markup.Conservation
import ViewTemplate.Proofs.Markup.Coverage
import ViewTemplate.Proofs.Markup.Elements
import ViewTemplate.Proofs.Markup.EndTags
import ViewTemplate.Proofs.Markup.Excerpts
import ViewTemplate.Proofs.Markup.Grammar
import ViewTemplate.Proofs.Markup.Growth
import ViewTemplate.Proofs.Markup.ImpliedEnds
import ViewTemplate.Proofs.Markup.Invariants
import ViewTemplate.Proofs.Markup.Items
import ViewTemplate.Proofs.Markup.Legible
import ViewTemplate.Proofs.Markup.Lines
import ViewTemplate.Proofs.Markup.Places
import ViewTemplate.Proofs.Markup.ReadBack
import ViewTemplate.Proofs.Markup.Restoring
import ViewTemplate.Proofs.Markup.RoundTrip
import ViewTemplate.Proofs.Markup.Scanning
import ViewTemplate.Proofs.Markup.Sources
import ViewTemplate.Proofs.Markup.Spans
import ViewTemplate.Proofs.Markup.Writable
import ViewTemplate.Proofs.Number.ReadBack
import ViewTemplate.Proofs.Results
import ViewTemplate.Proofs.Text.Enclosure
import ViewTemplate.Proofs.Text.LowerCase
import ViewTemplate.Proofs.Text.Names
import ViewTemplate.Resource.Basic
import ViewTemplate.Resource.Document
import ViewTemplate.Resource.Mode
import ViewTemplate.Resource.Registry
import ViewTemplate.Source.Diagnostic
import ViewTemplate.Source.Location
import ViewTemplate.Table
import ViewTemplate.Text.Alphabetic
import ViewTemplate.Text.Bytes
import ViewTemplate.Text.Cased
import ViewTemplate.Text.CharClass
import ViewTemplate.Text.CodePoints
import ViewTemplate.Text.Hexadecimal
import ViewTemplate.Text.LowerCase
import ViewTemplate.Text.Name
import ViewTemplate.Text.Numeric
import ViewTemplate.Text.WhiteSpace
