import ThetaSchema.Grammar.Session
import ThetaSchema.Main
import ThetaSchema.Proofs.Grammar.BodyCompleteness
import ThetaSchema.Proofs.Grammar.TypeForms
import ThetaSchema.Proofs.Text.Lines
import ThetaSchema.Proofs.Token.Words
import ThetaSchema.Proofs.Documentation.Normal
import ThetaSchema.Proofs.Documentation.Written
import ThetaSchema.Proofs.Schema.WellFormed
import ThetaSchema.Proofs.Schema.Names
import ThetaSchema.Proofs.Grammar.Parsed
import ThetaSchema.Proofs.Printing.Spells
import ThetaSchema.Proofs.Printing.Types
import ThetaSchema.Proofs.Printing.Definitions
import ThetaSchema.Proofs.Printing.Header
import ThetaSchema.Proofs.Printing.RoundTrip
import ThetaSchema.Proofs.Graph.Reachability
import ThetaSchema.Proofs.Graph.Sites
import ThetaSchema.Proofs.Graph.Exactness
import ThetaSchema.Proofs.Schema.Parts
import ThetaSchema.Proofs.Grammar.Documentation
import ThetaSchema.Proofs.Graph.Reordering
import ThetaSchema.Proofs.Graph.Resolution
import ThetaSchema.Proofs.Graph.Visiting
import ThetaSchema.Proofs.Graph.Report
import ThetaSchema.Proofs.Loading.Closure
import ThetaSchema.Proofs.Schema.Features
import ThetaSchema.Proofs.Grammar.Downgrade
import ThetaSchema.Proofs.Grammar.Layout
import ThetaSchema.Proofs.Grammar.Upgrade
import ThetaSchema.Proofs.Grammar.Joining
import ThetaSchema.Proofs.Schema.Shape
import ThetaSchema.Proofs.Token.Extents
import ThetaSchema.Proofs.Token.Placement
import ThetaSchema.Proofs.Token.Spelling
import ThetaSchema.Proofs.Grammar.Locations
import ThetaSchema.Proofs.Command.Check
import ThetaSchema.Proofs.Grammar.QualifiedNames
import ThetaSchema.Proofs.Loading.ImportedNames
import ThetaSchema.Proofs.Grammar.HeaderForms
import ThetaSchema.Proofs.Token.Spans
import ThetaSchema.Proofs.Grammar.SeparatorLine
import ThetaSchema.Proofs.Documentation.Indentation
import ThetaSchema.Proofs.Graph.Comparison
import ThetaSchema.Proofs.Loading.Course
import ThetaSchema.Proofs.Loading.Extension
import ThetaSchema.Proofs.Command.Output
import ThetaSchema.Proofs.Loading.ModulePaths
import ThetaSchema.Proofs.Text.Versions
import ThetaSchema.Proofs.Loading.Rounds
import ThetaSchema.Proofs.Token.LineBreaks
import ThetaSchema.Proofs.Cursor.Requests
