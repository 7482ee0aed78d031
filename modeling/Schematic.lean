import Schematic.Classification
import Schematic.Command.Arguments
import Schematic.Command.Disk
import Schematic.Command.Help
import Schematic.Command.Run
import Schematic.Command.Surroundings
import Schematic.Diagnostic
import Schematic.Dialect.Basic
import Schematic.Dialect.Detection
import Schematic.Document.Basic
import Schematic.Geometry.Basic
import Schematic.Geometry.Binary
import Schematic.Geometry.Hundredths
import Schematic.Geometry.Path
import Schematic.Geometry.Polyline
import Schematic.Geometry.Scalar
import Schematic.Json.Basic
import Schematic.Json.Document
import Schematic.Json.Layout
import Schematic.KeyedList
import Schematic.Layout.Basic
import Schematic.Layout.Column
import Schematic.Layout.Compound
import Schematic.Layout.Drawing
import Schematic.Layout.Measure
import Schematic.Layout.Sequence
import Schematic.Layout.Style
import Schematic.Main
import Schematic.Outline.Basic
import Schematic.Outline.Build
import Schematic.Pieces
import Schematic.Ranking.Acyclic
import Schematic.Ranking.Coordinates
import Schematic.Ranking.Crossing
import Schematic.Ranking.Digraph
import Schematic.Ranking.Layering
import Schematic.Ranking.Placement
import Schematic.Ranking.Relaxation
import Schematic.Ranking.Subdivision
import Schematic.Ranking.Tally
import Schematic.Reading.Cursor
import Schematic.Reading.Declaration
import Schematic.Reading.EdgeLine
import Schematic.Reading.FieldRow
import Schematic.Reading.Phrase
import Schematic.Reading.Run
import Schematic.Reading.Statement
import Schematic.Reading.Text
import Schematic.Text.Alphanumeric
import Schematic.Text.Blank
import Schematic.Text.Capital
import Schematic.Text.CaseTable
import Schematic.Text.ControlSequence
import Schematic.Text.Digit
import Schematic.Text.Integer
import Schematic.Text.Lines
import Schematic.Text.Lowercase
import Schematic.Text.Printable
import Schematic.Text.Quoted
import Schematic.Text.Switches
import Schematic.Text.Words
import Schematic.Token.Basic
import Schematic.Token.Scan
import Schematic.Proofs.Reading.Acceptance
import Schematic.Proofs.Reading.Progress
import Schematic.Proofs.Text.Words
import Schematic.Proofs.Token.Names
import Schematic.Proofs.Writing.Ink
import Schematic.Proofs.Writing.Native
import Schematic.Proofs.Writing.Facing
import Schematic.Proofs.KeyedList
import Schematic.Proofs.Writing.Parts
import Schematic.Proofs.Writing.RoundTrip
import Schematic.Proofs.Ranking.Acyclic
import Schematic.Proofs.Ranking.Layering
import Schematic.Proofs.Ranking.Ordering
import Schematic.Proofs.Ranking.Subdivision
import Schematic.Proofs.Geometry.Exact
import Schematic.Proofs.Ranking.Coordinates
import Schematic.Proofs.Ranking.Spacing
import Schematic.Proofs.Ranking.Placement
import Schematic.Proofs.Outline.Containers
import Schematic.Proofs.Outline.Sound
import Schematic.Proofs.Ranking.Separation
import Schematic.Proofs.Outline.Chains
import Schematic.Proofs.Outline.Queries
import Schematic.Proofs.Outline.Document
import Schematic.Proofs.Layout.Filing
import Schematic.Proofs.Layout.Placing
import Schematic.Proofs.Layout.Positions
import Schematic.Proofs.Layout.Groups
import Schematic.Proofs.Layout.Steps
import Schematic.Proofs.Layout.Sizes
import Schematic.Proofs.Layout.Complete
import Schematic.Proofs.Layout.Enclosure
import Schematic.Proofs.Forest
import Schematic.Proofs.Diagnostic
import Schematic.Proofs.Token.Sources
import Schematic.Proofs.Token.Tiling
import Schematic.Proofs.Token.Splicing
import Schematic.Proofs.Reading.Effect
import Schematic.Proofs.Reading.Relocation
import Schematic.Proofs.Reading.Lookahead
import Schematic.Proofs.Reading.Appending
import Schematic.Proofs.Reading.GroupLine
import Schematic.Proofs.Reading.GroupText
import Schematic.Proofs.Geometry.Axis
import Schematic.Proofs.Text.Numerals
import Schematic.Proofs.Ranking.Chains
import Schematic.Proofs.Ranking.Routing
import Schematic.Proofs.Layout.Attachment
import Schematic.Proofs.Outline.Addresses
import Schematic.Proofs.Outline.Tree
import Schematic.Proofs.Layout.Agreement
import Schematic.Proofs.Ranking.Overhang
import Schematic.Proofs.Layout.Canvas
import Schematic.Proofs.Token.Remarks
import Schematic.Proofs.Reading.Contents
import Schematic.Proofs.Reading.Remarks
import Schematic.Proofs.Reading.Passing
import Schematic.Proofs.Token.Insertion
import Schematic.Proofs.Reading.Insertion
import Schematic.Proofs.Token.Printing
import Schematic.Proofs.Reading.Brackets
import Schematic.Proofs.Reading.Nesting
import Schematic.Proofs.Renaming.Keys
import Schematic.Proofs.Renaming.Ranks
import Schematic.Proofs.Renaming.Placement
import Schematic.Proofs.Renaming.Outline
import Schematic.Proofs.Renaming.Drawing
import Schematic.Proofs.Renaming.Independence
import Schematic.Proofs.Ranking.Degrees
import Schematic.Proofs.Ranking.Tally
import Schematic.Proofs.Ranking.Feedback
import Schematic.Proofs.Ranking.CycleFree
import Schematic.Proofs.Writing.EdgeText
import Schematic.Proofs.Reading.EdgeChain
import Schematic.Proofs.Reading.EdgeLines
import Schematic.Proofs.Reading.ConnectorRuns
import Schematic.Proofs.Ranking.Crossings
import Schematic.Proofs.Ranking.Assignment
import Schematic.Proofs.Ranking.Transposition
import Schematic.Proofs.Ranking.ContentBox
import Schematic.Proofs.FirstOccurrences
import Schematic.Proofs.Outline.Declarations
import Schematic.Proofs.Outline.Shortenings
import Schematic.Proofs.Outline.Resolution
import Schematic.Proofs.Outline.Preorder
import Schematic.Proofs.Outline.Flattening
import Schematic.Proofs.Outline.Ancestry
import Schematic.Proofs.Layout.Loops
import Schematic.Proofs.Reading.FieldRows
import Schematic.Proofs.Ranking.LongestPath
import Schematic.Proofs.Reading.VisibilityMarks
import Schematic.Proofs.Reading.Fieldless
import Schematic.Proofs.Reading.Decorations
import Schematic.Proofs.Dialect.Detection
import Schematic.Proofs.Reading.Overruns
import Schematic.Proofs.Reading.Header
import Schematic.Proofs.Ranking.Division
import Schematic.Proofs.Ranking.Contraction
import Schematic.Proofs.Geometry.Segments
import Schematic.Proofs.Geometry.Simplification
import Schematic.Proofs.Geometry.Corners
import Schematic.Proofs.Layout.Messages
import Schematic.Proofs.Layout.Rows
import Schematic.Proofs.Layout.Stacking
import Schematic.Proofs.Classification.Signals
import Schematic.Proofs.Classification.Repetition
import Schematic.Proofs.Token.Lines
import Schematic.Proofs.Writing.Connectors
import Schematic.Proofs.Geometry.Rounding
import Schematic.Proofs.Geometry.Nearest
import Schematic.Proofs.Geometry.Decimal
import Schematic.Proofs.Geometry.PathText
import Schematic.Proofs.Geometry.Coding
import Schematic.Proofs.Layout.WrittenRoutes
