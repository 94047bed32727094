import JavaFormat.Layout.Lookup
import JavaFormat.Main
import JavaFormat.Proofs.Doc.Machine
import JavaFormat.Proofs.Layout.Weaving
import JavaFormat.Proofs.Layout.Remarks
import JavaFormat.Proofs.Syntax.Shape
import JavaFormat.Proofs.Layout.Complete
import JavaFormat.Proofs.Layout.Spacing
import JavaFormat.Proofs.Layout.Members
import JavaFormat.Proofs.Layout.Delimited
import JavaFormat.Proofs.Layout.Modifiers
import JavaFormat.Proofs.Layout.Operators
import JavaFormat.Proofs.Layout.Calls
import JavaFormat.Proofs.Layout.ControlFlow
import JavaFormat.Proofs.Layout.TypeDeclaration
import JavaFormat.Proofs.Comments.Placement
import JavaFormat.Proofs.Comments.ByNode
import JavaFormat.Proofs.Layout.Rule
import JavaFormat.Proofs.Layout.Document
import JavaFormat.Proofs.Doc.Printing
import JavaFormat.Proofs.Doc.Deferral
import JavaFormat.Proofs.Doc.Width
import JavaFormat.Proofs.Doc.Renoted
import JavaFormat.Proofs.Doc.Notes
import JavaFormat.Proofs.Layout.Tokens
import JavaFormat.Proofs.Layout.LineComments
import JavaFormat.Proofs.Layout.Verbatim
import JavaFormat.Proofs.Syntax.Fragment
import JavaFormat.Proofs.Syntax.Conversion
import JavaFormat.Syntax.Flattening
import JavaFormat.Proofs.Syntax.Flattening
import JavaFormat.Proofs.Layout.Independence
import JavaFormat.Proofs.Formatter.Pipeline
import JavaFormat.Proofs.Comments.Nearest
import JavaFormat.Proofs.Files.Store
import JavaFormat.Proofs.Files.Discovery
import JavaFormat.Proofs.Files.Batch
import JavaFormat.Proofs.Doc.Pace
import JavaFormat.Proofs.Doc.Closing
import JavaFormat.Proofs.Layout.Firm
import JavaFormat.Proofs.Layout.FirmRules
import JavaFormat.Proofs.Layout.FirmTrees
import JavaFormat.Proofs.Layout.BlankLines
import JavaFormat.Proofs.Syntax.Spans
import JavaFormat.Proofs.Comments.Targets
import JavaFormat.Proofs.Layout.Separators
import JavaFormat.Proofs.Layout.Parts
import JavaFormat.Proofs.Layout.PartsRules
import JavaFormat.Proofs.Layout.PartsTrees
import JavaFormat.Proofs.Layout.Mingling
import JavaFormat.Proofs.Comments.Siblings
import JavaFormat.Proofs.Layout.Seams
import JavaFormat.Proofs.Layout.BetweenModifiers
import JavaFormat.Proofs.Doc.BreakWalk
import JavaFormat.Proofs.Doc.Filling
import JavaFormat.Proofs.Doc.Spelling
import JavaFormat.Proofs.Layout.Reindenting
import JavaFormat.Proofs.Doc.Shows
import JavaFormat.Proofs.Syntax.Words
import JavaFormat.Proofs.Layout.Laid
import JavaFormat.Proofs.Layout.LaidPieces
import JavaFormat.Proofs.Layout.LaidRules
import JavaFormat.Proofs.Layout.LaidExpressions
import JavaFormat.Proofs.Layout.LaidTrees
import JavaFormat.Proofs.Doc.Trimming
import JavaFormat.Doc.Lookahead
import JavaFormat.Proofs.Doc.Atoms
import JavaFormat.Proofs.Doc.Contexts
import JavaFormat.Proofs.Doc.Lookahead
import JavaFormat.Proofs.Doc.Tables
import JavaFormat.Proofs.Layout.Tables
import JavaFormat.Proofs.Files.Sources
import JavaFormat.Proofs.Text.Utf8
import JavaFormat.Syntax.FaultSearch
import JavaFormat.Proofs.Syntax.Faults
import JavaFormat.Proofs.Comments.Unattached
import JavaFormat.Proofs.Command.Agreement
import JavaFormat.Proofs.Doc.FirstLine
import JavaFormat.Proofs.Text.Quoted
import JavaFormat.Proofs.Doc.Dump
import JavaFormat.Proofs.Layout.Sites
import JavaFormat.Proofs.Text.LineAbove
import JavaFormat.Proofs.Layout.Spots
import JavaFormat.Proofs.Layout.SpotPieces
import JavaFormat.Proofs.Layout.SpotRules
import JavaFormat.Proofs.Layout.SpotExpressions
import JavaFormat.Proofs.Layout.SpotTrees
import JavaFormat.Proofs.Layout.Steady
import JavaFormat.Proofs.Layout.Standing
import JavaFormat.Proofs.Layout.Stability
