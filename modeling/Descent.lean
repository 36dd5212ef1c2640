import Descent.Token
import Descent.Failure
import Descent.SyntaxError
import Descent.Prediction
import Descent.Text
import Descent.Buffer
import Descent.Calc.Lexer
import Descent.Tree
import Descent.Parser.Rule
import Descent.Calc.Rules
import Descent.Frontend
import Descent.Parser.Script
import Descent.Session
import Descent.Json.Value
import Descent.Json.Reader
import Descent.Tree.Json
import Descent.Settings
import Descent.Diagnostic
import Descent.Diff
import Descent.Command.Args
import Descent.Command.Files
import Descent.Command.Run
import Descent.Main
import Descent.Proofs.Buffer
import Descent.Proofs.Grammar
import Descent.Proofs.State
import Descent.Proofs.Run
import Descent.Proofs.Pieces
import Descent.Proofs.TokenSet
import Descent.Proofs.Bodies
import Descent.Proofs.Lexer
import Descent.Proofs.Tree
import Descent.Proofs.Calls
import Descent.Proofs.Leaves
import Descent.Proofs.Prediction
import Descent.Proofs.Sharing
import Descent.Proofs.Trust
import Descent.Proofs.Progress
import Descent.Proofs.Rounds
import Descent.Proofs.Termination
import Descent.Proofs.Sentences
import Descent.Proofs.Gluing
import Descent.Proofs.Names
import Descent.Proofs.Completeness
import Descent.Proofs.Positions
import Descent.Proofs.Reports
import Descent.Proofs.Tiling
import Descent.Proofs.Transparency
import Descent.Proofs.Shapes
import Descent.Proofs.Restoration
import Descent.Proofs.FirstError
import Descent.Proofs.Stream
import Descent.Proofs.Escape
import Descent.Proofs.Output
import Descent.Proofs.Seam
import Descent.Proofs.Mirror
import Descent.Proofs.Junction
import Descent.Proofs.Balance
import Descent.Proofs.Lockstep
import Descent.Proofs.Nesting
import Descent.Proofs.Stalls
import Descent.Proofs.Layout
import Descent.Proofs.Extent
import Descent.Proofs.Cursor
import Descent.Proofs.Footprint
import Descent.Proofs.Interference
import Descent.Proofs.Munch
import Descent.Proofs.Relexing
import Descent.Proofs.Materialization
import Descent.Proofs.Difference
import Descent.Proofs.Listing
import Descent.Proofs.PackedSet
import Descent.Proofs.Snippet
import Descent.Proofs.Pointing
import Descent.Proofs.JsonTrees
import Descent.Proofs.Interning
