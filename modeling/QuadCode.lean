import QuadCode.Decimal.Binary64
import QuadCode.Decimal.Layout
import QuadCode.Decimal.Nearest
import QuadCode.Decimal.Numeral
import QuadCode.Decimal.Shortest
import QuadCode.Error
import QuadCode.Geometry.Cloud
import QuadCode.Geometry.Json
import QuadCode.Geometry.Point
import QuadCode.Geometry.Rect
import QuadCode.Json.Amount
import QuadCode.Json.Letter
import QuadCode.Json.Lexeme
import QuadCode.Json.Reader
import QuadCode.Json.Record
import QuadCode.Json.Value
import QuadCode.Key.Basic
import QuadCode.Key.Code
import QuadCode.Key.Json
import QuadCode.Notice
import QuadCode.Quadrant
import QuadCode.Settings.Basic
import QuadCode.Settings.Json
import QuadCode.Settings.Toml
import QuadCode.Text.Escape
import QuadCode.Text.Hidden
import QuadCode.Text.Quoted
import QuadCode.Token.Encoding
import QuadCode.Token.Json
import QuadCode.Token.Locations
import QuadCode.Token.OfTree
import QuadCode.Token.Shift
import QuadCode.Token.TimeScale
import QuadCode.Token.Windows
import QuadCode.Tree.Basic
import QuadCode.Tree.Descent
import QuadCode.Tree.History
import QuadCode.Tree.Json
import QuadCode.Tree.Lifecycle
import QuadCode.Tree.Node
import QuadCode.Tree.Query
import QuadCode.Tree.Recursion
import QuadCode.Tree.Stats
import QuadCode.Tree.Subdivision
import QuadCode.Proofs.Tree.Arena
import QuadCode.Proofs.Tree.Histories
import QuadCode.Proofs.Tree.Shape
import QuadCode.Proofs.Tree.Recursion
import QuadCode.Proofs.Double.Rounding
import QuadCode.Proofs.Double.Units
import QuadCode.Proofs.Double.Arithmetic
import QuadCode.Proofs.Geometry.Cells
import QuadCode.Proofs.Tree.Contents
import QuadCode.Proofs.Tree.Location
import QuadCode.Proofs.Token.Location
import QuadCode.Proofs.Key.Code
import QuadCode.Proofs.Tree.PrefixCode
import QuadCode.Proofs.Tree.Lifecycle
import QuadCode.Proofs.Token.Views
import QuadCode.Proofs.Token.Vocabulary
import QuadCode.Proofs.Double.Halving
import QuadCode.Proofs.Geometry.Sides
import QuadCode.Proofs.Tree.Width
import QuadCode.Proofs.Tree.Sharing
import QuadCode.Proofs.Tree.DepthLimit
import QuadCode.Proofs.Token.InsertionOrder
import QuadCode.Proofs.Tree.Pruning
import QuadCode.Proofs.Token.Pruning
import QuadCode.Proofs.Geometry.GridLines
import QuadCode.Proofs.Tree.Seams
import QuadCode.Proofs.Double.Infinite
import QuadCode.Proofs.Token.Filling
import QuadCode.Proofs.Token.Outcomes
import QuadCode.Proofs.Token.ObservedRange
import QuadCode.Proofs.Token.Coverage
import QuadCode.Proofs.Token.Renaming
import QuadCode.Proofs.Tree.StoppingRule
import QuadCode.Proofs.Runs
import QuadCode.Proofs.Tree.Traversal
import QuadCode.Proofs.Tree.Termination
import QuadCode.Proofs.Double.Values
import QuadCode.Proofs.Geometry.ExactCells
import QuadCode.Proofs.Tree.ExactCells
import QuadCode.Proofs.Tree.LeafIndex
import QuadCode.Proofs.Token.LastLeaf
import QuadCode.Proofs.Geometry.Spaces
import QuadCode.Proofs.Token.CoordinateOrder
import QuadCode.Proofs.Double.Edges
import QuadCode.Proofs.Double.Products
import QuadCode.Proofs.Token.Horizon
import QuadCode.Proofs.Token.FixedGrid
import QuadCode.Proofs.Key.Navigation
import QuadCode.Proofs.Tree.Preorder
import QuadCode.Proofs.Tree.Report
import QuadCode.Proofs.Key.Faults
import QuadCode.Proofs.Decimal.Digits
import QuadCode.Proofs.Json.Numeral
import QuadCode.Proofs.Json.Letter
import QuadCode.Proofs.Json.Lexeme
import QuadCode.Proofs.Json.Text
import QuadCode.Proofs.Json.Record
import QuadCode.Proofs.Token.Json
import QuadCode.Proofs.Double.Whole
import QuadCode.Proofs.Double.Bits
import QuadCode.Proofs.Decimal.Shortest
import QuadCode.Proofs.Decimal.Rounding
import QuadCode.Proofs.Decimal.Layout
import QuadCode.Proofs.Json.Amount
import QuadCode.Proofs.Settings.Text
