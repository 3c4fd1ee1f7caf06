import UnitMatrix.Demo.Kalman
import UnitMatrix.Demo.Motion
import UnitMatrix.Demo.Tour
import UnitMatrix.Grid.Cells
import UnitMatrix.Program.Arrays
import UnitMatrix.Proofs.Units.Elements
import UnitMatrix.Proofs.Units.Grading
import UnitMatrix.Proofs.Units.Quotient
import UnitMatrix.Proofs.Outcome
import UnitMatrix.Proofs.Units.ElementTypes
import UnitMatrix.Proofs.Division.Exact
import UnitMatrix.Proofs.Division.Reflection
import UnitMatrix.Proofs.Division.LeastSquares
import UnitMatrix.Proofs.Grid.Extent
import UnitMatrix.Proofs.Matrix.Construction
import UnitMatrix.Proofs.Matrix.Positions
import UnitMatrix.Proofs.Program.Shapes
import UnitMatrix.Proofs.Grid.Product
import UnitMatrix.Proofs.Units.Products
import UnitMatrix.Proofs.Matrix.Associativity
import UnitMatrix.Proofs.Number.Bits
import UnitMatrix.Proofs.Number.Digits
import UnitMatrix.Proofs.Number.Layout
import UnitMatrix.Proofs.Number.ReadBack
import UnitMatrix.Proofs.Json.RoundTrip
import UnitMatrix.Proofs.Program.Files
import UnitMatrix.Proofs.Matrix.Transposition
import UnitMatrix.Proofs.Program.Backends
import UnitMatrix.Proofs.Matrix.Singleton
import UnitMatrix.Proofs.Number.Nearest
import UnitMatrix.Proofs.Number.Roundoff
import UnitMatrix.Proofs.Division.ZeroDivisor
import UnitMatrix.Proofs.Division.Distance
import UnitMatrix.Proofs.Division.RankDecision
import UnitMatrix.Proofs.Division.Symmetry
import UnitMatrix.Proofs.Division.Rowwise
import UnitMatrix.Proofs.Division.Strict
import UnitMatrix.Proofs.Division.Total
import UnitMatrix.Proofs.Grid.Faults
import UnitMatrix.Proofs.Matrix.ColumnDivisor
import UnitMatrix.Proofs.Matrix.Loading
import UnitMatrix.Proofs.Grid.Views
import UnitMatrix.Proofs.Matrix.Scaling
import UnitMatrix.Proofs.Matrix.Conversion
import UnitMatrix.Proofs.Matrix.Addressing
import UnitMatrix.Proofs.Division.PivotReflection
import UnitMatrix.Proofs.Program.FailedWrites
import UnitMatrix.Proofs.Display.Faithful
import UnitMatrix.Proofs.Units.Arithmetic
