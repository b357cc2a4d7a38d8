import MapAlgebra.Session
import MapAlgebra.Proofs.Result
import MapAlgebra.Proofs.Value.Alike
import MapAlgebra.Proofs.Expr.Probe
import MapAlgebra.Proofs.Pass.Window
import MapAlgebra.Proofs.Catalog.Reachable
import MapAlgebra.Proofs.Expr.Locality
import MapAlgebra.Proofs.Pass.Slots
import MapAlgebra.Proofs.Pass.Buffer
import MapAlgebra.Proofs.Pass.Cellwise
import MapAlgebra.Proofs.Pass.Interpreter
import MapAlgebra.Proofs.Pass.Output
import MapAlgebra.Proofs.Region.Cover
import MapAlgebra.Proofs.Pass.Partition
import MapAlgebra.Proofs.Expr.Derivation
import MapAlgebra.Proofs.Expr.Soundness
import MapAlgebra.Proofs.Expr.Completeness
import MapAlgebra.Proofs.Expr.Nesting
import MapAlgebra.Proofs.Catalog.Name
import MapAlgebra.Proofs.Catalog.WellFormed
import MapAlgebra.Proofs.Catalog.Representation
import MapAlgebra.Proofs.Catalog.Settled
import MapAlgebra.Proofs.Session.Reachable
import MapAlgebra.Proofs.Session.Restriction
import MapAlgebra.Proofs.Pass.Declared
import MapAlgebra.Proofs.Session.Safety
import MapAlgebra.Proofs.Catalog.Asked
import MapAlgebra.Proofs.Catalog.Standing
import MapAlgebra.Proofs.Catalog.Positional
import MapAlgebra.Proofs.Catalog.Alias
import MapAlgebra.Proofs.Catalog.Interchange
import MapAlgebra.Proofs.Session.Recompilation
import MapAlgebra.Proofs.Session.Interference
import MapAlgebra.Proofs.Catalog.Generation
import MapAlgebra.Proofs.Catalog.InPlace
import MapAlgebra.Proofs.Catalog.Residue
import MapAlgebra.Proofs.Session.Refusal
import MapAlgebra.Proofs.Session.Admission
import MapAlgebra.Proofs.Session.Cancellation
import MapAlgebra.Proofs.Pass.Missing
import MapAlgebra.Proofs.Expr.Word
import MapAlgebra.Proofs.Catalog.Writable
import MapAlgebra.Proofs.Value.Fault
import MapAlgebra.Proofs.Expr.Bound
import MapAlgebra.Proofs.Catalog.Diagnosis
import MapAlgebra.Proofs.Expr.Call
import MapAlgebra.Proofs.Pass.Convolution
import MapAlgebra.Proofs.Session.Convolution
import MapAlgebra.Proofs.Region.Parts
import MapAlgebra.Proofs.Pass.Reads
import MapAlgebra.Proofs.Number.Rational
import MapAlgebra.Proofs.Session.Georeference
import MapAlgebra.Proofs.Expr.Offset
import MapAlgebra.Proofs.Expr.Blame
import MapAlgebra.Proofs.Decimal.Numeral
import MapAlgebra.Proofs.Expr.Lexeme
import MapAlgebra.Proofs.Expr.Relocation
import MapAlgebra.Proofs.Expr.Segmentation
import MapAlgebra.Proofs.Expr.Binding
import MapAlgebra.Proofs.Catalog.MatrixText
import MapAlgebra.Proofs.Expr.Literal
import MapAlgebra.Proofs.Number.Order
import MapAlgebra.Proofs.Function.OrderStatistic
import MapAlgebra.Proofs.Function.Majority
import MapAlgebra.Proofs.Raster.Statistics
import MapAlgebra.Proofs.Value.Product
import MapAlgebra.Proofs.Pass.Write
import MapAlgebra.Proofs.Raster.Missing
import MapAlgebra.Proofs.Number.Whole
import MapAlgebra.Proofs.Number.Value
import MapAlgebra.Proofs.Number.Round
import MapAlgebra.Proofs.Raster.Conversion
import MapAlgebra.Proofs.Function.Loose
import MapAlgebra.Proofs.Expr.Loose
import MapAlgebra.Proofs.Expr.Descent
import MapAlgebra.Proofs.Catalog.Occupied
