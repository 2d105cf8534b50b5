import SwitchingAlgebra.Report
import SwitchingAlgebra.Event
import SwitchingAlgebra.Dialect
import SwitchingAlgebra.Parsing
import SwitchingAlgebra.Formula.Read
import SwitchingAlgebra.Simplification
import SwitchingAlgebra.Proofs.Outputs
import SwitchingAlgebra.Proofs.RoundTrip
import SwitchingAlgebra.Proofs.Combining
import SwitchingAlgebra.Proofs.Repeating
import SwitchingAlgebra.Proofs.Failing
import SwitchingAlgebra.Proofs.Ending
import SwitchingAlgebra.Proofs.Tabulating
import SwitchingAlgebra.Proofs.Notated
import SwitchingAlgebra.Proofs.Printing
import SwitchingAlgebra.Proofs.Inheriting
import SwitchingAlgebra.Proofs.Resuming
import SwitchingAlgebra.Proofs.SelfBound
import SwitchingAlgebra.Proofs.Histories
import SwitchingAlgebra.Proofs.Labelling
import SwitchingAlgebra.Proofs.Resolving
import SwitchingAlgebra.Proofs.Columns
import SwitchingAlgebra.Proofs.Uniform
import SwitchingAlgebra.Proofs.Depths
import SwitchingAlgebra.Proofs.Inverting
import SwitchingAlgebra.Proofs.Learning
import SwitchingAlgebra.Proofs.Flipping
import SwitchingAlgebra.Proofs.Normal
import SwitchingAlgebra.Proofs.Dialects
import SwitchingAlgebra.Proofs.Referencing
import SwitchingAlgebra.Proofs.Headings
import SwitchingAlgebra.Proofs.Pruning
import SwitchingAlgebra.Proofs.Clear
import SwitchingAlgebra.Proofs.Hiding
import SwitchingAlgebra.Proofs.Pushing
import SwitchingAlgebra.Proofs.Reporting
import SwitchingAlgebra.Proofs.Shrinking
import SwitchingAlgebra.Proofs.Neighbours
import SwitchingAlgebra.Proofs.Placing
import SwitchingAlgebra.Proofs.Advancing
