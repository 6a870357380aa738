import Variability.Cardinality.Span
import Variability.Number.Numeral
import Variability.Proofs.Attribute
import Variability.Proofs.Build.Attributes
import Variability.Proofs.Build.Failure
import Variability.Proofs.Build.Termination
import Variability.Proofs.Build.Values
import Variability.Proofs.Cnf.Lookup
import Variability.Proofs.Cnf.Normal
import Variability.Proofs.Constraint.Offence
import Variability.Proofs.Constraint.Printing
import Variability.Proofs.Constraint.Resolution
import Variability.Proofs.Conversion.Constraints
import Variability.Proofs.Conversion.Forced
import Variability.Proofs.Conversion.Reordering
import Variability.Proofs.Conversion.Satisfiable
import Variability.Proofs.Formula.Backtracking
import Variability.Proofs.Formula.Substitution
import Variability.Proofs.Formula.Support
import Variability.Proofs.Lowering.Configuration
import Variability.Proofs.Traversal.Calls
