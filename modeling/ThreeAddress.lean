import ThreeAddress.Main
import ThreeAddress.Proofs.AllOrNothing
import ThreeAddress.Proofs.Concatenation
import ThreeAddress.Proofs.DeclarationOrder
import ThreeAddress.Proofs.DefiniteAssignment
import ThreeAddress.Proofs.DescentSteps
import ThreeAddress.Proofs.ForwardJumps
import ThreeAddress.Proofs.GeneratedNames
import ThreeAddress.Proofs.GeneratorReuse
import ThreeAddress.Proofs.Independence
import ThreeAddress.Proofs.Literals
import ThreeAddress.Proofs.MaximalMunch
import ThreeAddress.Proofs.NameWarnings
import ThreeAddress.Proofs.ProgramSpans
import ThreeAddress.Proofs.Recognizers
import ThreeAddress.Proofs.Respacing
import ThreeAddress.Proofs.StepBudget
import ThreeAddress.Proofs.StrayJumps
import ThreeAddress.Proofs.SyntaxErrors
import ThreeAddress.Proofs.Tuples
import ThreeAddress.Proofs.ZeroSteps
