import PolyCheck.Arena
import PolyCheck.Diagnostic.Render
import PolyCheck.Interner
import PolyCheck.Proofs.Pat.Coverage
import PolyCheck.Proofs.Session.Rollback
import PolyCheck.Proofs.Subst.MostGeneral
import PolyCheck.Session.Toplevel
import PolyCheck.Proofs.Name
import PolyCheck.Proofs.Pat.Capture
import PolyCheck.Proofs.Registry
import PolyCheck.Proofs.Session.Expressions
import PolyCheck.Proofs.Term.Decision
import PolyCheck.Proofs.Term.Selection
import PolyCheck.Proofs.Session.Ascription
import PolyCheck.Proofs.Session.Declarations
import PolyCheck.Proofs.Session.Soundness
import PolyCheck.Proofs.Term.Lowering
import PolyCheck.Proofs.Term.Simulation
import PolyCheck.Proofs.Session.Lowering
import PolyCheck.Proofs.Term.Leaves
import PolyCheck.Proofs.Pat.Refinement
import PolyCheck.Proofs.Term.Agreement
import PolyCheck.Proofs.Surface.Typing
import PolyCheck.Proofs.Subst.Images
import PolyCheck.Proofs.Session.Success
import PolyCheck.Proofs.Session.Completeness
import PolyCheck.Proofs.Session.Principality
import PolyCheck.Proofs.Session.Committed
import PolyCheck.Proofs.Session.Constructors
import PolyCheck.Proofs.Session.Dangling
import PolyCheck.Proofs.Session.Followed
import PolyCheck.Proofs.Session.Omitted
import PolyCheck.Proofs.Term.Mentions
import PolyCheck.Proofs.Session.Annotated
import PolyCheck.Proofs.Session.Application
import PolyCheck.Proofs.Session.Reporting
import PolyCheck.Proofs.Subst.Hereditary
import PolyCheck.Proofs.Subst.Repeat
import PolyCheck.Proofs.Term.Alike
import PolyCheck.Proofs.Term.Building
import PolyCheck.Proofs.Term.Grounded
import PolyCheck.Proofs.Literal.Encoding
import PolyCheck.Proofs.Session.Grouping
import PolyCheck.Proofs.Session.Polymorphic
import PolyCheck.Proofs.Pat.Spanning
import PolyCheck.Proofs.Subst.Calls
import PolyCheck.Proofs.Subst.Reflexivity
import PolyCheck.Proofs.Subst.Equalizing
import PolyCheck.Proofs.Session.Kinded
import PolyCheck.Proofs.Nesting
import PolyCheck.Proofs.Session.Balanced
import PolyCheck.Proofs.Session.Sited
import PolyCheck.Proofs.Session.KindSound
import PolyCheck.Proofs.Kind.MostGeneral
import PolyCheck.Proofs.Ty.Printer
import PolyCheck.Proofs.Session.Shallow
import PolyCheck.Proofs.Interner
import PolyCheck.Proofs.Pat.Worklist
import PolyCheck.Proofs.Subst.Reduction
import PolyCheck.Proofs.Subst.Traversal
import PolyCheck.Proofs.Term.Free
import PolyCheck.Proofs.Term.Worklist
import PolyCheck.Proofs.Session.Transparent
import PolyCheck.Proofs.Literal.Integer
import PolyCheck.Proofs.Subst.Components
import PolyCheck.Proofs.Session.Arguments
