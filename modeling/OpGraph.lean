import OpGraph.Types
import OpGraph.Text.Blank
import OpGraph.Decimal.Shortest
import OpGraph.Decimal.Layout
import OpGraph.Decimal.Reader
import OpGraph.Operator
import OpGraph.Value
import OpGraph.Graph.Error
import OpGraph.Scalar.Error
import OpGraph.Scalar.Convert
import OpGraph.Scalar.Word
import OpGraph.Scalar.Eval
import OpGraph.Graph.Node
import OpGraph.Graph.Basic
import OpGraph.Graph.Edit
import OpGraph.Graph.Postorder
import OpGraph.Graph.Check
import OpGraph.Graph.Listing
import OpGraph.Graph.Term
import OpGraph.Code.Instruction
import OpGraph.Code.Machine
import OpGraph.Code.Compile
import OpGraph.Code.Interpreter
import OpGraph.Pass.Tally
import OpGraph.Pass.Rule
import OpGraph.Pass.Visit
import OpGraph.Pass.Folding
import OpGraph.Program.Settings
import OpGraph.Program.Block
import OpGraph.Program.Optimizer
import OpGraph.Proofs.Edges
import OpGraph.Proofs.Reach
import OpGraph.Proofs.Expression
import OpGraph.Proofs.Execute
import OpGraph.Proofs.Substitution
import OpGraph.Proofs.Traversal
import OpGraph.Proofs.Candidates
import OpGraph.Proofs.BrokenEdges
import OpGraph.Proofs.Settling
import OpGraph.Proofs.Safety
import OpGraph.Proofs.Soundness
import OpGraph.Proofs.Predicates
import OpGraph.Proofs.Composition
import OpGraph.Proofs.Blocks
import OpGraph.Proofs.Requests
import OpGraph.Proofs.Denotation
import OpGraph.Proofs.Fixpoint
import OpGraph.Proofs.LiveVariables
import OpGraph.Proofs.Frame
import OpGraph.Proofs.AnyRule
import OpGraph.Proofs.Completeness
import OpGraph.Proofs.Stopping
import OpGraph.Proofs.Checked
import OpGraph.Proofs.ProgramFixpoint
import OpGraph.Proofs.RootOrder
import OpGraph.Proofs.Acceptance
import OpGraph.Proofs.Compilable
import OpGraph.Proofs.Interrupted
import OpGraph.Proofs.SingleAssignment
import OpGraph.Proofs.Leftovers
import OpGraph.Proofs.AllOrNothing
import OpGraph.Proofs.Accounting
import OpGraph.Proofs.ExactIntegers
import OpGraph.Proofs.Numerals
import OpGraph.Proofs.Unambiguous
