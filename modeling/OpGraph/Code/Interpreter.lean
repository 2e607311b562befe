import OpGraph.Code.Compile
import OpGraph.Code.Machine

/-!
# Evaluating a node

An evaluator finds the value of the expression below a node. Constant folding
asks one and never computes anything itself, so a folded literal is what the
code of the expression computes.

The interpreter is the evaluator that compiles the expression and runs the code.
It keeps its variables and its code between two requests, and both are empty
again after each of them.
-/

namespace OpGraph

/-- Finds the value of a node, with a state of its own. -/
abbrev Evaluator (σ : Type) := Graph → NodeId → σ → Except EvalError Value × σ

/-- Variables, loaded code, and the number of requests so far. -/
structure Interpreter where
  env : Env
  code : List Instruction
  evaluations : Nat

namespace Interpreter

def new : Interpreter := ⟨.empty, [], 0⟩

/-- Whether nothing is left over from an earlier request. -/
def isClean (m : Interpreter) : Bool := m.env.isEmpty && m.code.isEmpty

/-- The variable that the loaded code leaves its value in. -/
def resultName : String := "__cf_tmp"

def load (m : Interpreter) (code : List Instruction) : Interpreter := { m with code }

def clear (m : Interpreter) : Interpreter := { m with env := .empty, code := [] }

/-- Runs the loaded code and takes its result out of the variables. -/
def execute (m : Interpreter) : Except EvalError Value × Interpreter :=
  match Instruction.runAll m.code m.env with
  | .error e env => (.error e, { m with env })
  | .ok _ env => (env.get resultName, { m with env := env.erase resultName })

/-- Compiles a node, runs the code, and clears up. A request that does not
compile counts as well. -/
def evaluate : Evaluator Interpreter := fun g id m =>
  let counted := { m with evaluations := m.evaluations + 1 }
  match g.compile id resultName with
  | .error e => (.error e, counted)
  | .ok code =>
      let (result, ran) := (counted.load code).execute
      (result, ran.clear)

end Interpreter

/-- The value of a node, computed by code that is run once. -/
def Graph.execute (g : Graph) (id : NodeId) : Except EvalError Value :=
  (Interpreter.evaluate g id .new).1

end OpGraph
