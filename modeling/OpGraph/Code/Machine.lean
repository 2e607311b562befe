import OpGraph.Code.Instruction
import OpGraph.Scalar.Eval
import Std.Data.ExtTreeMap

/-!
# Running code

A machine that runs code has nothing but its variables. Each instruction either
has its whole effect or fails and has none, and code stops at the first
instruction that fails, with the effects of the ones before it.
-/

namespace OpGraph

/-- The variables of running code, by name. -/
structure Env where
  vars : Std.ExtTreeMap String Value

namespace Env

def empty : Env := ⟨∅⟩

def get? (env : Env) (name : String) : Option Value := env.vars[name]?

def get (env : Env) (name : String) : Except EvalError Value :=
  match env.get? name with
  | some v => .ok v
  | none => .error (.undefined name)

def set (env : Env) (name : String) (v : Value) : Env := ⟨env.vars.insert name v⟩

def erase (env : Env) (name : String) : Env := ⟨env.vars.erase name⟩

def size (env : Env) : Nat := env.vars.size

def isEmpty (env : Env) : Bool := env.vars.isEmpty

/-- Two environments that give every variable the same value are the same. -/
theorem ext_get? {env env' : Env} (h : ∀ name, env.get? name = env'.get? name) : env = env' := by
  cases env
  cases env'
  congr
  exact Std.ExtTreeMap.ext_getElem? h

@[simp] theorem get?_empty (name : String) : empty.get? name = none := by
  simp [get?, empty]

theorem get?_set (env : Env) (x y : String) (v : Value) :
    (env.set x v).get? y = if x = y then some v else env.get? y := by
  simp [get?, set, Std.ExtTreeMap.getElem?_insert]

theorem get?_erase (env : Env) (x y : String) :
    (env.erase x).get? y = if x = y then none else env.get? y := by
  simp [get?, erase, Std.ExtTreeMap.getElem?_erase]

end Env

/-- A run of code, which may fail. Both outcomes carry the variables. -/
abbrev Exec (α : Type) := EStateM EvalError Env α

def Operand.value (env : Env) : Operand → Except EvalError Value
  | literal v => .ok v
  | var name => env.get name

namespace Instruction

/-- The variables after one instruction. The left operand is looked up first.
Removing a variable that is not defined has no effect. -/
def effect (env : Env) : Instruction → Except EvalError Env
  | unary op input out type => do
      let x ← input.value env
      let y ← applyUnary op x
      let z ← y.coerce type
      return env.set out z
  | binary op left right out type => do
      let l ← left.value env
      let r ← right.value env
      let y ← applyBinary op l r
      let z ← y.coerce type
      return env.set out z
  | assign input out => do
      let x ← input.value env
      return env.set out x
  | remove name => .ok (env.erase name)

def run (i : Instruction) : Exec Unit := fun env =>
  match i.effect env with
  | .ok env' => .ok () env'
  | .error e => .error e env

/-- Runs code up to its end or to the first failure. -/
def runAll : List Instruction → Exec Unit
  | [] => pure ()
  | i :: rest => do
      i.run
      runAll rest

end Instruction

end OpGraph
