import OpGraph.Code.Instruction
import OpGraph.Graph.Term
import Std.Data.TreeMap

/-!
# From expressions to code

`compile` turns the expression below a node into code. Every operator becomes
one instruction, after the instructions of its inputs and however often it is
used, and puts its result into a variable of its own; literals are written into
the instructions that use them. At the end the result is assigned to the
requested variable and the variables of the operators are removed.

The work is kept on a stack of tasks. A node that is visited a second time while
it waits for its inputs depends on itself. The work ends on every graph, because
an operator is expanded once at most and adds three tasks at most.
-/

namespace OpGraph

/-- How far the code of a node has come. -/
inductive Stage where
  /-- The code of the inputs is being made. -/
  | begun
  /-- The value is there, in the given operand. -/
  | done (operand : Operand)
deriving DecidableEq, Repr

inductive Task where
  /-- Make sure that there is an operand for the node. -/
  | visit (id : NodeId)
  /-- Write the instruction of the node; its inputs have operands. -/
  | emit (id : NodeId) (call : Application) (type : ValueType)
deriving DecidableEq, Repr

/-- Code in the making: the stage of each node met so far, and the instructions
of the operators. -/
structure Assembly where
  stages : Std.TreeMap NodeId Stage
  code : Array Instruction

/-- The variable of the operator with the `n`-th instruction. -/
def tempName (n : Nat) : String := "_Var" ++ toString n

namespace Assembly

def empty : Assembly := ⟨∅, #[]⟩

/-- The operand that holds the value of a node, if there is one already. -/
def operand? (a : Assembly) (id : NodeId) : Option Operand :=
  match a.stages[id]? with
  | some (.done o) => some o
  | _ => none

def operand (a : Assembly) (id input : NodeId) : Except EvalError Operand :=
  match a.operand? input with
  | some o => .ok o
  | none => .error (.compile id (.unresolved input))

def start (a : Assembly) (id : NodeId) : Assembly :=
  { a with stages := a.stages.insert id .begun }

def define (a : Assembly) (id : NodeId) (o : Operand) : Assembly :=
  { a with stages := a.stages.insert id (.done o) }

/-- The instruction of an operator, from the operands of its inputs. -/
def instruction (a : Assembly) (id : NodeId) (call : Application) (type : ValueType)
    (out : String) : Except EvalError Instruction :=
  match call with
  | .unary op x => do
      let input ← a.operand id x
      return .unary op input out type
  | .binary op l r => do
      let left ← a.operand id l
      let right ← a.operand id r
      return .binary op left right out type

def emit (a : Assembly) (id : NodeId) (call : Application) (type : ValueType) :
    Except EvalError Assembly :=
  match a.instruction id call type (tempName a.code.size) with
  | .error e => .error e
  | .ok i =>
      .ok ⟨a.stages.insert id (.done (.var (tempName a.code.size))), a.code.push i⟩

/-- How many nodes of the graph have not been met. -/
def unmet (a : Assembly) (g : Graph) : Nat :=
  (List.range g.size).countP fun id => !a.stages.contains id

end Assembly

theorem countP_lt_of_imp {α : Type} {p q : α → Bool} {a : α} : ∀ {xs : List α},
    a ∈ xs → p a = true → q a = false → (∀ x, q x = true → p x = true) →
    xs.countP q < xs.countP p
  | x :: xs, hmem, hp, hq, h => by
      rcases List.mem_cons.1 hmem with rfl | hmem
      · rw [List.countP_cons_of_pos hp, List.countP_cons_of_neg (by simp [hq])]
        exact Nat.lt_succ_of_le (List.countP_mono_left fun x _ hx => h x hx)
      · have ih := countP_lt_of_imp hmem hp hq h
        by_cases hx : q x = true
        · rw [List.countP_cons_of_pos hx, List.countP_cons_of_pos (h x hx)]
          exact Nat.succ_lt_succ ih
        · rw [List.countP_cons_of_neg hx]
          exact Nat.lt_of_lt_of_le ih ((List.sublist_cons_self x xs).countP_le)

namespace Assembly

theorem unmet_insert_le (a : Assembly) (g : Graph) (id : NodeId) (stage : Stage)
    (code : Array Instruction) :
    (Assembly.mk (a.stages.insert id stage) code).unmet g ≤ a.unmet g := by
  refine List.countP_mono_left fun x _ hx => ?_
  simp only [Std.TreeMap.contains_insert, Bool.not_or, Bool.and_eq_true] at hx
  exact hx.2

theorem unmet_start_lt {a : Assembly} {g : Graph} {id : NodeId} (hid : id < g.size)
    (hnew : a.stages.contains id = false) : (a.start id).unmet g < a.unmet g := by
  refine countP_lt_of_imp (List.mem_range.2 hid) (by simp [hnew]) (by simp [start]) fun x hx => ?_
  simp only [start, Std.TreeMap.contains_insert, Bool.not_or, Bool.and_eq_true] at hx
  exact hx.2

theorem unmet_emit_le {a b : Assembly} {g : Graph} {id : NodeId} {call : Application}
    {type : ValueType} (h : a.emit id call type = .ok b) : b.unmet g ≤ a.unmet g := by
  unfold emit at h
  split at h
  · cases h
  · cases h
    exact a.unmet_insert_le g id _ _

end Assembly

namespace Graph

/-- The tasks that an operator is split into: its inputs that have no operand
yet, from left to right, and then the operator itself. -/
def expansion (a : Assembly) (id : NodeId) (call : Application) (type : ValueType) : List Task :=
  (call.inputs.filter fun x => (a.operand? x).isNone).map .visit ++ [.emit id call type]

theorem length_expansion_le (a : Assembly) (id : NodeId) (call : Application) (type : ValueType) :
    (expansion a id call type).length ≤ 3 := by
  have h := call.length_inputs_le
  have hf := List.length_filter_le (fun x => (a.operand? x).isNone) call.inputs
  simp only [expansion, List.length_append, List.length_map, List.length_cons, List.length_nil]
  omega

def assemble (g : Graph) (tasks : List Task) (a : Assembly) : Except EvalError Assembly :=
  match tasks with
  | [] => .ok a
  | .visit id :: rest =>
      if (a.operand? id).isSome then g.assemble rest a
      else
        match _hterm : g.term id with
        | .error e => .error e
        | .ok (.constant v) => g.assemble rest (a.define id (.literal v))
        | .ok (.apply call type) =>
            -- The node has no operand, so it is waiting for its own inputs.
            if _hmet : a.stages.contains id then .error (.graph (.cycle id))
            else g.assemble (expansion a id call type ++ rest) (a.start id)
  | .emit id call type :: rest =>
      match _hemit : a.emit id call type with
      | .error e => .error e
      | .ok b => g.assemble rest b
termination_by 3 * a.unmet g + tasks.length
decreasing_by
  -- Only an operator adds tasks, at most three, and it is met once.
  · simp only [List.length_cons]
    omega
  · have hle := a.unmet_insert_le g id (.done (.literal v)) a.code
    simp only [Assembly.define, List.length_cons]
    omega
  · have hlt := Assembly.unmet_start_lt (lt_size_of_term _hterm) (eq_false_of_ne_true _hmet)
    have hlen := length_expansion_le a id call type
    simp only [List.length_append, List.length_cons]
    omega
  · have hle := Assembly.unmet_emit_le (g := g) _hemit
    simp only [List.length_cons]
    omega

/-- Code that leaves the value of a node in the variable `out`. -/
def compile (g : Graph) (root : NodeId) (out : String) : Except EvalError (List Instruction) := do
  let a ← g.assemble [.visit root] .empty
  let result ← a.operand root root
  let temps := (List.range a.code.size).map tempName
  return a.code.toList ++ .assign result out :: temps.map .remove

end Graph

end OpGraph
