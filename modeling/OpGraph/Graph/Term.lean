import OpGraph.Graph.Basic
import OpGraph.Scalar.Error

/-!
# Nodes as scalar expressions

Some nodes can be computed when the program is compiled: scalar literals, and
scalar operators with the right number of inputs. `Graph.term` reads such a node
as an expression over its inputs, and says of any other node why it is none.
-/

namespace OpGraph

/-- A scalar operator applied to nodes. -/
inductive Application where
  | unary (op : UnaryOp) (input : NodeId)
  | binary (op : BinaryOp) (left right : NodeId)
deriving DecidableEq, Repr

/-- A scalar expression over nodes. The result of an operator has a declared
type. -/
inductive Term where
  | constant (value : Value)
  | apply (call : Application) (type : ValueType)
deriving DecidableEq, Repr

def Application.inputs : Application → List NodeId
  | unary _ input => [input]
  | binary _ left right => [left, right]

theorem Application.length_inputs_le (call : Application) : call.inputs.length ≤ 2 := by
  cases call <;> simp [inputs]

/-- Reads an operator and its inputs. A structural operator is refused whatever
its inputs are. -/
def NodeKind.term (id : NodeId) (type : ValueType) (inputs : List NodeId) :
    NodeKind → Except EvalError Term
  | literal value => .ok (.constant value)
  | data _ name => .error (.compile id (.liveVariable name))
  | unary op =>
      match inputs with
      | [x] => .ok (.apply (.unary op x) type)
      | _ => .error (.compile id (.arity 1 inputs.length))
  | binary op =>
      if op.isStructural then .error (.unsupported (.structural op))
      else
        match inputs with
        | [l, r] => .ok (.apply (.binary op l r) type)
        | _ => .error (.compile id (.arity 2 inputs.length))

/-- Reads a node as a scalar expression. -/
def Graph.term (g : Graph) (id : NodeId) : Except EvalError Term :=
  match g.node id with
  | .error e => .error (.graph e)
  | .ok n =>
      if n.isScalar then n.kind.term id n.valueType n.inputs
      else .error (.compile id (.shape n.dataType))

theorem Graph.lt_size_of_term {g : Graph} {id : NodeId} {t : Term} (h : g.term id = .ok t) :
    id < g.size := by
  unfold term at h
  split at h
  · cases h
  · rename_i n hn
    exact lt_size_of_node? (node_eq_ok_iff.1 hn)

end OpGraph
