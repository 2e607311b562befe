import OpGraph.Graph.Error
import OpGraph.Operator
import OpGraph.Value

/-!
# Nodes

A node is a literal, an operator applied to its inputs, or an access to a
variable of the running program. It lists its inputs in order, slot by slot, and
it lists its parents, once for every slot in which a parent holds it. Messages
call a node a hop, which is short for a high-level operator.
-/

namespace OpGraph

/-- The two ways in which a program accesses a live variable. -/
inductive Access where
  | read
  | write
deriving DecidableEq, Repr

def Access.text : Access → String
  | read => "TRead"
  | write => "TWrite"

/-- What a node stands for. -/
inductive NodeKind where
  | literal (value : Value)
  | unary (op : UnaryOp)
  | binary (op : BinaryOp)
  | data (access : Access) (var : String)
deriving DecidableEq, Repr

/-- The name under which a node is listed. A string literal is quoted, so that
it is not taken for an access to a variable. -/
def NodeKind.name : NodeKind → String
  | literal value => value.quoted
  | unary op => "u(" ++ op.symbol ++ ")"
  | binary op => "b(" ++ op.symbol ++ ")"
  | data access var => access.text ++ " " ++ var

/-- A node of a graph. `visited` is the mark that a pass over the graph leaves
on the nodes it is done with. -/
structure Node where
  kind : NodeKind
  valueType : ValueType
  dataType : DataType
  inputs : List NodeId
  parents : List NodeId
  visited : Bool
deriving DecidableEq, Repr

namespace Node

def isScalar (n : Node) : Bool := n.dataType == .scalar

def literal? (n : Node) : Option Value :=
  match n.kind with
  | .literal v => some v
  | _ => none

def isLiteral (n : Node) : Bool := n.literal?.isSome

/-- The slots in which a node holds `child`, in order. -/
def slotsOf (n : Node) (child : NodeId) : List Nat :=
  (n.inputs.zipIdx.filter fun p => p.1 == child).map Prod.snd

end Node

end OpGraph
