import OpGraph.Code.Interpreter
import OpGraph.Pass.Visit

/-!
# Constant folding

A scalar operator on literals is replaced by the literal that it computes, if it
computes one; an operator without a value stays, and fails when the program
runs. Besides that, a conjunction with the literal `FALSE` and a disjunction
with the literal `TRUE` can be decided without the other operand, provided that
the other operand is a truth value.

Whether a node is a candidate is a matter of the graph alone. What a candidate
computes is left to an evaluator.
-/

namespace OpGraph

/-- What can be folded about a node. -/
inductive Candidate where
  /-- Nothing. -/
  | leave
  /-- It may be replaced by its value, of the given type. -/
  | evaluate (binary : Bool) (type : ValueType)
  /-- One operand decides what it is. -/
  | absorb (value : Bool)
deriving DecidableEq, Repr

/-- The truth value that decides an operator, whatever the other operand is. -/
def BinaryOp.absorbing? : BinaryOp → Option Bool
  | and => some false
  | or => some true
  | _ => none

namespace Node

def isBoolean (n : Node) (b : Bool) : Bool := n.literal?.bind Value.boolean? == some b

/-- Whether a node is declared to be a truth value. -/
def isPredicate (n : Node) : Bool := n.isScalar && n.valueType == .boolean

end Node

namespace Graph

/-- Whether two nodes are literals. The second one is looked up only if the
first one is. -/
def bothLiteral (g : Graph) (l r : NodeId) : Except GraphError Bool := do
  let a ← g.node l
  if a.isLiteral then
    let b ← g.node r
    return b.isLiteral
  else return false

/-- Whether one operand decides an operator: one is the deciding literal, and
the other is declared to be a truth value. -/
def absorbed (g : Graph) (op : BinaryOp) (l r : NodeId) : Except GraphError Candidate :=
  match op.absorbing? with
  | none => return .leave
  | some b => do
      let x ← g.node l
      let y ← g.node r
      if (x.isBoolean b && y.isPredicate) || (y.isBoolean b && x.isPredicate) then
        return .absorb b
      else return .leave

def binaryCandidate (g : Graph) (predicates : Bool) (op : BinaryOp) (type : ValueType)
    (l r : NodeId) : Except GraphError Candidate :=
  if op.isStructural then return .leave
  else do
    if ← g.bothLiteral l r then return .evaluate true type
    else if predicates then g.absorbed op l r
    else return .leave

/-- What can be folded about a unary operator. Only casts are. -/
def unaryCandidate (g : Graph) (op : UnaryOp) (type : ValueType) (x : NodeId) :
    Except GraphError Candidate :=
  if op.isValueCast then do
    let a ← g.node x
    if a.isLiteral then return .evaluate false type else return .leave
  else return .leave

/-- What can be folded about a node. -/
def candidate (g : Graph) (predicates : Bool) (id : NodeId) : Except GraphError Candidate := do
  let n ← g.node id
  if n.isScalar then
    match n.kind, n.inputs with
    | .binary op, [l, r] => g.binaryCandidate predicates op n.valueType l r
    | .unary op, [x] => g.unaryCandidate op n.valueType x
    | _, _ => return .leave
  else return .leave

end Graph

namespace Folding

variable {σ : Type}

/-- The literal that a candidate becomes. -/
def literal (evaluate : Evaluator σ) (g : Graph) (id : NodeId) (type : ValueType) (memory : σ) :
    Except EvalError Value × σ :=
  match evaluate g id memory with
  | (.ok v, memory') => (v.toLiteral type, memory')
  | (.error e, memory') => (.error e, memory')

/-- Folds one node. A candidate without a value is counted and kept. -/
def node (evaluate : Evaluator σ) (predicates : Bool) : NodeRule σ := fun g id tally memory =>
  match g.candidate predicates id with
  | .error e => (.error e, tally, memory)
  | .ok .leave => (.ok .keep, tally, memory)
  -- The evaluator is not asked, and the declared type is not looked at.
  | .ok (.absorb b) => (.ok (.literal (.boolean b)), tally.countPredicate, memory)
  | .ok (.evaluate binary type) =>
      match literal evaluate g id type memory with
      | (.ok v, memory') => (.ok (.literal v), tally.countFold binary, memory')
      | (.error _, memory') => (.ok .keep, tally.countFailure, memory')

def rule (evaluate : Evaluator σ) (predicates : Bool) : Rule σ :=
  (node evaluate predicates).toRule "constant_folding"

end Folding

/-- Folds everything below some roots, predicates included, and answers with the
new roots and the counts. -/
def Graph.foldConstants (roots : List NodeId) : Edit (List NodeId × Tally) := fun g =>
  match (Folding.rule Interpreter.evaluate true).apply roots ⟨g, .zero, .new⟩ with
  | .ok news s => .ok (news, s.tally) s.graph
  | .error e s => .error e s.graph

end OpGraph
