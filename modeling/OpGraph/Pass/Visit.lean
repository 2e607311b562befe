import OpGraph.Graph.Postorder
import OpGraph.Pass.Rule

/-!
# Handing every node to a rule

A pass walks the graph below some roots and hands each node to a rule, after all
of its inputs. When the rule answers with a substitute, every slot that held the
node holds the substitute from then on, the node loses its inputs, and a root
that names the node is replaced as well.

A node is handed over once in a pass, however many parents it has: the mark on
it says that it is done. The marks are taken off at the start. Slots are read
when the walk comes to them, since the node in them may have been replaced
meanwhile.

Substitutes are marked as done at once, so the walk never enters a node through
an edge that the pass has made. The nodes it can enter are those below the roots
at the start, and there were no cycles among them then. `Graph.weight` bounds
the number of its steps; a walk that takes more has run into a cycle.
-/

namespace OpGraph

/-- A pass in progress: what the rule works on, and the substitutes of the nodes
that were replaced, the last one first. -/
structure Pass (σ : Type) extends Session σ where
  substitutes : List (NodeId × NodeId)

/-- A part of a pass. Both outcomes carry the pass, since a pass that is refused
keeps the changes it has made. -/
abbrev PassM (σ α : Type) := EStateM GraphError (Pass σ) α

/-- The number of slots and nodes of a graph together. -/
def Graph.weight (g : Graph) : Nat :=
  g.nodes.toList.foldr (fun n total => n.inputs.length + 1 + total) 0

namespace Pass

variable {σ α : Type}

/-- The node that stands in the place of another one: its substitute, or the
node itself. -/
def standIn (p : Pass σ) (id : NodeId) : NodeId := (p.substitutes.lookup id).getD id

def edit (e : Edit α) : PassM σ α := fun p =>
  match e p.graph with
  | .ok a graph => .ok a { p with graph }
  | .error x graph => .error x { p with graph }

def consult (rule : NodeRule σ) (id : NodeId) : PassM σ Verdict := fun p =>
  match rule p.graph id p.tally p.memory with
  | (.ok v, tally, memory) => .ok v { p with tally, memory }
  | (.error x, tally, memory) => .error x { p with tally, memory }

/-- Puts a substitute in the place of a node and answers with it. A node is no
substitute for itself. -/
def settle (id new : NodeId) : PassM σ NodeId := do
  if new = id then
    edit (Graph.setVisited id true)
    return id
  else
    let _ ← edit (Graph.replaceUses id new)
    let _ ← edit (Graph.detachInputs id)
    -- The walk must not enter the substitute.
    edit (Graph.setVisited new true)
    modify fun p => { p with substitutes := (id, new) :: p.substitutes }
    edit (Graph.setVisited id true)
    return new

/-- Hands a node to the rule, does what the rule says, and answers with the node
that now stands in its place. -/
def finish (rule : NodeRule σ) (id : NodeId) : PassM σ NodeId := do
  modify fun p => { p with tally := p.tally.countVisit }
  match ← consult rule id with
  | .keep => settle id id
  | .use new => settle id new
  | .literal value => do
      let new ← edit (Graph.addLiteral value)
      settle id new

/-- Walks on until every node on the stack is done, and answers with what stands
in the place of the last one. A node is on the stack with the slot that is to be
looked at next. -/
def walk (rule : NodeRule σ) : Nat → List (NodeId × Nat) → NodeId → PassM σ NodeId
  | _, [], last => pure last
  | 0, (id, _) :: _, _ => throw (.cycle id)
  | limit + 1, (id, slot) :: rest, last => do
      -- The node is read anew: a slot may hold another node than before.
      let n ← edit (Edit.ask (·.node id))
      match n.inputs[slot]? with
      | some child =>
          let c ← edit (Edit.ask (·.node child))
          if c.visited then walk rule limit ((id, slot + 1) :: rest) last
          else walk rule limit ((child, 0) :: (id, slot + 1) :: rest) last
      | none =>
          let new ← finish rule id
          walk rule limit rest new

/-- Walks everything below a root and answers with what stands in its place. A
root may be done already, as a node below an earlier root. -/
def visit (rule : NodeRule σ) (limit : Nat) (root : NodeId) : PassM σ NodeId := do
  let n ← edit (Edit.ask (·.node root))
  if n.visited then return (← get).standIn root
  else walk rule limit [(root, 0)] root

def visitAll (rule : NodeRule σ) (limit : Nat) : List NodeId → PassM σ (List NodeId)
  | [] => pure []
  | root :: rest => do
      let new ← visit rule limit root
      let news ← visitAll rule limit rest
      return new :: news

def start (roots : List NodeId) : PassM σ Nat := do
  edit (Graph.resetVisited roots)
  return (← get).graph.weight

def overRoots (rule : NodeRule σ) (roots : List NodeId) : PassM σ (List NodeId) := do
  let limit ← start roots
  visitAll rule limit roots

def run (pass : PassM σ α) : EStateM GraphError (Session σ) α := fun s =>
  match pass ⟨s, []⟩ with
  | .ok a p => .ok a p.toSession
  | .error x p => .error x p.toSession

end Pass

namespace NodeRule

variable {σ : Type}

/-- Applies a rule to every node below one root, and answers with what stands in
its place. -/
def applyRoot (rule : NodeRule σ) (root : NodeId) : EStateM GraphError (Session σ) NodeId :=
  Pass.run do
    let limit ← Pass.start [root]
    Pass.visit rule limit root

/-- Applies a rule to every node below a root, if there is one. -/
def applyRoot? (rule : NodeRule σ) :
    Option NodeId → EStateM GraphError (Session σ) (Option NodeId)
  | none => pure none
  | some root => do
      let new ← rule.applyRoot root
      return some new

/-- Applies a rule to every node below some roots, and answers with what stands
in their places. -/
def applyRoots (rule : NodeRule σ) (roots : List NodeId) :
    EStateM GraphError (Session σ) (List NodeId) :=
  if roots.isEmpty then pure [] else Pass.run (Pass.overRoots rule roots)

/-- The rule for roots that applies a rule for nodes. -/
def toRule (rule : NodeRule σ) (name : String) : Rule σ := ⟨name, rule.applyRoots⟩

end NodeRule

end OpGraph
