import OpGraph.Graph.Postorder

/-!
# Do the two ends of every edge agree?

An edge is recorded in the inputs of its upper node and in the parents of its
lower node. `Graph.check` looks at everything below some roots and names the
first place where the two records differ.
-/

namespace OpGraph.Graph

/-- Checks the edges from `parent` to one of its inputs: the input must list
`parent` once for every slot that holds it. -/
def checkInput (g : Graph) (parent : NodeId) (inputs : List NodeId) (child : NodeId) :
    Except GraphError Unit :=
  let slots := inputs.count child
  let listed := (g.parentsOf child).count parent
  if listed = 0 then .error (.missingParent child parent)
  else if slots ≠ listed then .error (.unequalCounts child parent slots listed)
  else .ok ()

/-- Checks that a listed parent exists and holds the node. -/
def checkParent (g : Graph) (id parent : NodeId) : Except GraphError Unit :=
  if id ∈ g.inputsOf parent then .ok () else .error (.danglingParent id parent)

/-- Checks all edges of a node, downwards first. -/
def checkNode (g : Graph) (id : NodeId) : Except GraphError Unit := do
  let inputs := g.inputsOf id
  inputs.forM (g.checkInput id inputs)
  (g.parentsOf id).forM (g.checkParent id)

/-- Checks everything below the roots, in the order of `postorder`. -/
def check (g : Graph) (roots : List NodeId) : Except GraphError Unit := do
  let order ← g.postorder roots
  order.forM g.checkNode

end OpGraph.Graph
