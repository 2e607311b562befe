import OpGraph.Graph.Postorder

/-!
# The listing of a graph

One line for every node below some roots, children first: its number, its name,
the numbers of its inputs, and its types.
-/

namespace OpGraph

namespace Node

/-- The line of a node, without the end of the line. -/
def line (id : NodeId) (n : Node) : String :=
  "(" ++ toString id ++ ") " ++ n.kind.name ++
    " [" ++ ",".intercalate (n.inputs.map toString) ++ "] " ++
    n.dataType.text ++ " " ++ n.valueType.text

end Node

namespace Graph

/-- The line of a node with a given number; empty if there is none. -/
def lineOf (g : Graph) (id : NodeId) : String :=
  match g.node? id with
  | some n => n.line id ++ "\n"
  | none => ""

def listing (g : Graph) (roots : List NodeId) : Except GraphError String :=
  (g.postorder roots).map fun order => String.join (order.map g.lineOf)

end Graph

end OpGraph
