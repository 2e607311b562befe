/-!
# What can be wrong with a graph

Nodes refer to each other by number, so a number may name no node, and the two
lists that record an edge, one at each of its ends, may disagree.

The numbers have no upper limit. That a graph with numbers of 32 bits is full at some
point, and takes no further node then, is left out.
-/

namespace OpGraph

/-- A node is named by its position in the order in which nodes were created. -/
abbrev NodeId := Nat

/-- Why a request on a graph was refused. -/
inductive GraphError where
  /-- The number names no node. -/
  | unknownNode (id : NodeId)
  /-- The node has only `length` inputs. -/
  | slotOutOfRange (id : NodeId) (slot length : Nat)
  /-- The child is an input of the parent, which it does not list. -/
  | missingParent (child parent : NodeId)
  /-- The node lists a parent of which it is no input. -/
  | danglingParent (id parent : NodeId)
  /-- The node is in `slots` slots of the parent and lists it `listed` times. -/
  | unequalCounts (id parent : NodeId) (slots listed : Nat)
  /-- The node depends on itself. -/
  | cycle (id : NodeId)
  /-- The node is there, but is not a literal. -/
  | notLiteral (id : NodeId)
deriving DecidableEq, Repr

namespace GraphError

def message : GraphError → String
  | unknownNode id => s!"invalid hop handle {id}"
  | slotOutOfRange id slot length =>
      s!"slot {slot} out of range for hop {id} with {length} inputs"
  | missingParent child parent =>
      s!"hop {child} is an input of hop {parent} but does not list it as a parent"
  | danglingParent id parent =>
      s!"hop {id} lists parent {parent} which does not reference it"
  | unequalCounts id parent slots listed =>
      s!"hop {id} is referenced {slots} time(s) by parent {parent} but lists it {listed} time(s)"
  | cycle id => s!"cycle detected through hop {id}"
  | notLiteral id => s!"hop {id} is not a literal"

/-- Whether an error is about the structure of the graph, rather than about the
kind of one node. -/
def isStructural : GraphError → Bool
  | notLiteral _ => false
  | _ => true

end GraphError

end OpGraph
