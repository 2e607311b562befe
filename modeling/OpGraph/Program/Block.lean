import OpGraph.Graph.Listing

/-!
# Programs

A program is one graph and a sequence of blocks. A block is a straight line of
the program and names the nodes that hold its results. Blocks may share nodes.
-/

namespace OpGraph

/-- The results of a part of a program. -/
structure Block where
  name : String
  roots : List NodeId
deriving DecidableEq, Repr

structure Program where
  graph : Graph
  blocks : List Block
deriving DecidableEq, Repr

namespace Program

def empty : Program := ⟨.empty, []⟩

def addBlock (p : Program) (name : String) (roots : List NodeId) : Program :=
  { p with blocks := p.blocks ++ [⟨name, roots⟩] }

/-- The listings of some blocks, each under its name. -/
def listingOf (g : Graph) : List Block → Except GraphError String
  | [] => .ok ""
  | b :: rest => do
      let here ← g.listing b.roots
      let there ← listingOf g rest
      return "--- " ++ b.name ++ " ---\n" ++ here ++ there

def listing (p : Program) : Except GraphError String := listingOf p.graph p.blocks

end Program

end OpGraph
