import OpGraph.Graph.Edit
import OpGraph.Pass.Tally

/-!
# Rules

A rule for nodes decides about one node at a time: to keep it, to use another
node in its place, or to put a literal there. It decides and does not act; the
pass that asks it makes the change. A rule may keep a memory between two
decisions, of a type of its own.

A rule for roots works on everything below the roots of a block, and answers
which nodes the roots have become.
-/

namespace OpGraph

/-- What is to become of a node. -/
inductive Verdict where
  | keep
  | use (id : NodeId)
  | literal (value : Value)
deriving DecidableEq, Repr

/-- A rule for nodes. It may count what it does, and it may find the graph
broken. -/
abbrev NodeRule (σ : Type) :=
  Graph → NodeId → Tally → σ → Except GraphError Verdict × Tally × σ

/-- What a rule works on: the graph, the counts, and its memory. -/
structure Session (σ : Type) where
  graph : Graph
  tally : Tally
  memory : σ

structure Rule (σ : Type) where
  name : String
  apply : List NodeId → EStateM GraphError (Session σ) (List NodeId)

end OpGraph
