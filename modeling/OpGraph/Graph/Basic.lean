import OpGraph.Graph.Node

/-!
# Graphs

A graph is the sequence of the nodes created so far; a node is never taken out
again. `Graph.node?` is the view through which everything else looks at a graph,
and each update is described by what it does to that view.

An edge is recorded at both of its ends. The updates here change the two records
of an edge together, but nothing in the type forces them to agree: a graph may
come with broken edges, and the requests on it have to notice.
-/

namespace OpGraph

/-- The nodes created so far, in the order of their creation. -/
structure Graph where
  nodes : Array Node
deriving DecidableEq, Repr

namespace Graph

def empty : Graph := ⟨#[]⟩

/-- How many nodes there are. The next node is going to have this number. -/
def size (g : Graph) : Nat := g.nodes.size

def node? (g : Graph) (id : NodeId) : Option Node := g.nodes[id]?

/-- The node with a number, or the error that there is none. -/
def node (g : Graph) (id : NodeId) : Except GraphError Node :=
  match g.node? id with
  | some n => .ok n
  | none => .error (.unknownNode id)

/-- The inputs of a node; none if there is no such node. -/
def inputsOf (g : Graph) (id : NodeId) : List NodeId :=
  match g.node? id with
  | some n => n.inputs
  | none => []

/-- The parents of a node; none if there is no such node. -/
def parentsOf (g : Graph) (id : NodeId) : List NodeId :=
  match g.node? id with
  | some n => n.parents
  | none => []

def isLiteral (g : Graph) (id : NodeId) : Bool :=
  match g.node? id with
  | some n => n.isLiteral
  | none => false

def literalValue (g : Graph) (id : NodeId) : Except GraphError Value :=
  match g.node id with
  | .error e => .error e
  | .ok n =>
      match n.literal? with
      | some v => .ok v
      | none => .error (.notLiteral id)

/-- The node in a slot of another one. -/
def inputAt (g : Graph) (id : NodeId) (slot : Nat) : Except GraphError NodeId :=
  match g.node id with
  | .error e => .error e
  | .ok n =>
      match n.inputs[slot]? with
      | some child => .ok child
      | none => .error (.slotOutOfRange id slot n.inputs.length)

def requireParent (g : Graph) (child parent : NodeId) : Except GraphError Unit :=
  match g.node child with
  | .error e => .error e
  | .ok n => if parent ∈ n.parents then .ok () else .error (.missingParent child parent)

/-! ## Updates -/

def update (g : Graph) (id : NodeId) (f : Node → Node) : Graph :=
  ⟨g.nodes.modify id f⟩

def push (g : Graph) (n : Node) : Graph := ⟨g.nodes.push n⟩

def mapInputs (g : Graph) (id : NodeId) (f : List NodeId → List NodeId) : Graph :=
  g.update id fun n => { n with inputs := f n.inputs }

def mapParents (g : Graph) (id : NodeId) (f : List NodeId → List NodeId) : Graph :=
  g.update id fun n => { n with parents := f n.parents }

/-- Notes at the end of `child`'s list that `parent` holds it once more. -/
def addParent (g : Graph) (child parent : NodeId) : Graph :=
  g.mapParents child fun ps => ps ++ [parent]

/-- Strikes the first mention of `parent` from `child`'s list. -/
def dropParent (g : Graph) (child parent : NodeId) : Graph :=
  g.mapParents child fun ps => ps.erase parent

def mark (g : Graph) (id : NodeId) (visited : Bool) : Graph :=
  g.update id fun n => { n with visited := visited }

/-! ## What the updates do to the view -/

@[simp] theorem size_empty : empty.size = 0 := rfl

@[simp] theorem node?_empty (id : NodeId) : empty.node? id = none := rfl

@[simp] theorem size_push (g : Graph) (n : Node) : (g.push n).size = g.size + 1 := by
  simp [size, push]

@[simp] theorem size_update (g : Graph) (id : NodeId) (f : Node → Node) :
    (g.update id f).size = g.size := by
  simp [size, update]

theorem node?_push (g : Graph) (n : Node) (id : NodeId) :
    (g.push n).node? id = if id = g.size then some n else g.node? id := by
  unfold node? push size
  rw [Array.getElem?_push]

theorem node?_update (g : Graph) (i j : NodeId) (f : Node → Node) :
    (g.update i f).node? j = if i = j then (g.node? j).map f else g.node? j := by
  simp [node?, update, Array.getElem?_modify]

theorem node?_isSome_iff (g : Graph) (id : NodeId) :
    (g.node? id).isSome ↔ id < g.size := by
  simp [node?, size]

theorem lt_size_of_node? {g : Graph} {id : NodeId} {n : Node} (h : g.node? id = some n) :
    id < g.size :=
  (g.node?_isSome_iff id).1 (by simp [h])

theorem node_eq_ok_iff {g : Graph} {id : NodeId} {n : Node} :
    g.node id = .ok n ↔ g.node? id = some n := by
  unfold node
  split <;> simp_all

theorem node_eq_error_iff {g : Graph} {id : NodeId} {e : GraphError} :
    g.node id = .error e ↔ g.node? id = none ∧ e = .unknownNode id := by
  unfold node
  split
  · simp_all
  · simp_all only [Except.error.injEq, true_and]
    exact eq_comm

end Graph

end OpGraph
