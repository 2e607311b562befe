import OpGraph.Graph.Edit

/-!
# Children before parents

`Graph.postorder` lists the nodes below some roots, each of them once and after
all of its inputs. It walks the graph depth first with a stack of its own, so
that the depth of a graph is no limit, and it marks the nodes it has entered.
Meeting a node that was entered and not yet left means that the node depends on
itself.

The walk ends on every graph, broken or cyclic: it either uses up an input of a
node on the stack, or enters a node that it has not seen, and `Sweep.work`
weighs what is left of both.
-/

namespace OpGraph

/-- What the walk knows about a node. -/
inductive Mark where
  /-- Not met so far. -/
  | unseen
  /-- Entered; some of its inputs are still to be looked at. -/
  | active
  /-- Left, with everything below it. -/
  | finished
deriving DecidableEq, Repr

/-- A walk in progress: a mark for every node of the graph, and the nodes that
were left, the last one first. -/
structure Sweep where
  marks : Array Mark
  order : List NodeId
deriving DecidableEq, Repr

/-- A node that was entered, with the inputs that are still to be looked at. -/
abbrev Frame := NodeId × List NodeId

namespace Sweep

def start (size : Nat) : Sweep := ⟨Array.replicate size .unseen, []⟩

def enter (s : Sweep) (id : NodeId) : Sweep :=
  { s with marks := s.marks.setIfInBounds id .active }

def leave (s : Sweep) (id : NodeId) : Sweep :=
  ⟨s.marks.setIfInBounds id .finished, id :: s.order⟩

def unseen (s : Sweep) : Nat := s.marks.countP (· == .unseen)

/-- What is left to do on the stack: every node has to be left, after its
remaining inputs. -/
def pending : List Frame → Nat
  | [] => 0
  | f :: rest => f.2.length + 1 + pending rest

/-- What is left to do altogether: every unseen node may bring up to `breadth`
inputs. -/
def work (s : Sweep) (breadth : Nat) (stack : List Frame) : Nat :=
  s.unseen * (breadth + 1) + pending stack

theorem unseen_leave_le (s : Sweep) (id : NodeId) : (s.leave id).unseen ≤ s.unseen := by
  unfold unseen leave
  by_cases h : id < s.marks.size
  · simp only [Array.setIfInBounds, h, dite_true]
    rw [Array.countP_set]
    simp
  · simp [Array.setIfInBounds, h]

theorem unseen_enter {s : Sweep} {id : NodeId} (h : s.marks[id]? = some .unseen) :
    (s.enter id).unseen + 1 = s.unseen := by
  obtain ⟨hlt, hget⟩ := Array.getElem?_eq_some_iff.1 h
  unfold unseen enter
  simp only [Array.setIfInBounds, hlt, dite_true]
  rw [Array.countP_set]
  have hpos : 0 < Array.countP (· == .unseen) s.marks :=
    Array.countP_pos_iff.2 ⟨s.marks[id], Array.getElem_mem hlt, by simp [hget]⟩
  simp [hget]
  omega

end Sweep

namespace Graph

/-- The greatest number of inputs that a node has. -/
def breadth (g : Graph) : Nat := (g.nodes.toList.map fun n => n.inputs.length).max?.getD 0

theorem length_inputsOf_le (g : Graph) (id : NodeId) : (g.inputsOf id).length ≤ g.breadth := by
  unfold inputsOf node?
  split
  · rename_i n hn
    have hmem : n.inputs.length ∈ g.nodes.toList.map fun n => n.inputs.length :=
      List.mem_map.2 ⟨n, by simpa using Array.mem_of_getElem? hn, rfl⟩
    unfold breadth
    cases hmax : (g.nodes.toList.map fun n => n.inputs.length).max? with
    | none => simp_all
    | some b => exact (List.max?_eq_some_iff.1 hmax).2 _ hmem
  · simp

/-- Walks on until every node on the stack has been left. -/
def walk (g : Graph) (stack : List Frame) (s : Sweep) : Except GraphError Sweep :=
  match stack with
  | [] => .ok s
  | (id, []) :: rest => g.walk rest (s.leave id)
  | (id, child :: more) :: rest =>
      match _hmark : s.marks[child]? with
      | none => .error (.unknownNode child)
      | some .active => .error (.cycle child)
      | some .finished => g.walk ((id, more) :: rest) s
      | some .unseen =>
          g.walk ((child, g.inputsOf child) :: (id, more) :: rest) (s.enter child)
termination_by s.work g.breadth stack
decreasing_by
  -- A frame is gone, an input is gone, or an unseen node pays for its own frame.
  · have hle := Nat.mul_le_mul_right (g.breadth + 1) (s.unseen_leave_le id)
    simp only [Sweep.work, Sweep.pending, List.length_nil]
    omega
  · simp only [Sweep.work, Sweep.pending, List.length_cons]
    omega
  · have hlen := g.length_inputsOf_le child
    have hstep := Sweep.unseen_enter _hmark
    simp only [Sweep.work, Sweep.pending, List.length_cons]
    rw [← hstep, Nat.succ_mul]
    omega

/-- Walks the part below a root that has not been walked yet. -/
def sweepFrom (g : Graph) (s : Sweep) (root : NodeId) : Except GraphError Sweep :=
  match s.marks[root]? with
  | none => .error (.unknownNode root)
  | some .unseen => g.walk [(root, g.inputsOf root)] (s.enter root)
  -- Between two roots the stack is empty, so the node is finished.
  | some _ => .ok s

/-- The nodes below some roots, every node after its inputs. It is refused when
a root or an input does not exist, and when a node depends on itself. -/
def postorder (g : Graph) (roots : List NodeId) : Except GraphError (List NodeId) :=
  (roots.foldlM g.sweepFrom (Sweep.start g.size)).map fun s => s.order.reverse

/-- Takes the marks of earlier passes off everything below the roots. -/
def resetVisited (roots : List NodeId) : Edit Unit := do
  let order ← Edit.ask (·.postorder roots)
  modify fun g => order.foldl (fun h id => h.mark id false) g

end Graph

end OpGraph
