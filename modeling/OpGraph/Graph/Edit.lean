import OpGraph.Graph.Basic

/-!
# Changing a graph

A change may be refused. It then still says which graph it leaves behind,
because a change that consists of several steps keeps the steps it has made. A
single step makes all its checks first, and so leaves the graph alone when it is
refused.
-/

namespace OpGraph

section Steps

variable {ε σ α β : Type} {x : EStateM ε σ α} {f : α → EStateM ε σ β} {s s' : σ}

theorem bind_ok {a : α} (h : x s = .ok a s') : (x >>= f) s = f a s' := by
  change EStateM.bind _ _ _ = _
  rw [EStateM.bind, h]

theorem bind_error {e : ε} (h : x s = .error e s') : (x >>= f) s = .error e s' := by
  change EStateM.bind _ _ _ = _
  rw [EStateM.bind, h]

/-- Two steps go through only if each of them does. -/
theorem bind_eq_ok {b : β} (h : (x >>= f) s = .ok b s') :
    ∃ a t, x s = .ok a t ∧ f a t = .ok b s' := by
  cases hx : x s with
  | ok a t => exact ⟨a, t, rfl, (bind_ok hx).symm.trans h⟩
  | error e t =>
      rw [bind_error hx] at h
      cases h

end Steps

/-- A change of a graph that may be refused. Both outcomes carry a graph. -/
abbrev Edit (α : Type) := EStateM GraphError Graph α

namespace Edit

/-- Asks a question that may have no answer. The graph stays as it is. -/
def ask {α : Type} (question : Graph → Except GraphError α) : Edit α := fun g =>
  match question g with
  | .ok a => .ok a g
  | .error e => .error e g

theorem ask_bind {α β : Type} (question : Graph → Except GraphError α) (next : α → Edit β)
    (g : Graph) :
    (ask question >>= next) g = match question g with
      | .ok a => next a g
      | .error e => .error e g := by
  change EStateM.bind _ _ _ = _
  unfold EStateM.bind ask
  cases question g <;> rfl

end Edit

namespace Graph

open Edit (ask)

/-! ## Building -/

/-- The graph with one more node, which is noted as a parent of each of its
inputs, once for every slot. -/
def insert (g : Graph) (kind : NodeKind) (valueType : ValueType) (dataType : DataType)
    (inputs : List NodeId) : Graph :=
  let id := g.size
  (inputs.foldl (fun h child => h.addParent child id) g).push
    { kind, valueType, dataType, inputs, parents := [], visited := false }

def requireAll (g : Graph) (ids : List NodeId) : Except GraphError Unit :=
  ids.forM fun id => discard (g.node id)

/-- Adds a node and answers with its number. It is refused when an input does
not exist. -/
def addNode (kind : NodeKind) (valueType : ValueType) (dataType : DataType)
    (inputs : List NodeId) : Edit NodeId := do
  ask (·.requireAll inputs)
  modifyGet fun g => (g.size, g.insert kind valueType dataType inputs)

/-- Adds a literal, which has the type of its value. -/
def addLiteral (value : Value) : Edit NodeId :=
  addNode (.literal value) value.type .scalar []

def addUnary (op : UnaryOp) (valueType : ValueType) (dataType : DataType) (input : NodeId) :
    Edit NodeId :=
  addNode (.unary op) valueType dataType [input]

def addBinary (op : BinaryOp) (valueType : ValueType) (dataType : DataType)
    (left right : NodeId) : Edit NodeId :=
  addNode (.binary op) valueType dataType [left, right]

def addRead (var : String) (valueType : ValueType) (dataType : DataType) : Edit NodeId :=
  addNode (.data .read var) valueType dataType []

/-- Adds a write of a node to a live variable. The types are those of the node. -/
def addWrite (var : String) (input : NodeId) : Edit NodeId := do
  let n ← ask (·.node input)
  addNode (.data .write var) n.valueType n.dataType [input]

/-! ## Single edges -/

/-- Inserts `child` into a slot of `parent`. Later inputs move up by one. -/
def addInput (parent child : NodeId) (slot : Nat) : Edit Unit := do
  let _ ← ask (·.node child)
  let n ← ask (·.node parent)
  if n.inputs.length < slot then throw (.slotOutOfRange parent slot n.inputs.length)
  else modify fun g => (g.mapInputs parent (·.insertIdx slot child)).addParent child parent

/-- Takes out the input in a slot and answers which node it was. Later inputs
move down by one. -/
def removeInput (parent : NodeId) (slot : Nat) : Edit NodeId := do
  let child ← ask (·.inputAt parent slot)
  ask (·.requireParent child parent)
  modify fun g => (g.mapInputs parent (·.eraseIdx slot)).dropParent child parent
  return child

/-- Puts another node into a slot and answers which node was there. -/
def replaceInput (parent : NodeId) (slot : Nat) (new : NodeId) : Edit NodeId := do
  let _ ← ask (·.node new)
  let old ← ask (·.inputAt parent slot)
  ask (·.requireParent old parent)
  -- Moving the mention to the end of the parents would be a change.
  if old = new then return old
  else
    modify fun g =>
      ((g.dropParent old parent).mapInputs parent (·.set slot new)).addParent new parent
    return old

/-! Each of these steps makes its checks in a fixed order, and touches the graph
only when all of them have passed. -/

theorem addNode_apply (kind : NodeKind) (valueType : ValueType) (dataType : DataType)
    (inputs : List NodeId) (g : Graph) :
    addNode kind valueType dataType inputs g = match g.requireAll inputs with
      | .error e => .error e g
      | .ok _ => .ok g.size (g.insert kind valueType dataType inputs) := by
  unfold addNode
  rw [Edit.ask_bind]
  cases g.requireAll inputs <;> rfl

theorem addInput_apply (parent child : NodeId) (slot : Nat) (g : Graph) :
    addInput parent child slot g = match g.node child with
      | .error e => .error e g
      | .ok _ => match g.node parent with
        | .error e => .error e g
        | .ok n =>
            if n.inputs.length < slot then
              .error (.slotOutOfRange parent slot n.inputs.length) g
            else
              .ok () ((g.mapInputs parent (·.insertIdx slot child)).addParent child parent) := by
  unfold addInput
  rw [Edit.ask_bind]
  cases g.node child with
  | error e => rfl
  | ok _ =>
      simp only []
      rw [Edit.ask_bind]
      cases g.node parent with
      | error e => rfl
      | ok n =>
          simp only []
          split <;> rfl

theorem removeInput_apply (parent : NodeId) (slot : Nat) (g : Graph) :
    removeInput parent slot g = match g.inputAt parent slot with
      | .error e => .error e g
      | .ok child => match g.requireParent child parent with
        | .error e => .error e g
        | .ok _ => .ok child ((g.mapInputs parent (·.eraseIdx slot)).dropParent child parent) := by
  unfold removeInput
  rw [Edit.ask_bind]
  cases g.inputAt parent slot with
  | error e => rfl
  | ok child =>
      simp only []
      rw [Edit.ask_bind]
      cases g.requireParent child parent <;> rfl

theorem replaceInput_apply (parent : NodeId) (slot : Nat) (new : NodeId) (g : Graph) :
    replaceInput parent slot new g = match g.node new with
      | .error e => .error e g
      | .ok _ => match g.inputAt parent slot with
        | .error e => .error e g
        | .ok old => match g.requireParent old parent with
          | .error e => .error e g
          | .ok _ =>
              if old = new then .ok old g
              else
                .ok old (((g.dropParent old parent).mapInputs parent (·.set slot new)).addParent
                  new parent) := by
  unfold replaceInput
  rw [Edit.ask_bind]
  cases g.node new with
  | error e => rfl
  | ok _ =>
      simp only []
      rw [Edit.ask_bind]
      cases g.inputAt parent slot with
      | error e => rfl
      | ok old =>
          simp only []
          rw [Edit.ask_bind]
          cases g.requireParent old parent with
          | error e => rfl
          | ok _ =>
              simp only []
              split <;> rfl

/-! ## All edges of a node -/

/-- The slots in which one parent holds a node. The parent must hold it, and as
often as the node says. -/
def usesBy (g : Graph) (id : NodeId) (parents : List NodeId) (parent : NodeId) :
    Except GraphError (List (NodeId × Nat)) :=
  match g.node parent with
  | .error e => .error e
  | .ok p =>
      let slots := p.slotsOf id
      if slots.isEmpty then .error (.danglingParent id parent)
      else if slots.length ≠ parents.count parent then
        .error (.unequalCounts id parent slots.length (parents.count parent))
      else .ok (slots.map fun slot => (parent, slot))

/-- All slots that hold a node, parent by parent in the order in which the node
first mentions them. -/
def uses (g : Graph) (id : NodeId) : Except GraphError (List (NodeId × Nat)) :=
  match g.node id with
  | .error e => .error e
  | .ok n => (n.parents.eraseDups.mapM (g.usesBy id n.parents)).map List.flatten

def replaceAll (new : NodeId) : List (NodeId × Nat) → Edit Unit
  | [] => pure ()
  | (parent, slot) :: rest => do
      let _ ← replaceInput parent slot new
      replaceAll new rest

/-- Puts `new` into every slot that holds `old` and answers how many there were.
Nothing holds `old` afterwards, unless the two are the same. -/
def replaceUses (old new : NodeId) : Edit Nat := do
  let _ ← ask (·.node new)
  let slots ← ask (·.uses old)
  -- The uses are looked up first, so a broken edge is noticed in any case.
  if old = new then return 0
  else
    replaceAll new slots
    return slots.length

/-- Takes out the inputs in the slots below `n`, the last one first, and puts
them in front of `taken`. -/
def detachBelow (id : NodeId) : Nat → List NodeId → Edit (List NodeId)
  | 0, taken => pure taken
  | n + 1, taken => do
      let child ← removeInput id n
      detachBelow id n (child :: taken)

/-- Takes out all inputs of a node and answers which they were, in order. When
one cannot be taken out, the later ones already are. -/
def detachInputs (id : NodeId) : Edit (List NodeId) := do
  let n ← ask (·.node id)
  detachBelow id n.inputs.length []

/-! ## Marks -/

def setVisited (id : NodeId) (visited : Bool) : Edit Unit := do
  let _ ← ask (·.node id)
  modify (·.mark id visited)

end Graph

end OpGraph
