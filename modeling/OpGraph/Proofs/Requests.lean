import OpGraph.Proofs.Safety

/-!
# Any sequence of requests leaves consistent edges

A graph starts empty, and everything that happens to it afterwards is a request:
a node is added, an edge is changed, a mark is set. Requests come in any order
and with any arguments. They may close cycles, hold a node many times over or
make a node its own input, and some of them are refused. `Ledger.run` follows
such a history and writes down, for every node that was added, the number that
was answered and the label that was asked for.

Every state on the way has consistent edges (`Ledger.Sound`). A request is one
of a few edits, and for each of them the two records of an edge change together:
one lemma for an addition (`Balanced.insert`) and one for each single edge. The
ledger agrees with the graph as well: the number of a node is its place in the
graph, and nothing that comes later moves the node or changes its label.

The check of such a graph therefore has nothing to find but a number without a
node, which a root may be, and a cycle.
-/

namespace OpGraph

/-- A request to add a node. -/
inductive Addition where
  | literal (value : Value)
  | unary (op : UnaryOp) (valueType : ValueType) (dataType : DataType) (input : NodeId)
  | binary (op : BinaryOp) (valueType : ValueType) (dataType : DataType) (left right : NodeId)
  | read (var : String) (valueType : ValueType) (dataType : DataType)
  | write (var : String) (input : NodeId)
deriving DecidableEq, Repr

namespace Addition

def perform : Addition → Edit NodeId
  | literal value => Graph.addLiteral value
  | unary op valueType dataType input => Graph.addUnary op valueType dataType input
  | binary op valueType dataType left right => Graph.addBinary op valueType dataType left right
  | read var valueType dataType => Graph.addRead var valueType dataType
  | write var input => Graph.addWrite var input

def inputs : Addition → List NodeId
  | literal _ => []
  | unary _ _ _ input => [input]
  | binary _ _ _ left right => [left, right]
  | read _ _ _ => []
  | write _ input => [input]

/-- The label that the new node is to have. A write has the types of its input. -/
def label? (g : Graph) : Addition → Option Label
  | literal value => some (.literal value)
  | unary op valueType dataType _ => some ⟨.unary op, valueType, dataType⟩
  | binary op valueType dataType _ _ => some ⟨.binary op, valueType, dataType⟩
  | read var valueType dataType => some ⟨.data .read var, valueType, dataType⟩
  | write var input => (g.label? input).map fun l => { l with kind := .data .write var }

end Addition

/-- A request to change edges or marks. -/
inductive Change where
  | addInput (parent child : NodeId) (slot : Nat)
  | removeInput (parent : NodeId) (slot : Nat)
  | replaceInput (parent : NodeId) (slot : Nat) (new : NodeId)
  | replaceUses (old new : NodeId)
  | detachInputs (id : NodeId)
  | setVisited (id : NodeId) (visited : Bool)
  | resetVisited (roots : List NodeId)
deriving DecidableEq, Repr

/-- The graph that an edit leaves behind, refused or not. -/
def Edit.after {α : Type} (e : Edit α) (g : Graph) : Graph :=
  match e g with
  | .ok _ h => h
  | .error _ h => h

/-- The graph after a change. What the change answers is not looked at. -/
def Change.after (g : Graph) : Change → Graph
  | addInput parent child slot => (Graph.addInput parent child slot).after g
  | removeInput parent slot => (Graph.removeInput parent slot).after g
  | replaceInput parent slot new => (Graph.replaceInput parent slot new).after g
  | replaceUses old new => (Graph.replaceUses old new).after g
  | detachInputs id => (Graph.detachInputs id).after g
  | setVisited id visited => (Graph.setVisited id visited).after g
  | resetVisited roots => (Graph.resetVisited roots).after g

inductive Request where
  | add (node : Addition)
  | change (what : Change)
deriving DecidableEq, Repr

/-- A graph, and for every node that was added to it the number that was answered
and the label that was asked for, in the order of the requests. -/
structure Ledger where
  graph : Graph
  entries : List (NodeId × Option Label)
deriving DecidableEq, Repr

namespace Ledger

def empty : Ledger := ⟨.empty, []⟩

/-- One request more. A refused addition is not entered. -/
def step (l : Ledger) : Request → Ledger
  | .add a =>
      match a.perform l.graph with
      | .ok id g => ⟨g, l.entries ++ [(id, a.label? l.graph)]⟩
      | .error _ g => ⟨g, l.entries⟩
  | .change c => ⟨c.after l.graph, l.entries⟩

def run (requests : List Request) : Ledger := requests.foldl step empty

end Ledger

namespace Graph

/-! ## Adding a node -/

theorem requireAll_eq_ok {g : Graph} : ∀ {ids : List NodeId}, g.requireAll ids = .ok () →
    ∀ id ∈ ids, id < g.size
  | [], _ => by simp
  | x :: xs, h => by
      change (discard (g.node x) : Except GraphError Unit).bind (fun _ => g.requireAll xs) = _ at h
      cases hx : g.node x with
      | error e =>
          rw [hx] at h
          cases h
      | ok n =>
          rw [hx] at h
          exact List.forall_mem_cons.2
            ⟨lt_size_of_node? (node_eq_ok_iff.1 hx), requireAll_eq_ok h⟩

/-- The graph in which some nodes note once more, for every mention of them, that
`id` holds them. -/
def noted (g : Graph) (inputs : List NodeId) (id : NodeId) : Graph :=
  inputs.foldl (fun h child => h.addParent child id) g

theorem noted_views (id : NodeId) (inputs : List NodeId) : ∀ g : Graph,
    (g.noted inputs id).size = g.size ∧ (∀ j, (g.noted inputs id).label? j = g.label? j) ∧
      ∀ j, (g.noted inputs id).inputsOf j = g.inputsOf j := by
  induction inputs with
  | nil => exact fun g => ⟨rfl, fun _ => rfl, fun _ => rfl⟩
  | cons c inputs ih =>
      intro g
      obtain ⟨hsize, hlabel, hinputs⟩ := ih (g.addParent c id)
      refine ⟨?_, fun j => ?_, fun j => ?_⟩
      · rw [noted, List.foldl_cons, ← noted, hsize, addParent, size_mapParents]
      · rw [noted, List.foldl_cons, ← noted, hlabel, addParent, label?_mapParents]
      · rw [noted, List.foldl_cons, ← noted, hinputs, addParent, inputsOf_mapParents]

theorem count_parentsOf_noted (id p c : NodeId) (inputs : List NodeId) : ∀ {g : Graph},
    (∀ x ∈ inputs, x < g.size) → ((g.noted inputs id).parentsOf c).count p =
      (g.parentsOf c).count p + if id = p then inputs.count c else 0 := by
  induction inputs with
  | nil => exact fun _ => by simp [noted]
  | cons x inputs ih =>
      intro g hlt
      rw [List.forall_mem_cons] at hlt
      have hsize : (g.addParent x id).size = g.size := size_mapParents g x _
      rw [noted, List.foldl_cons, ← noted, ih fun y hy => hsize ▸ hlt.2 y hy, addParent,
        parentsOf_mapParents hlt.1, List.count_cons]
      by_cases hx : x = c
      · by_cases hp : id = p
        · simp [hx, hp]
          omega
        · simp [hx, hp]
      · simp [hx]

theorem insert_eq (g : Graph) (l : Label) (inputs : List NodeId) :
    g.insert l.kind l.valueType l.dataType inputs = (g.noted inputs g.size).push
      ⟨l.kind, l.valueType, l.dataType, inputs, [], false⟩ :=
  rfl

theorem size_insert (g : Graph) (l : Label) (inputs : List NodeId) :
    (g.insert l.kind l.valueType l.dataType inputs).size = g.size + 1 := by
  rw [insert_eq, size_push, (noted_views g.size inputs g).1]

theorem label?_insert (g : Graph) (l : Label) (inputs : List NodeId) (j : NodeId) :
    (g.insert l.kind l.valueType l.dataType inputs).label? j =
      if j = g.size then some l else g.label? j := by
  obtain ⟨hsize, hlabel, -⟩ := noted_views g.size inputs g
  rw [insert_eq, label?_push, hsize, hlabel]
  rfl

theorem Balanced.insert {g : Graph} (hg : g.Balanced) (l : Label) {inputs : List NodeId}
    (hlt : ∀ c ∈ inputs, c < g.size) :
    (g.insert l.kind l.valueType l.dataType inputs).Balanced := by
  intro p c
  obtain ⟨hsize, -, hinputs⟩ := noted_views g.size inputs g
  rw [insert_eq, parentsOf_push, inputsOf_push, hsize, hinputs]
  have hold := hg p c
  have hnoted := count_parentsOf_noted g.size p c inputs hlt
  -- The new number is held by nothing, and holds what it was given.
  by_cases hc : c = g.size
  · subst hc
    have hnone : (g.inputsOf p).count g.size = 0 :=
      List.count_eq_zero.2 fun h => Nat.lt_irrefl _ (hg.input_lt h)
    have hself : inputs.count g.size = 0 :=
      List.count_eq_zero.2 fun h => Nat.lt_irrefl _ (hlt _ h)
    rw [if_pos rfl, List.count_nil]
    split
    · exact hself.symm
    · exact hnone.symm
  · rw [if_neg hc, hnoted]
    by_cases hp : p = g.size
    · subst hp
      have hnone : (g.parentsOf c).count g.size = 0 :=
        List.count_eq_zero.2 fun h => Nat.lt_irrefl _ (hg.parent_lt h)
      rw [if_pos rfl, if_pos rfl, hnone, Nat.zero_add]
    · rw [if_neg (Ne.symm hp), if_neg hp]
      exact hold

/-! ## Adding one input -/

/-- The graph in which `parent` holds `child` in one more slot. -/
def linked (g : Graph) (parent : NodeId) (slot : Nat) (child : NodeId) : Graph :=
  (g.mapInputs parent (·.insertIdx slot child)).addParent child parent

theorem count_insertIdx {xs : List NodeId} {i : Nat} (hi : i ≤ xs.length) (a b : NodeId) :
    (xs.insertIdx i a).count b = xs.count b + if a = b then 1 else 0 := by
  rw [(List.perm_insertIdx a xs hi).count_eq b, List.count_cons]
  simp

theorem Balanced.linked {g : Graph} (hg : g.Balanced) {parent child : NodeId} {slot : Nat}
    (hp : parent < g.size) (hc : child < g.size) (hslot : slot ≤ (g.inputsOf parent).length) :
    (g.linked parent slot child).Balanced := by
  intro p c
  have hpc := hg p c
  have hup := count_insertIdx hslot child c
  rw [Graph.linked, addParent, parentsOf_mapParents (by simpa using hc), parentsOf_mapInputs,
    inputsOf_mapParents, inputsOf_mapInputs hp]
  by_cases hpar : parent = p
  · subst hpar
    rw [if_pos rfl, hup]
    by_cases hchild : child = c
    · simp [hchild, hpc]
    · simp [hchild, hpc]
  · rw [if_neg hpar]
    by_cases hchild : child = c
    · simp [hchild, hpar, hpc]
    · simp [hchild, hpc]

/-! ## What a change leaves behind -/

/-- The graph `h` has the nodes of `g`, with edges of its own that are balanced. -/
structure Relinked (g h : Graph) : Prop where
  balanced : h.Balanced
  size : h.size = g.size
  label : ∀ id, h.label? id = g.label? id

theorem Balanced.relinked {g : Graph} (hg : g.Balanced) : g.Relinked g :=
  ⟨hg, rfl, fun _ => rfl⟩

section Changes

variable {g : Graph} (hg : g.Balanced)

include hg

theorem Balanced.after_addInput (parent child : NodeId) (slot : Nat) :
    g.Relinked ((addInput parent child slot).after g) := by
  rw [Edit.after, addInput_apply]
  cases hc : g.node child with
  | error e => exact hg.relinked
  | ok m =>
      cases hp : g.node parent with
      | error e => exact hg.relinked
      | ok n =>
          by_cases hslot : n.inputs.length < slot
          · simp only [if_pos hslot]
            exact hg.relinked
          · simp only [if_neg hslot]
            have hn := node_eq_ok_iff.1 hp
            refine ⟨hg.linked (lt_size_of_node? hn) (lt_size_of_node? (node_eq_ok_iff.1 hc)) ?_,
              ?_, fun id => ?_⟩
            · rw [inputsOf_of_node? hn]
              exact Nat.le_of_not_lt hslot
            · simp [addParent]
            · simp [addParent]

theorem Balanced.after_removeInput (parent : NodeId) (slot : Nat) :
    g.Relinked ((removeInput parent slot).after g) := by
  rw [Edit.after, removeInput_apply]
  cases hslot : g.inputAt parent slot with
  | error e => exact hg.relinked
  | ok child =>
      simp only []
      cases g.requireParent child parent with
      | error e => exact hg.relinked
      | ok _ =>
          exact ⟨hg.unlinked (inputAt_eq_ok_iff.1 hslot), size_unlinked g parent slot child,
            label?_unlinked g parent slot child⟩

theorem Balanced.after_replaceInput (parent : NodeId) (slot : Nat) (new : NodeId) :
    g.Relinked ((replaceInput parent slot new).after g) := by
  rw [Edit.after, replaceInput_apply]
  cases hnew : g.node new with
  | error e => exact hg.relinked
  | ok n =>
      simp only []
      cases hslot : g.inputAt parent slot with
      | error e => exact hg.relinked
      | ok old =>
          simp only []
          cases g.requireParent old parent with
          | error e => exact hg.relinked
          | ok _ =>
              by_cases hsame : old = new
              · simp only [if_pos hsame]
                exact hg.relinked
              · simp only [if_neg hsame]
                have hlt := lt_size_of_node? (node_eq_ok_iff.1 hnew)
                exact ⟨hg.rewired hlt (inputAt_eq_ok_iff.1 hslot) hsame,
                  size_rewired g parent slot old new, label?_rewired g parent slot old new⟩

/-- Replacing all uses either is refused before anything is changed, or has no
reason to stop on the way. -/
theorem Balanced.after_replaceUses (old new : NodeId) :
    g.Relinked ((replaceUses old new).after g) := by
  cases hnew : g.node new with
  | error e =>
      rw [Edit.after, replaceUses, Edit.ask_bind, hnew]
      exact hg.relinked
  | ok n =>
      cases hold : g.uses old with
      | error e =>
          rw [Edit.after, replaceUses, Edit.ask_bind, hnew]
          simp only []
          rw [Edit.ask_bind, hold]
          exact hg.relinked
      | ok slots =>
          by_cases hsame : old = new
          · rw [Edit.after, replaceUses, Edit.ask_bind, hnew]
            simp only []
            rw [Edit.ask_bind, hold]
            simp only [if_pos hsame]
            exact hg.relinked
          · obtain ⟨k, h, hrun, hsub⟩ := replaceUses_substituted hg (usesAgree_of_uses hold).1
              (lt_size_of_node? (node_eq_ok_iff.1 hnew)) hsame
            rw [Edit.after, hrun]
            exact ⟨hsub.balanced, hsub.size, hsub.label⟩

theorem Balanced.after_detachInputs (id : NodeId) :
    g.Relinked ((detachInputs id).after g) := by
  cases hid : g.node id with
  | error e =>
      rw [Edit.after, detachInputs, Edit.ask_bind, hid]
      exact hg.relinked
  | ok n =>
      obtain ⟨all, h, hrun, hd⟩ :=
        detachInputs_detached hg (lt_size_of_node? (node_eq_ok_iff.1 hid))
      rw [Edit.after, hrun]
      exact ⟨hd.balanced, hd.size, hd.label⟩

theorem Balanced.after_setVisited (id : NodeId) (visited : Bool) :
    g.Relinked ((setVisited id visited).after g) := by
  cases hid : g.node id with
  | error e =>
      rw [Edit.after, setVisited, Edit.ask_bind, hid]
      exact hg.relinked
  | ok n =>
      rw [Edit.after, setVisited_apply (lt_size_of_node? (node_eq_ok_iff.1 hid))]
      exact ⟨hg.mark id visited, size_mark g id visited, label?_mark g id visited⟩

theorem Balanced.after_resetVisited (roots : List NodeId) :
    g.Relinked ((resetVisited roots).after g) := by
  rw [Edit.after, resetVisited, Edit.ask_bind]
  cases g.postorder roots with
  | error e => exact hg.relinked
  | ok order =>
      obtain ⟨hsize, hlabel, hinputs, hparents⟩ := g.cleared_views order
      exact ⟨balanced_of_views hinputs hparents hg, hsize, hlabel⟩

theorem Balanced.after_change (c : Change) : g.Relinked (c.after g) := by
  cases c with
  | addInput parent child slot => exact hg.after_addInput parent child slot
  | removeInput parent slot => exact hg.after_removeInput parent slot
  | replaceInput parent slot new => exact hg.after_replaceInput parent slot new
  | replaceUses old new => exact hg.after_replaceUses old new
  | detachInputs id => exact hg.after_detachInputs id
  | setVisited id visited => exact hg.after_setVisited id visited
  | resetVisited roots => exact hg.after_resetVisited roots

end Changes

end Graph

namespace Addition

/-- All additions are one edit, with the label that is asked for. -/
theorem perform_eq_addNode {a : Addition} {g : Graph} {l : Label} (h : a.label? g = some l) :
    a.perform g = Graph.addNode l.kind l.valueType l.dataType a.inputs g := by
  cases a with
  | literal value | unary op valueType dataType input | binary op valueType dataType left right
  | read var valueType dataType =>
      cases h
      rfl
  | write var input =>
      obtain ⟨l', hl, rfl⟩ := Option.map_eq_some_iff.1 h
      obtain ⟨n, hn, rfl⟩ := Option.map_eq_some_iff.1 hl
      rw [perform, Graph.addWrite, Edit.ask_bind, Graph.node_eq_ok_iff.2 hn]
      rfl

/-- Only a write can lack a label, when there is nothing to be written. -/
theorem perform_of_no_label {a : Addition} {g : Graph} (h : a.label? g = none) :
    ∃ e, a.perform g = .error e g := by
  cases a with
  | literal value | unary op valueType dataType input | binary op valueType dataType left right
  | read var valueType dataType => cases h
  | write var input =>
      have hnone : g.node? input = none := Option.map_eq_none_iff.1 (Option.map_eq_none_iff.1 h)
      refine ⟨.unknownNode input, ?_⟩
      rw [perform, Graph.addWrite, Edit.ask_bind, Graph.node_eq_error_iff.2 ⟨hnone, rfl⟩]

/-- An addition is refused and changes nothing, or its inputs exist and the node
gets the next number. -/
theorem perform_cases (a : Addition) (g : Graph) :
    (∃ e, a.perform g = .error e g) ∨ ∃ l, a.label? g = some l ∧ (∀ x ∈ a.inputs, x < g.size) ∧
      a.perform g = .ok g.size (g.insert l.kind l.valueType l.dataType a.inputs) := by
  cases hlabel : a.label? g with
  | none => exact .inl (perform_of_no_label hlabel)
  | some l =>
      rw [perform_eq_addNode hlabel, Graph.addNode_apply]
      cases hall : g.requireAll a.inputs with
      | error e => exact .inl ⟨e, rfl⟩
      | ok _ => exact .inr ⟨l, rfl, Graph.requireAll_eq_ok hall, rfl⟩

end Addition

namespace Ledger

/-- The edges of the graph are balanced, and the nodes have the numbers and the
labels that were entered for them. -/
structure Sound (l : Ledger) : Prop where
  balanced : l.graph.Balanced
  entries : l.entries = (List.range l.graph.size).map fun id => (id, l.graph.label? id)

theorem sound_empty : empty.Sound where
  balanced _ _ := rfl
  entries := rfl

theorem Sound.step {l : Ledger} (h : l.Sound) (q : Request) : (l.step q).Sound := by
  cases q with
  | change c =>
      have hc := h.balanced.after_change c
      refine ⟨hc.balanced, ?_⟩
      show l.entries = _
      simp only [Ledger.step, hc.size, hc.label, h.entries]
  | add a =>
      rw [Ledger.step]
      rcases a.perform_cases l.graph with ⟨e, hrun⟩ | ⟨label, hlabel, hlt, hrun⟩
      · rw [hrun]
        exact h
      · rw [hrun]
        refine ⟨h.balanced.insert label hlt, ?_⟩
        show l.entries ++ [(l.graph.size, a.label? l.graph)] = _
        simp only [Graph.size_insert, Graph.label?_insert, List.range_succ, List.map_append,
          List.map_cons, List.map_nil, if_true, hlabel]
        rw [h.entries]
        -- The new number is none of the earlier ones.
        refine congrArg (· ++ _) (List.map_congr_left fun id hid => ?_)
        rw [if_neg (Nat.ne_of_lt (List.mem_range.1 hid))]

theorem Sound.foldl {l : Ledger} (h : l.Sound) (requests : List Request) :
    (requests.foldl Ledger.step l).Sound := by
  induction requests generalizing l with
  | nil => exact h
  | cons q rest ih => exact ih (h.step q)

end Ledger

/-- On balanced edges the check finds nothing but what stops the walk. -/
theorem Graph.Balanced.error_of_check {g : Graph} (hg : g.Balanced) {roots : List NodeId}
    {e : GraphError} (h : g.check roots = .error e) :
    (∃ id, e = .unknownNode id) ∨ ∃ id, e = .cycle id := by
  cases hpost : g.postorder roots with
  | ok order =>
      rw [hg.check_eq_ok hpost] at h
      cases h
  | error e' =>
      rw [check, hpost] at h
      cases h
      have hblame := postorder_blames hpost
      cases e with
      | unknownNode id => exact .inl ⟨id, rfl⟩
      | cycle id => exact .inr ⟨id, rfl⟩
      | slotOutOfRange | missingParent | danglingParent | unequalCounts | notLiteral =>
          exact absurd hblame id

/-- Whatever was asked of a graph, refused or not: the nodes have the numbers that
were answered, both ends of every edge agree, and the check of any roots can only
find a number without a node or a cycle. -/
theorem Ledger.run_consistent (requests : List Request) :
    (run requests).entries = (List.range (run requests).graph.size).map
        (fun id => (id, (run requests).graph.label? id)) ∧
      (run requests).graph.Consistent ∧
      ∀ roots e, (run requests).graph.check roots = .error e →
        (∃ id, e = .unknownNode id) ∨ ∃ id, e = .cycle id := by
  have hsound : (run requests).Sound := sound_empty.foldl requests
  exact ⟨hsound.entries, hsound.balanced.consistent,
    fun roots e => hsound.balanced.error_of_check⟩

/-- A node whose input is replaced by the node itself. Three requests on the way
are refused. -/
def Ledger.selfHeld : List Request :=
  [.add (.literal (.int 1)), .add (.unary .abs .int .scalar 0), .add (.write "x" 5),
    .change (.addInput 1 0 2), .change (.addInput 1 0 1), .change (.removeInput 0 0),
    .change (.replaceUses 0 1)]

/-- The node holds itself twice and is its own parent twice, and a walk from it
runs into the cycle. -/
theorem Ledger.run_consistent_selfHeld :
    (run selfHeld).graph.inputsOf 1 = [1, 1] ∧
      (run selfHeld).graph.check [1] = .error (.cycle 1) ∧
      (run selfHeld).entries = (List.range (run selfHeld).graph.size).map
        (fun id => (id, (run selfHeld).graph.label? id)) ∧
      (run selfHeld).graph.Consistent ∧
      ((∃ id, GraphError.cycle 1 = .unknownNode id) ∨ ∃ id, GraphError.cycle 1 = .cycle id) := by
  have hinputs : (run selfHeld).graph.inputsOf 1 = [1, 1] := by decide +kernel
  have hcheck : (run selfHeld).graph.check [1] = .error (.cycle 1) := by decide +kernel
  obtain ⟨hentries, hconsistent, herror⟩ := run_consistent selfHeld
  exact ⟨hinputs, hcheck, hentries, hconsistent, herror [1] _ hcheck⟩

end OpGraph
