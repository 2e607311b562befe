import OpGraph.Graph.Edit

/-!
# A graph as four views

Everything a graph records about a node falls into four parts that change for
different reasons: its label, which is given once and never changes; its mark,
which belongs to the pass that is under way; its inputs; and its parents. Each
update touches one of the four. The lemmas here say so once, view by view, and
nothing after them unfolds an update again.
-/

namespace OpGraph

/-- What a node stands for, with the types it declares. -/
structure Label where
  kind : NodeKind
  valueType : ValueType
  dataType : DataType
deriving DecidableEq, Repr

def Node.label (n : Node) : Label := ⟨n.kind, n.valueType, n.dataType⟩

namespace Graph

def label? (g : Graph) (id : NodeId) : Option Label := (g.node? id).map Node.label

def visited? (g : Graph) (id : NodeId) : Option Bool := (g.node? id).map Node.visited

theorem inputsOf_of_node? {g : Graph} {id : NodeId} {n : Node} (h : g.node? id = some n) :
    g.inputsOf id = n.inputs := by
  simp [inputsOf, h]

theorem parentsOf_of_node? {g : Graph} {id : NodeId} {n : Node} (h : g.node? id = some n) :
    g.parentsOf id = n.parents := by
  simp [parentsOf, h]

theorem label?_of_node? {g : Graph} {id : NodeId} {n : Node} (h : g.node? id = some n) :
    g.label? id = some n.label := by
  simp [label?, h]

theorem label?_isSome_iff (g : Graph) (id : NodeId) : (g.label? id).isSome ↔ id < g.size := by
  rw [label?, Option.isSome_map, node?_isSome_iff]

theorem visited?_of_node? {g : Graph} {id : NodeId} {n : Node} (h : g.node? id = some n) :
    g.visited? id = some n.visited := by
  simp [visited?, h]

/-- A node is what the four views show of it. -/
theorem node?_of_views {g : Graph} {id : NodeId} {n : Node} (hlabel : g.label? id = some n.label)
    (hvisited : g.visited? id = some n.visited) (hinputs : g.inputsOf id = n.inputs)
    (hparents : g.parentsOf id = n.parents) : g.node? id = some n := by
  obtain ⟨m, hm, hmlabel⟩ := Option.map_eq_some_iff.1 hlabel
  rw [visited?_of_node? hm] at hvisited
  rw [inputsOf_of_node? hm] at hinputs
  rw [parentsOf_of_node? hm] at hparents
  rw [hm]
  cases m
  cases n
  simp_all [Node.label]

theorem exists_node? {g : Graph} {id : NodeId} (h : id < g.size) : ∃ n, g.node? id = some n :=
  Option.isSome_iff_exists.1 ((g.node?_isSome_iff id).2 h)

theorem node?_eq_none {g : Graph} {id : NodeId} (h : g.size ≤ id) : g.node? id = none := by
  rw [← Option.not_isSome_iff_eq_none, node?_isSome_iff]
  exact Nat.not_lt.2 h

theorem node_of_lt {g : Graph} {id : NodeId} (h : id < g.size) : ∃ n, g.node id = .ok n := by
  obtain ⟨n, hn⟩ := exists_node? h
  exact ⟨n, node_eq_ok_iff.2 hn⟩

theorem lt_size_of_mem_inputsOf {g : Graph} {id c : NodeId} (h : c ∈ g.inputsOf id) :
    id < g.size := by
  rcases Nat.lt_or_ge id g.size with hlt | hge
  · exact hlt
  · rw [inputsOf, node?_eq_none hge] at h
    cases h

theorem lt_size_of_mem_parentsOf {g : Graph} {id p : NodeId} (h : p ∈ g.parentsOf id) :
    id < g.size := by
  rcases Nat.lt_or_ge id g.size with hlt | hge
  · exact hlt
  · rw [parentsOf, node?_eq_none hge] at h
    cases h

/-! ## Changing inputs -/

@[simp] theorem size_mapInputs (g : Graph) (id : NodeId) (f : List NodeId → List NodeId) :
    (g.mapInputs id f).size = g.size := by
  simp [mapInputs]

theorem inputsOf_mapInputs {g : Graph} {i : NodeId} (hi : i < g.size)
    (f : List NodeId → List NodeId) (j : NodeId) :
    (g.mapInputs i f).inputsOf j = if i = j then f (g.inputsOf j) else g.inputsOf j := by
  unfold mapInputs inputsOf
  rw [node?_update]
  by_cases h : i = j
  · subst h
    obtain ⟨n, hn⟩ := exists_node? hi
    simp [hn]
  · simp [h]

@[simp] theorem parentsOf_mapInputs (g : Graph) (i : NodeId) (f : List NodeId → List NodeId)
    (j : NodeId) : (g.mapInputs i f).parentsOf j = g.parentsOf j := by
  unfold mapInputs parentsOf
  rw [node?_update]
  by_cases h : i = j
  · rw [if_pos h]
    cases g.node? j <;> rfl
  · rw [if_neg h]

@[simp] theorem label?_mapInputs (g : Graph) (i : NodeId) (f : List NodeId → List NodeId)
    (j : NodeId) : (g.mapInputs i f).label? j = g.label? j := by
  unfold mapInputs label?
  rw [node?_update]
  split <;> cases g.node? j <;> rfl

@[simp] theorem visited?_mapInputs (g : Graph) (i : NodeId) (f : List NodeId → List NodeId)
    (j : NodeId) : (g.mapInputs i f).visited? j = g.visited? j := by
  unfold mapInputs visited?
  rw [node?_update]
  split <;> cases g.node? j <;> rfl

/-! ## Changing parents -/

@[simp] theorem size_mapParents (g : Graph) (id : NodeId) (f : List NodeId → List NodeId) :
    (g.mapParents id f).size = g.size := by
  simp [mapParents]

theorem parentsOf_mapParents {g : Graph} {i : NodeId} (hi : i < g.size)
    (f : List NodeId → List NodeId) (j : NodeId) :
    (g.mapParents i f).parentsOf j = if i = j then f (g.parentsOf j) else g.parentsOf j := by
  unfold mapParents parentsOf
  rw [node?_update]
  by_cases h : i = j
  · subst h
    obtain ⟨n, hn⟩ := exists_node? hi
    simp [hn]
  · simp [h]

@[simp] theorem inputsOf_mapParents (g : Graph) (i : NodeId) (f : List NodeId → List NodeId)
    (j : NodeId) : (g.mapParents i f).inputsOf j = g.inputsOf j := by
  unfold mapParents inputsOf
  rw [node?_update]
  by_cases h : i = j
  · rw [if_pos h]
    cases g.node? j <;> rfl
  · rw [if_neg h]

@[simp] theorem label?_mapParents (g : Graph) (i : NodeId) (f : List NodeId → List NodeId)
    (j : NodeId) : (g.mapParents i f).label? j = g.label? j := by
  unfold mapParents label?
  rw [node?_update]
  split <;> cases g.node? j <;> rfl

@[simp] theorem visited?_mapParents (g : Graph) (i : NodeId) (f : List NodeId → List NodeId)
    (j : NodeId) : (g.mapParents i f).visited? j = g.visited? j := by
  unfold mapParents visited?
  rw [node?_update]
  split <;> cases g.node? j <;> rfl

/-! ## Changing marks -/

@[simp] theorem size_mark (g : Graph) (id : NodeId) (b : Bool) : (g.mark id b).size = g.size := by
  simp [mark]

@[simp] theorem inputsOf_mark (g : Graph) (i : NodeId) (b : Bool) (j : NodeId) :
    (g.mark i b).inputsOf j = g.inputsOf j := by
  unfold mark inputsOf
  rw [node?_update]
  by_cases h : i = j
  · rw [if_pos h]
    cases g.node? j <;> rfl
  · rw [if_neg h]

@[simp] theorem parentsOf_mark (g : Graph) (i : NodeId) (b : Bool) (j : NodeId) :
    (g.mark i b).parentsOf j = g.parentsOf j := by
  unfold mark parentsOf
  rw [node?_update]
  by_cases h : i = j
  · rw [if_pos h]
    cases g.node? j <;> rfl
  · rw [if_neg h]

@[simp] theorem label?_mark (g : Graph) (i : NodeId) (b : Bool) (j : NodeId) :
    (g.mark i b).label? j = g.label? j := by
  unfold mark label?
  rw [node?_update]
  split <;> cases g.node? j <;> rfl

theorem visited?_mark {g : Graph} {i : NodeId} (hi : i < g.size) (b : Bool) (j : NodeId) :
    (g.mark i b).visited? j = if i = j then some b else g.visited? j := by
  unfold mark visited?
  rw [node?_update]
  split
  · rename_i h
    subst h
    obtain ⟨n, hn⟩ := exists_node? hi
    simp [hn]
  · rfl

/-! ## Adding a node -/

theorem inputsOf_push (g : Graph) (n : Node) (j : NodeId) :
    (g.push n).inputsOf j = if j = g.size then n.inputs else g.inputsOf j := by
  unfold inputsOf
  rw [node?_push]
  by_cases h : j = g.size
  · rw [if_pos h, if_pos h]
  · rw [if_neg h, if_neg h]

theorem parentsOf_push (g : Graph) (n : Node) (j : NodeId) :
    (g.push n).parentsOf j = if j = g.size then n.parents else g.parentsOf j := by
  unfold parentsOf
  rw [node?_push]
  by_cases h : j = g.size
  · rw [if_pos h, if_pos h]
  · rw [if_neg h, if_neg h]

theorem label?_push (g : Graph) (n : Node) (j : NodeId) :
    (g.push n).label? j = if j = g.size then some n.label else g.label? j := by
  unfold label?
  rw [node?_push]
  split <;> rfl

theorem visited?_push (g : Graph) (n : Node) (j : NodeId) :
    (g.push n).visited? j = if j = g.size then some n.visited else g.visited? j := by
  unfold visited?
  rw [node?_push]
  split <;> rfl

end Graph

end OpGraph
