import Mathlib.Data.List.Nodup
import Mathlib.Data.List.Perm.Basic
import OpGraph.Proofs.View

/-!
# The two records of an edge

An edge stands in the inputs of its upper node and in the parents of its lower
node. `Consistent` says that the two records agree, for every pair of nodes and
counting repetitions. It is what the requests on a graph rely on: on a
consistent graph, moving all uses of a node to another one and taking all its
inputs away cannot be refused, and both leave a consistent graph behind.

Proofs count in the form `Balanced`, which drops the ranges of the two numbers:
a number that names no node has empty lists, so a mention of it on one side has
nothing to match it on the other.

A graph may also come with broken edges. `excess` says by how much the two records
of an edge differ. A request that goes through changes both records alike, so it
changes no excess, broken edges or not; that balanced edges stay balanced is the
case in which there is none.
-/

namespace OpGraph.Graph

/-- Both records of every edge agree, and only existing nodes are mentioned. -/
structure Consistent (g : Graph) : Prop where
  inputs_lt : ∀ id c, c ∈ g.inputsOf id → c < g.size
  parents_lt : ∀ id p, p ∈ g.parentsOf id → p < g.size
  counts : ∀ p c, p < g.size → c < g.size → (g.parentsOf c).count p = (g.inputsOf p).count c

/-- Only numbers below the size have inputs and parents, so there is no need to
look any further. -/
theorem consistent_iff (g : Graph) : g.Consistent ↔
    (∀ id < g.size, ∀ c ∈ g.inputsOf id, c < g.size) ∧
      (∀ id < g.size, ∀ p ∈ g.parentsOf id, p < g.size) ∧
      ∀ p < g.size, ∀ c < g.size, (g.parentsOf c).count p = (g.inputsOf p).count c := by
  constructor
  · intro h
    exact ⟨fun id _ c => h.inputs_lt id c, fun id _ p => h.parents_lt id p,
      fun p hp c hc => h.counts p c hp hc⟩
  · rintro ⟨hinputs, hparents, hcounts⟩
    exact ⟨fun id c hc => hinputs id (lt_size_of_mem_inputsOf hc) c hc,
      fun id p hp => hparents id (lt_size_of_mem_parentsOf hp) p hp,
      fun p c hp hc => hcounts p hp c hc⟩

instance (g : Graph) : Decidable g.Consistent := decidable_of_iff _ (consistent_iff g).symm

/-- Every number lists every other one as often as it is held by it. -/
def Balanced (g : Graph) : Prop := ∀ p c, (g.parentsOf c).count p = (g.inputsOf p).count c

theorem Balanced.mem_parentsOf_iff {g : Graph} (hg : g.Balanced) {p c : NodeId} :
    p ∈ g.parentsOf c ↔ c ∈ g.inputsOf p := by
  rw [← List.count_pos_iff, ← List.count_pos_iff, hg p c]

theorem Balanced.input_lt {g : Graph} (hg : g.Balanced) {id c : NodeId}
    (h : c ∈ g.inputsOf id) : c < g.size :=
  lt_size_of_mem_parentsOf (hg.mem_parentsOf_iff.2 h)

theorem Balanced.parent_lt {g : Graph} (hg : g.Balanced) {id p : NodeId}
    (h : p ∈ g.parentsOf id) : p < g.size :=
  lt_size_of_mem_inputsOf (hg.mem_parentsOf_iff.1 h)

theorem Consistent.balanced {g : Graph} (hg : g.Consistent) : g.Balanced := by
  intro p c
  by_cases hp : p < g.size
  · by_cases hc : c < g.size
    · exact hg.counts p c hp hc
    · rw [List.count_eq_zero.2 fun h => hc (lt_size_of_mem_parentsOf h),
        List.count_eq_zero.2 fun h => hc (hg.inputs_lt p c h)]
  · rw [List.count_eq_zero.2 fun h => hp (hg.parents_lt c p h),
      List.count_eq_zero.2 fun h => hp (lt_size_of_mem_inputsOf h)]

theorem Balanced.consistent {g : Graph} (hg : g.Balanced) : g.Consistent :=
  ⟨fun _ _ h => hg.input_lt h, fun _ _ h => hg.parent_lt h, fun p c _ _ => hg p c⟩

/-- By how much more often `c` lists `p` as a parent than `p` holds `c`. -/
def excess (g : Graph) (p c : NodeId) : Int := (g.parentsOf c).count p - (g.inputsOf p).count c

theorem excess_of_views {g h : Graph} (hin : ∀ id, h.inputsOf id = g.inputsOf id)
    (hpar : ∀ id, h.parentsOf id = g.parentsOf id) (p c : NodeId) :
    h.excess p c = g.excess p c := by
  rw [excess, hin, hpar, excess]

theorem Balanced.excess_eq {g : Graph} (hg : g.Balanced) (p c : NodeId) : g.excess p c = 0 := by
  rw [excess, hg p c, Int.sub_self]

theorem Balanced.of_excess {g h : Graph} (hg : g.Balanced)
    (hsame : ∀ p c, h.excess p c = g.excess p c) : h.Balanced := by
  intro p c
  have hpc := hg p c
  have hexcess := hsame p c
  unfold excess at hexcess
  omega

theorem balanced_of_views {g h : Graph} (hin : ∀ id, h.inputsOf id = g.inputsOf id)
    (hpar : ∀ id, h.parentsOf id = g.parentsOf id) (hg : g.Balanced) : h.Balanced :=
  hg.of_excess (excess_of_views hin hpar)

theorem Balanced.mark {g : Graph} (hg : g.Balanced) (id : NodeId) (b : Bool) :
    (g.mark id b).Balanced :=
  balanced_of_views (inputsOf_mark g id b) (parentsOf_mark g id b) hg

/-! ## Looking up an edge -/

theorem inputAt_eq_ok {g : Graph} {id c : NodeId} {slot : Nat}
    (h : (g.inputsOf id)[slot]? = some c) : g.inputAt id slot = .ok c := by
  obtain ⟨n, hn⟩ := exists_node? (lt_size_of_mem_inputsOf (List.mem_of_getElem? h))
  rw [inputsOf_of_node? hn] at h
  simp [inputAt, node_eq_ok_iff.2 hn, h]

theorem inputAt_eq_ok_iff {g : Graph} {id c : NodeId} {slot : Nat} :
    g.inputAt id slot = .ok c ↔ (g.inputsOf id)[slot]? = some c := by
  refine ⟨fun h => ?_, inputAt_eq_ok⟩
  unfold inputAt at h
  split at h
  · cases h
  · next n hn =>
      rw [inputsOf_of_node? (node_eq_ok_iff.1 hn)]
      split at h
      · next hchild =>
          cases h
          exact hchild
      · cases h

theorem requireParent_eq_ok {g : Graph} {c p : NodeId} (h : p ∈ g.parentsOf c) :
    g.requireParent c p = .ok () := by
  obtain ⟨n, hn⟩ := exists_node? (lt_size_of_mem_parentsOf h)
  rw [parentsOf_of_node? hn] at h
  simp [requireParent, node_eq_ok_iff.2 hn, h]

theorem requireParent_eq_ok_iff {g : Graph} {c p : NodeId} :
    g.requireParent c p = .ok () ↔ p ∈ g.parentsOf c := by
  refine ⟨fun h => ?_, requireParent_eq_ok⟩
  unfold requireParent at h
  split at h
  · cases h
  · next n hn =>
      rw [parentsOf_of_node? (node_eq_ok_iff.1 hn)]
      split at h
      · assumption
      · cases h

/-! ## Adding a literal -/

/-- The node that a new literal is. -/
def literalNode (v : Value) : Node := ⟨.literal v, v.type, .scalar, [], [], false⟩

theorem addLiteral_apply (v : Value) (g : Graph) :
    addLiteral v g = .ok g.size (g.push (literalNode v)) := by
  unfold addLiteral
  rw [addNode_apply]
  rfl

theorem inputsOf_push_literal (g : Graph) (v : Value) (j : NodeId) :
    (g.push (literalNode v)).inputsOf j = g.inputsOf j := by
  rw [inputsOf_push]
  split
  · rename_i h
    rw [inputsOf, node?_eq_none (Nat.le_of_eq h.symm)]
    rfl
  · rfl

theorem parentsOf_push_literal (g : Graph) (v : Value) (j : NodeId) :
    (g.push (literalNode v)).parentsOf j = g.parentsOf j := by
  rw [parentsOf_push]
  split
  · rename_i h
    rw [parentsOf, node?_eq_none (Nat.le_of_eq h.symm)]
    rfl
  · rfl

theorem excess_push_literal (g : Graph) (v : Value) (p c : NodeId) :
    (g.push (literalNode v)).excess p c = g.excess p c :=
  excess_of_views (inputsOf_push_literal g v) (parentsOf_push_literal g v) p c

theorem Balanced.push_literal {g : Graph} (hg : g.Balanced) (v : Value) :
    (g.push (literalNode v)).Balanced :=
  hg.of_excess (excess_push_literal g v)

/-! ## Taking out one input -/

/-- The graph in which `parent` has lost the input `child` in a slot. -/
def unlinked (g : Graph) (parent : NodeId) (slot : Nat) (child : NodeId) : Graph :=
  (g.mapInputs parent (·.eraseIdx slot)).dropParent child parent

theorem removeInput_eq_ok {g : Graph} {parent child : NodeId} {slot : Nat}
    (hslot : (g.inputsOf parent)[slot]? = some child) (hpar : parent ∈ g.parentsOf child) :
    removeInput parent slot g = .ok child (g.unlinked parent slot child) := by
  rw [removeInput_apply, inputAt_eq_ok hslot]
  simp only []
  rw [requireParent_eq_ok hpar]
  rfl

@[simp] theorem size_unlinked (g : Graph) (parent : NodeId) (slot : Nat) (child : NodeId) :
    (g.unlinked parent slot child).size = g.size := by
  simp [unlinked, dropParent]

@[simp] theorem label?_unlinked (g : Graph) (parent : NodeId) (slot : Nat) (child j : NodeId) :
    (g.unlinked parent slot child).label? j = g.label? j := by
  simp [unlinked, dropParent]

@[simp] theorem visited?_unlinked (g : Graph) (parent : NodeId) (slot : Nat) (child j : NodeId) :
    (g.unlinked parent slot child).visited? j = g.visited? j := by
  simp [unlinked, dropParent]

theorem inputsOf_unlinked {g : Graph} {parent : NodeId} (hp : parent < g.size) (slot : Nat)
    (child j : NodeId) :
    (g.unlinked parent slot child).inputsOf j =
      if parent = j then (g.inputsOf j).eraseIdx slot else g.inputsOf j := by
  rw [unlinked, dropParent, inputsOf_mapParents, inputsOf_mapInputs hp]

theorem parentsOf_unlinked {g : Graph} {child : NodeId} (hc : child < g.size) (parent : NodeId)
    (slot : Nat) (j : NodeId) :
    (g.unlinked parent slot child).parentsOf j =
      if child = j then (g.parentsOf j).erase parent else g.parentsOf j := by
  rw [unlinked, dropParent, parentsOf_mapParents (by simpa using hc), parentsOf_mapInputs]

/-- What an element counts for in a list from which one slot is taken out. -/
theorem count_eraseIdx_add {xs : List NodeId} {i : Nat} {a : NodeId} (h : xs[i]? = some a)
    (b : NodeId) : (xs.eraseIdx i).count b + (if a = b then 1 else 0) = xs.count b := by
  obtain ⟨hi, rfl⟩ := List.getElem?_eq_some_iff.1 h
  have hperm := (List.getElem_cons_eraseIdx_perm hi).count_eq b
  rw [List.count_cons] at hperm
  simpa using hperm

theorem count_erase_add {xs : List NodeId} {a : NodeId} (h : a ∈ xs) (b : NodeId) :
    (xs.erase a).count b + (if a = b then 1 else 0) = xs.count b := by
  have hperm := (List.perm_cons_erase h).count_eq b
  rw [List.count_cons] at hperm
  simpa using hperm.symm

theorem excess_unlinked {g : Graph} {parent child : NodeId} {slot : Nat}
    (hslot : (g.inputsOf parent)[slot]? = some child) (hpar : parent ∈ g.parentsOf child)
    (p c : NodeId) : (g.unlinked parent slot child).excess p c = g.excess p c := by
  have hup := count_eraseIdx_add hslot c
  have hdown := count_erase_add hpar p
  rw [excess, parentsOf_unlinked (lt_size_of_mem_parentsOf hpar),
    inputsOf_unlinked (lt_size_of_mem_inputsOf (List.mem_of_getElem? hslot)), excess]
  by_cases hc : child = c <;> by_cases hp : parent = p
  · subst hc hp
    rw [if_pos rfl] at hup hdown ⊢
    rw [if_pos rfl]
    omega
  · subst hc
    rw [if_pos rfl, if_neg hp]
    rw [if_neg hp] at hdown
    omega
  · subst hp
    rw [if_neg hc, if_pos rfl]
    rw [if_neg hc] at hup
    omega
  · rw [if_neg hc, if_neg hp]

theorem Balanced.unlinked {g : Graph} (hg : g.Balanced) {parent child : NodeId} {slot : Nat}
    (hslot : (g.inputsOf parent)[slot]? = some child) :
    (g.unlinked parent slot child).Balanced :=
  hg.of_excess (excess_unlinked hslot (hg.mem_parentsOf_iff.2 (List.mem_of_getElem? hslot)))

/-- An input that was taken out was there, and it listed its parent. -/
theorem of_removeInput {g h : Graph} {parent child : NodeId} {slot : Nat}
    (hrun : removeInput parent slot g = .ok child h) :
    (g.inputsOf parent)[slot]? = some child ∧ parent ∈ g.parentsOf child ∧
      h = g.unlinked parent slot child := by
  rw [removeInput_apply] at hrun
  cases hslot : g.inputAt parent slot with
  | error e =>
      rw [hslot] at hrun
      cases hrun
  | ok c =>
      rw [hslot] at hrun
      simp only [] at hrun
      cases hpar : g.requireParent c parent with
      | error e =>
          rw [hpar] at hrun
          cases hrun
      | ok _ =>
          rw [hpar] at hrun
          cases hrun
          exact ⟨inputAt_eq_ok_iff.1 hslot, requireParent_eq_ok_iff.1 hpar, rfl⟩

/-! ## Taking out all inputs -/

/-- What the graph has become when a node has lost all its inputs: the node
holds nothing, and no other node holds anything else than before. -/
structure Detached (g : Graph) (id : NodeId) (h : Graph) : Prop where
  balanced : h.Balanced
  size : h.size = g.size
  label : ∀ j, h.label? j = g.label? j
  visited : ∀ j, h.visited? j = g.visited? j
  inputs_self : h.inputsOf id = []
  inputs_other : ∀ j, j ≠ id → h.inputsOf j = g.inputsOf j

/-- The same of any graph: no excess has changed. -/
structure Emptied (g : Graph) (id : NodeId) (h : Graph) : Prop where
  excess : ∀ p c, h.excess p c = g.excess p c
  size : h.size = g.size
  label : ∀ j, h.label? j = g.label? j
  visited : ∀ j, h.visited? j = g.visited? j
  inputs_self : h.inputsOf id = []
  inputs_other : ∀ j, j ≠ id → h.inputsOf j = g.inputsOf j

theorem Emptied.detached {g h : Graph} {id : NodeId} (he : g.Emptied id h) (hg : g.Balanced) :
    g.Detached id h :=
  ⟨hg.of_excess he.excess, he.size, he.label, he.visited, he.inputs_self, he.inputs_other⟩

theorem mem_parentsOf_of_excess {g : Graph} {p c : NodeId} (h : 0 ≤ g.excess p c)
    (hc : c ∈ g.inputsOf p) : p ∈ g.parentsOf c := by
  have hpos := List.count_pos_iff.2 hc
  unfold excess at h
  exact List.count_pos_iff.1 (by omega)

theorem length_inputsOf_unlinked {g : Graph} {id child : NodeId} {n : Nat}
    (hlen : (g.inputsOf id).length = n + 1) :
    ((g.unlinked id n child).inputsOf id).length = n := by
  have hid : id < g.size := lt_size_of_mem_inputsOf (List.getElem_mem (by omega : 0 < _))
  rw [inputsOf_unlinked hid, if_pos rfl, List.length_eraseIdx, if_pos (by omega)]
  omega

/-- The inputs go one at a time from the last slot on, so what is left is always
a list as long as the number of slots to go. -/
theorem emptied_of_detachBelow {id : NodeId} : ∀ {n : Nat} {taken all : List NodeId} {g h : Graph},
    (g.inputsOf id).length = n → detachBelow id n taken g = .ok all h → g.Emptied id h := by
  intro n
  induction n with
  | zero =>
      intro taken all g h hlen hrun
      cases hrun
      exact ⟨fun _ _ => rfl, rfl, fun _ => rfl, fun _ => rfl, List.length_eq_zero_iff.1 hlen,
        fun _ _ => rfl⟩
  | succ n ih =>
      intro taken all g h hlen hrun
      obtain ⟨child, g', hremove, hrest⟩ := bind_eq_ok hrun
      obtain ⟨hslot, hpar, rfl⟩ := of_removeInput hremove
      have he := ih (length_inputsOf_unlinked hlen) hrest
      refine ⟨fun p c => ?_, ?_, fun j => ?_, fun j => ?_, he.inputs_self, fun j hj => ?_⟩
      · rw [he.excess, excess_unlinked hslot hpar]
      · rw [he.size, size_unlinked]
      · rw [he.label, label?_unlinked]
      · rw [he.visited, visited?_unlinked]
      · rw [he.inputs_other j hj,
          inputsOf_unlinked (lt_size_of_mem_inputsOf (List.mem_of_getElem? hslot)),
          if_neg hj.symm]

/-- All inputs can be taken out if each of them lists the node often enough. -/
theorem exists_detachBelow {id : NodeId} : ∀ {n : Nat} (taken : List NodeId) {g : Graph},
    (g.inputsOf id).length = n → (∀ c, 0 ≤ g.excess id c) →
    ∃ all h, detachBelow id n taken g = .ok all h := by
  intro n
  induction n with
  | zero => exact fun taken {g} _ _ => ⟨taken, g, rfl⟩
  | succ n ih =>
      intro taken g hlen hexcess
      obtain ⟨child, hslot⟩ : ∃ child, (g.inputsOf id)[n]? = some child :=
        ⟨_, List.getElem?_eq_getElem (by omega)⟩
      have hpar := mem_parentsOf_of_excess (hexcess child) (List.mem_of_getElem? hslot)
      obtain ⟨all, h, hrest⟩ := ih (child :: taken) (length_inputsOf_unlinked hlen)
        fun c => (excess_unlinked hslot hpar id c).symm ▸ hexcess c
      exact ⟨all, h, (bind_ok (removeInput_eq_ok hslot hpar)).trans hrest⟩

theorem detachInputs_eq {g : Graph} {id : NodeId} (hid : id < g.size) :
    detachInputs id g = detachBelow id (g.inputsOf id).length [] g := by
  obtain ⟨n, hn⟩ := exists_node? hid
  rw [detachInputs, Edit.ask_bind, node_eq_ok_iff.2 hn, inputsOf_of_node? hn]

theorem emptied_of_detachInputs {g h : Graph} {id : NodeId} (hid : id < g.size)
    {all : List NodeId} (hrun : detachInputs id g = .ok all h) : g.Emptied id h :=
  emptied_of_detachBelow rfl (detachInputs_eq hid ▸ hrun)

theorem exists_detachInputs {g : Graph} {id : NodeId} (hid : id < g.size)
    (hexcess : ∀ c, 0 ≤ g.excess id c) : ∃ all h, detachInputs id g = .ok all h := by
  rw [detachInputs_eq hid]
  exact exists_detachBelow [] rfl hexcess

theorem detachInputs_detached {g : Graph} (hg : g.Balanced) {id : NodeId} (hid : id < g.size) :
    ∃ all h, detachInputs id g = .ok all h ∧ g.Detached id h := by
  obtain ⟨all, h, hrun⟩ := exists_detachInputs hid fun c => Int.le_of_eq (hg.excess_eq id c).symm
  exact ⟨all, h, hrun, (emptied_of_detachInputs hid hrun).detached hg⟩

/-! ## Replacing one input -/

/-- The graph in which a slot of `parent` holds `new` in place of `old`. -/
def rewired (g : Graph) (parent : NodeId) (slot : Nat) (old new : NodeId) : Graph :=
  ((g.dropParent old parent).mapInputs parent (·.set slot new)).addParent new parent

theorem replaceInput_eq_ok {g : Graph} {parent old new : NodeId} {slot : Nat}
    (hnew : new < g.size) (hslot : (g.inputsOf parent)[slot]? = some old)
    (hpar : parent ∈ g.parentsOf old) (hne : old ≠ new) :
    replaceInput parent slot new g = .ok old (g.rewired parent slot old new) := by
  obtain ⟨n, hn⟩ := node_of_lt hnew
  rw [replaceInput_apply, hn]
  simp only []
  rw [inputAt_eq_ok hslot]
  simp only []
  rw [requireParent_eq_ok hpar]
  simp only []
  rw [if_neg hne]
  rfl

@[simp] theorem size_rewired (g : Graph) (parent : NodeId) (slot : Nat) (old new : NodeId) :
    (g.rewired parent slot old new).size = g.size := by
  simp [rewired, dropParent, addParent]

@[simp] theorem label?_rewired (g : Graph) (parent : NodeId) (slot : Nat) (old new j : NodeId) :
    (g.rewired parent slot old new).label? j = g.label? j := by
  simp [rewired, dropParent, addParent]

@[simp] theorem visited?_rewired (g : Graph) (parent : NodeId) (slot : Nat) (old new j : NodeId) :
    (g.rewired parent slot old new).visited? j = g.visited? j := by
  simp [rewired, dropParent, addParent]

theorem inputsOf_rewired {g : Graph} {parent : NodeId} (hp : parent < g.size) (slot : Nat)
    (old new j : NodeId) :
    (g.rewired parent slot old new).inputsOf j =
      if parent = j then (g.inputsOf j).set slot new else g.inputsOf j := by
  rw [rewired, addParent, inputsOf_mapParents, inputsOf_mapInputs (by simpa [dropParent] using hp),
    dropParent, inputsOf_mapParents]

theorem parentsOf_rewired {g : Graph} {old new : NodeId} (ho : old < g.size) (hn : new < g.size)
    (hne : old ≠ new) (parent : NodeId) (slot : Nat) (j : NodeId) :
    (g.rewired parent slot old new).parentsOf j =
      if new = j then g.parentsOf j ++ [parent]
      else if old = j then (g.parentsOf j).erase parent
      else g.parentsOf j := by
  rw [rewired, addParent, parentsOf_mapParents (by simpa [dropParent] using hn),
    parentsOf_mapInputs, dropParent, parentsOf_mapParents ho]
  by_cases h : new = j
  · rw [if_pos h, if_pos h, if_neg (h ▸ hne)]
  · rw [if_neg h, if_neg h]

/-- What an element counts for in a list in which one slot is overwritten. -/
theorem count_set_add {xs : List NodeId} {i : Nat} {a : NodeId} (h : xs[i]? = some a)
    (new b : NodeId) :
    (xs.set i new).count b + (if a = b then 1 else 0) =
      xs.count b + (if new = b then 1 else 0) := by
  obtain ⟨hi, rfl⟩ := List.getElem?_eq_some_iff.1 h
  rw [List.count_set hi]
  by_cases hb : xs[i] = b
  · have hpos : 0 < xs.count b := List.count_pos_iff.2 (hb ▸ List.getElem_mem hi)
    simp only [hb, beq_self_eq_true, if_true, beq_iff_eq]
    omega
  · simp [hb]

theorem excess_rewired {g : Graph} {parent old new : NodeId} {slot : Nat} (hnew : new < g.size)
    (hslot : (g.inputsOf parent)[slot]? = some old) (hpar : parent ∈ g.parentsOf old)
    (hne : old ≠ new) (p c : NodeId) :
    (g.rewired parent slot old new).excess p c = g.excess p c := by
  have hup := count_set_add hslot new c
  have hdown := count_erase_add hpar p
  rw [excess, parentsOf_rewired (lt_size_of_mem_parentsOf hpar) hnew hne,
    inputsOf_rewired (lt_size_of_mem_inputsOf (List.mem_of_getElem? hslot)), excess]
  -- Only the pairs of `parent` with the two nodes that changed places count
  -- differently, and both sides change by the same one.
  by_cases hn : new = c
  · subst hn
    rw [if_pos rfl, List.count_append, List.count_singleton]
    rw [if_neg hne, if_pos rfl] at hup
    by_cases hp : parent = p
    · subst hp
      rw [if_pos rfl]
      simp only [beq_self_eq_true, if_true]
      omega
    · rw [if_neg hp]
      simp only [beq_iff_eq, hp, if_false]
      omega
  · rw [if_neg hn]
    by_cases ho : old = c
    · subst ho
      rw [if_pos rfl]
      rw [if_pos rfl, if_neg hn] at hup
      by_cases hp : parent = p
      · subst hp
        rw [if_pos rfl] at hdown ⊢
        omega
      · rw [if_neg hp]
        rw [if_neg hp] at hdown
        omega
    · rw [if_neg ho]
      rw [if_neg ho, if_neg hn] at hup
      by_cases hp : parent = p
      · subst hp
        rw [if_pos rfl]
        omega
      · rw [if_neg hp]

theorem Balanced.rewired {g : Graph} (hg : g.Balanced) {parent old new : NodeId} {slot : Nat}
    (hnew : new < g.size) (hslot : (g.inputsOf parent)[slot]? = some old) (hne : old ≠ new) :
    (g.rewired parent slot old new).Balanced :=
  hg.of_excess
    (excess_rewired hnew hslot (hg.mem_parentsOf_iff.2 (List.mem_of_getElem? hslot)) hne)

/-! ## Replacing many inputs -/

/-- What the graph has become when `new` was put into some slots that held
`old`. Each slot costs `old` one mention of the parent, and `new` gets it. -/
structure Moved (g : Graph) (old new : NodeId) (slots : List (NodeId × Nat)) (h : Graph) :
    Prop where
  balanced : g.Balanced → h.Balanced
  size : h.size = g.size
  label : ∀ j, h.label? j = g.label? j
  visited : ∀ j, h.visited? j = g.visited? j
  inputs : ∀ j k, (h.inputsOf j)[k]? = if (j, k) ∈ slots then some new else (g.inputsOf j)[k]?
  parents_old : h.parentsOf old = (g.parentsOf old).diff (slots.map Prod.fst)
  parents_new : h.parentsOf new = g.parentsOf new ++ slots.map Prod.fst
  parents_other : ∀ j, j ≠ old → j ≠ new → h.parentsOf j = g.parentsOf j

/-- The slots are rewired one after the other. None of them can be refused as
long as all slots hold `old` and `old` mentions every parent often enough, and
rewiring one slot keeps both true of the slots that are left. -/
theorem replaceAll_moved {old new : NodeId} (hne : old ≠ new) :
    ∀ (slots : List (NodeId × Nat)) (g : Graph), new < g.size → slots.Nodup →
    (∀ j k, (j, k) ∈ slots → (g.inputsOf j)[k]? = some old) →
    (∀ p, (slots.map Prod.fst).count p ≤ (g.parentsOf old).count p) →
    ∃ h, replaceAll new slots g = .ok () h ∧ g.Moved old new slots h ∧
      ∀ p c, h.excess p c = g.excess p c := by
  intro slots
  induction slots with
  | nil =>
      intro g _ _ _ _
      exact ⟨g, rfl, ⟨id, rfl, fun _ => rfl, fun _ => rfl, fun _ _ => by simp, by simp, by simp,
        fun _ _ _ => rfl⟩, fun _ _ => rfl⟩
  | cons s rest ih =>
      intro g hnew hnodup hheld hcount
      obtain ⟨p, k⟩ := s
      rw [List.nodup_cons] at hnodup
      have hslot : (g.inputsOf p)[k]? = some old := hheld p k (List.mem_cons_self ..)
      have hp : p < g.size := lt_size_of_mem_inputsOf (List.mem_of_getElem? hslot)
      have hpar : p ∈ g.parentsOf old := by
        have hle := hcount p
        rw [List.map_cons, List.count_cons_self] at hle
        exact List.count_pos_iff.1 (by omega)
      have hold : old < g.size := lt_size_of_mem_parentsOf hpar
      have hin := inputsOf_rewired hp k old new
      have hpars := parentsOf_rewired hold hnew hne p k
      -- Another slot of the same parent is another slot, so it still holds `old`.
      have hheld' : ∀ j i, (j, i) ∈ rest →
          ((g.rewired p k old new).inputsOf j)[i]? = some old := by
        intro j i hji
        rw [hin]
        split
        · rename_i hj
          subst hj
          have hik : k ≠ i := fun h => hnodup.1 (h ▸ hji)
          rw [List.getElem?_set_ne hik]
          exact hheld p i (List.mem_cons_of_mem _ hji)
        · exact hheld j i (List.mem_cons_of_mem _ hji)
      have hcount' : ∀ q, (rest.map Prod.fst).count q ≤
          ((g.rewired p k old new).parentsOf old).count q := by
        intro q
        have hle := hcount q
        have hadd := count_erase_add hpar q
        rw [List.map_cons, List.count_cons] at hle
        rw [hpars, if_neg hne.symm, if_pos rfl]
        simp only [beq_iff_eq] at hle
        omega
      obtain ⟨h, hrun, hm, hexcess⟩ := ih _ (by simpa using hnew) hnodup.2 hheld' hcount'
      refine ⟨h, ?_, ⟨?_, ?_, ?_, ?_, ?_, ?_, ?_, ?_⟩, fun q c => ?_⟩
      · rw [← hrun]
        exact bind_ok (replaceInput_eq_ok hnew hslot hpar hne)
      · intro hg
        exact hm.balanced (hg.rewired hnew hslot hne)
      · rw [hm.size, size_rewired]
      · intro j
        rw [hm.label, label?_rewired]
      · intro j
        rw [hm.visited, visited?_rewired]
      · intro j i
        rw [hm.inputs, hin]
        by_cases hmem : (j, i) ∈ rest
        · rw [if_pos hmem, if_pos (List.mem_cons_of_mem _ hmem)]
        · rw [if_neg hmem]
          by_cases hj : p = j
          · subst hj
            rw [if_pos rfl, List.getElem?_set]
            obtain ⟨hk, -⟩ := List.getElem?_eq_some_iff.1 hslot
            by_cases hi : k = i
            · subst hi
              simp [hk]
            · simp [hi, hmem, Ne.symm hi]
          · simp [hj, hmem, Ne.symm hj]
      · rw [hm.parents_old, hpars, if_neg hne.symm, if_pos rfl, List.map_cons, List.diff_cons]
      · rw [hm.parents_new, hpars, if_pos rfl, List.map_cons, List.append_assoc]
        rfl
      · intro j ho hn
        rw [hm.parents_other j ho hn, hpars, if_neg hn.symm, if_neg ho.symm]
      · rw [hexcess, excess_rewired hnew hslot hpar hne]

/-! ## Replacing all uses of a node -/

theorem mem_slotsOf {n : Node} {c : NodeId} {k : Nat} :
    k ∈ n.slotsOf c ↔ n.inputs[k]? = some c := by
  simp only [Node.slotsOf, List.mem_map, List.mem_filter, beq_iff_eq, Prod.exists,
    List.mem_zipIdx_iff_getElem?]
  constructor
  · rintro ⟨a, i, ⟨hget, rfl⟩, rfl⟩
    exact hget
  · intro hget
    exact ⟨c, k, ⟨hget, rfl⟩, rfl⟩

theorem nodup_slotsOf (n : Node) (c : NodeId) : (n.slotsOf c).Nodup := by
  unfold Node.slotsOf
  have hsub : ((n.inputs.zipIdx.filter fun p => p.1 == c).map Prod.snd).Sublist
      (n.inputs.zipIdx.map Prod.snd) := List.filter_sublist.map _
  refine hsub.nodup ?_
  rw [List.zipIdx_map_snd]
  exact List.nodup_range'

theorem length_slotsOf (n : Node) (c : NodeId) : (n.slotsOf c).length = n.inputs.count c := by
  unfold Node.slotsOf
  rw [List.length_map, ← List.countP_eq_length_filter, List.count]
  conv => rhs; rw [← List.zipIdx_map_fst 0 n.inputs, List.countP_map]
  rfl

/-- The slots in which one node holds another one. -/
def slotsIn (g : Graph) (parent child : NodeId) : List Nat :=
  match g.node? parent with
  | some n => n.slotsOf child
  | none => []

theorem mem_slotsIn {g : Graph} {p c : NodeId} {k : Nat} :
    k ∈ g.slotsIn p c ↔ (g.inputsOf p)[k]? = some c := by
  unfold slotsIn inputsOf
  cases g.node? p with
  | none => simp
  | some n => exact mem_slotsOf

theorem nodup_slotsIn (g : Graph) (p c : NodeId) : (g.slotsIn p c).Nodup := by
  unfold slotsIn
  cases g.node? p with
  | none => exact List.nodup_nil
  | some n => exact nodup_slotsOf n c

theorem length_slotsIn (g : Graph) (p c : NodeId) :
    (g.slotsIn p c).length = (g.inputsOf p).count c := by
  unfold slotsIn inputsOf
  cases g.node? p with
  | none => simp
  | some n => exact length_slotsOf n c

/-- All slots that hold a node, parent by parent. -/
def holders (g : Graph) (id : NodeId) : List (NodeId × Nat) :=
  (g.parentsOf id).eraseDups.flatMap fun p => (g.slotsIn p id).map fun k => (p, k)

theorem mem_holders {g : Graph} {id j : NodeId} {k : Nat} :
    (j, k) ∈ g.holders id ↔ j ∈ g.parentsOf id ∧ (g.inputsOf j)[k]? = some id := by
  simp only [holders, List.mem_flatMap, List.mem_eraseDups, List.mem_map, Prod.mk.injEq,
    mem_slotsIn]
  constructor
  · rintro ⟨p, hp, i, hi, rfl, rfl⟩
    exact ⟨hp, hi⟩
  · rintro ⟨hj, hk⟩
    exact ⟨j, hj, k, hk, rfl, rfl⟩

theorem nodup_eraseDups (xs : List NodeId) : xs.eraseDups.Nodup := by
  -- The tail is filtered before it is looked at, so the induction is on length.
  induction hn : xs.length using Nat.strongRecOn generalizing xs with
  | ind n ih =>
      cases xs with
      | nil => simp
      | cons x rest =>
          rw [List.eraseDups_cons, List.nodup_cons, List.mem_eraseDups, List.mem_filter]
          have hlt : (rest.filter fun y => !y == x).length < n := by
            rw [← hn, List.length_cons]
            exact Nat.lt_succ_of_le (List.length_filter_le _ _)
          exact ⟨by simp, ih _ hlt _ rfl⟩

theorem nodup_holders (g : Graph) (id : NodeId) : (g.holders id).Nodup := by
  refine List.nodup_flatMap.2 ⟨fun p _ => ?_, ?_⟩
  · exact (nodup_slotsIn g p id).map fun a b h => (Prod.mk.inj h).2
  · refine (nodup_eraseDups _).imp fun {p q} hpq => ?_
    intro s hs ht
    obtain ⟨_, -, rfl⟩ := List.mem_map.1 hs
    obtain ⟨_, -, h⟩ := List.mem_map.1 ht
    exact hpq (Prod.mk.inj h).1.symm

theorem count_flatMap_slots (g : Graph) (id p : NodeId) : ∀ ps : List NodeId, ps.Nodup →
    ((ps.flatMap fun q => (g.slotsIn q id).map fun k => (q, k)).map Prod.fst).count p =
      if p ∈ ps then (g.inputsOf p).count id else 0 := by
  intro ps
  induction ps with
  | nil => intro _; simp
  | cons q rest ih =>
      intro hnodup
      rw [List.nodup_cons] at hnodup
      rw [List.flatMap_cons, List.map_append, List.count_append, ih hnodup.2, List.map_map,
        show (Prod.fst ∘ fun k => (q, k) : Nat → NodeId) = fun _ => q from rfl,
        List.map_const', List.count_replicate, length_slotsIn]
      by_cases hq : p = q
      · subst hq
        simp [hnodup.1]
      · simp [hq, Ne.symm hq]

/-- Every parent that a node lists holds it as often as it is listed. -/
def UsesAgree (g : Graph) (id : NodeId) : Prop :=
  ∀ p ∈ g.parentsOf id, (g.inputsOf p).count id = (g.parentsOf id).count p

theorem usesAgree_of_views {g h : Graph} (hin : ∀ id, h.inputsOf id = g.inputsOf id)
    (hpar : ∀ id, h.parentsOf id = g.parentsOf id) {id : NodeId} :
    h.UsesAgree id ↔ g.UsesAgree id := by
  simp only [UsesAgree, hin, hpar]

theorem usesAgree_push_literal {g : Graph} {v : Value} {id : NodeId} :
    (g.push (literalNode v)).UsesAgree id ↔ g.UsesAgree id :=
  usesAgree_of_views (inputsOf_push_literal g v) (parentsOf_push_literal g v)

theorem count_holders {g : Graph} {id : NodeId} (h : g.UsesAgree id) (p : NodeId) :
    ((g.holders id).map Prod.fst).count p = (g.parentsOf id).count p := by
  rw [holders, count_flatMap_slots g id p _ (nodup_eraseDups _)]
  split
  · rename_i hp
    exact h p (List.mem_eraseDups.1 hp)
  · rename_i hp
    exact (List.count_eq_zero.2 (mt List.mem_eraseDups.2 hp)).symm

theorem usesBy_eq_ok {g : Graph} {id p : NodeId} {parents : List NodeId} (hp : p ∈ parents)
    (hcount : (g.inputsOf p).count id = parents.count p) :
    g.usesBy id parents p = .ok ((g.slotsIn p id).map fun k => (p, k)) := by
  have hpos : 0 < (g.inputsOf p).count id := hcount ▸ List.count_pos_iff.2 hp
  obtain ⟨n, hn⟩ := exists_node? (lt_size_of_mem_inputsOf (List.count_pos_iff.1 hpos))
  have hslots : g.slotsIn p id = n.slotsOf id := by simp [slotsIn, hn]
  have hlen : (n.slotsOf id).length = parents.count p := by
    rw [← hslots, length_slotsIn, hcount]
  unfold usesBy
  rw [node_eq_ok_iff.2 hn, hslots]
  simp only []
  rw [if_neg, if_neg]
  · simpa using hlen
  · intro hempty
    rw [List.isEmpty_iff.1 hempty, List.length_nil] at hlen
    omega

theorem count_of_usesBy {g : Graph} {id p : NodeId} {parents : List NodeId}
    {slots : List (NodeId × Nat)} (h : g.usesBy id parents p = .ok slots) :
    (g.inputsOf p).count id = parents.count p := by
  unfold usesBy at h
  split at h
  · cases h
  · next n hn =>
      rw [inputsOf_of_node? (node_eq_ok_iff.1 hn), ← length_slotsOf]
      simp only [] at h
      split at h
      · cases h
      · split at h
        · cases h
        · next hcount => exact Decidable.not_not.1 hcount

theorem mapM_eq_ok {α β ε : Type} {f : α → Except ε β} {k : α → β} :
    ∀ {xs : List α}, (∀ x ∈ xs, f x = .ok (k x)) → xs.mapM f = .ok (xs.map k) := by
  intro xs
  induction xs with
  | nil => intro _; rfl
  | cons x rest ih =>
      intro h
      rw [List.mapM_cons, h x (List.mem_cons_self ..),
        ih fun y hy => h y (List.mem_cons_of_mem _ hy)]
      rfl

theorem of_mapM_eq_ok {α β ε : Type} {f : α → Except ε β} : ∀ {xs : List α} {ys : List β},
    xs.mapM f = .ok ys → ∀ x ∈ xs, ∃ y, f x = .ok y := by
  intro xs
  induction xs with
  | nil => exact fun _ x hx => absurd hx List.not_mem_nil
  | cons x rest ih =>
      intro ys h z hz
      rw [List.mapM_cons] at h
      cases hx : f x with
      | error e =>
          rw [hx] at h
          cases h
      | ok y =>
          rw [hx] at h
          cases hrest : rest.mapM f with
          | error e =>
              rw [hrest] at h
              cases h
          | ok ys' =>
              rcases List.mem_cons.1 hz with rfl | hz
              · exact ⟨y, hx⟩
              · exact ih hrest z hz

theorem uses_eq_ok {g : Graph} {id : NodeId} (hid : id < g.size) (h : g.UsesAgree id) :
    g.uses id = .ok (g.holders id) := by
  obtain ⟨n, hn⟩ := exists_node? hid
  unfold uses
  rw [node_eq_ok_iff.2 hn]
  simp only []
  rw [UsesAgree, parentsOf_of_node? hn] at h
  rw [mapM_eq_ok fun p hp => usesBy_eq_ok (List.mem_eraseDups.1 hp) (h p (List.mem_eraseDups.1 hp)),
    holders, parentsOf_of_node? hn]
  rfl

/-- The uses of a node can be listed only if they agree. -/
theorem usesAgree_of_uses {g : Graph} {id : NodeId} {slots : List (NodeId × Nat)}
    (h : g.uses id = .ok slots) : id < g.size ∧ g.UsesAgree id := by
  unfold uses at h
  split at h
  · cases h
  · next n hn =>
      have hn := node_eq_ok_iff.1 hn
      refine ⟨lt_size_of_node? hn, fun p hp => ?_⟩
      rw [parentsOf_of_node? hn] at hp ⊢
      cases hfound : n.parents.eraseDups.mapM (g.usesBy id n.parents) with
      | error e =>
          rw [hfound] at h
          cases h
      | ok found =>
          obtain ⟨slots, hslots⟩ := of_mapM_eq_ok hfound p (List.mem_eraseDups.2 hp)
          exact count_of_usesBy hslots

/-- What becomes of a graph when all uses of a node go to another one. The slots
are found from the parents that the node lists. -/
theorem replaceAll_holders {g : Graph} {old new : NodeId} (hnew : new < g.size)
    (hne : old ≠ new) (hagree : g.UsesAgree old) :
    ∃ h, replaceAll new (g.holders old) g = .ok () h ∧ g.Moved old new (g.holders old) h ∧
      ∀ p c, h.excess p c = g.excess p c :=
  replaceAll_moved hne (g.holders old) g hnew (nodup_holders g old)
    (fun _ _ hjk => (mem_holders.1 hjk).2) fun p => Nat.le_of_eq (count_holders hagree p)

theorem replaceUses_moved {g : Graph} {old new : NodeId} (hold : old < g.size)
    (hnew : new < g.size) (hne : old ≠ new) (hagree : g.UsesAgree old) :
    ∃ h, replaceUses old new g = .ok (g.holders old).length h ∧
      g.Moved old new (g.holders old) h ∧ ∀ p c, h.excess p c = g.excess p c := by
  obtain ⟨h, hrun, hm⟩ := replaceAll_holders hnew hne hagree
  refine ⟨h, ?_, hm⟩
  obtain ⟨n, hn⟩ := node_of_lt hnew
  unfold replaceUses
  rw [Edit.ask_bind, hn]
  simp only []
  rw [Edit.ask_bind, uses_eq_ok hold hagree]
  simp only []
  rw [if_neg hne]
  exact bind_ok hrun

theorem usesAgree_of_replaceUses {g h : Graph} {old new : NodeId} {n : Nat}
    (hrun : replaceUses old new g = .ok n h) : g.UsesAgree old := by
  rw [replaceUses, Edit.ask_bind] at hrun
  cases hnode : g.node new with
  | error e =>
      rw [hnode] at hrun
      cases hrun
  | ok m =>
      rw [hnode] at hrun
      simp only [] at hrun
      rw [Edit.ask_bind] at hrun
      cases huses : g.uses old with
      | error e =>
          rw [huses] at hrun
          cases hrun
      | ok slots => exact (usesAgree_of_uses huses).2

theorem Moved.inputsOf_holders {g h : Graph} {old new : NodeId}
    (hm : g.Moved old new (g.holders old) h) (j : NodeId) :
    h.inputsOf j =
      (g.inputsOf j).map fun c => if c = old ∧ j ∈ g.parentsOf old then new else c := by
  refine List.ext_getElem? fun k => ?_
  rw [hm.inputs, List.getElem?_map]
  by_cases hk : (g.inputsOf j)[k]? = some old
  · rw [hk]
    by_cases hj : j ∈ g.parentsOf old
    · simp [mem_holders.2 ⟨hj, hk⟩, hj]
    · simp [mt mem_holders.1 (fun h => hj h.1), hj]
  · rw [if_neg fun hmem => hk (mem_holders.1 hmem).2]
    cases hc : (g.inputsOf j)[k]? with
    | none => rfl
    | some c =>
        have hco : c ≠ old := fun h => hk (h ▸ hc)
        simp [hco]

/-- What the graph has become when all uses of a node went to another one. -/
structure Substituted (g : Graph) (old new : NodeId) (h : Graph) : Prop where
  balanced : h.Balanced
  size : h.size = g.size
  label : ∀ j, h.label? j = g.label? j
  visited : ∀ j, h.visited? j = g.visited? j
  inputs : ∀ j, h.inputsOf j = (g.inputsOf j).map fun c => if c = old then new else c

theorem replaceUses_substituted {g : Graph} (hg : g.Balanced) {old new : NodeId}
    (hold : old < g.size) (hnew : new < g.size) (hne : old ≠ new) :
    ∃ n h, replaceUses old new g = .ok n h ∧ g.Substituted old new h := by
  obtain ⟨h, hrun, hm, -⟩ := replaceUses_moved hold hnew hne fun p _ => (hg p old).symm
  refine ⟨_, h, hrun, hm.balanced hg, hm.size, hm.label, hm.visited, fun j => ?_⟩
  rw [hm.inputsOf_holders]
  refine List.map_congr_left fun c hc => ?_
  -- On balanced edges every slot that holds `old` is found from its parents.
  have hiff : c = old ∧ j ∈ g.parentsOf old ↔ c = old :=
    and_iff_left_of_imp fun h => hg.mem_parentsOf_iff.2 (h ▸ hc)
  simp only [hiff]

end OpGraph.Graph
