import Mathlib.Data.List.Count
import OpGraph.Proofs.Edges

/-!
# Edits are all or nothing

Adding, removing and replacing an input are single steps: all checks come first, and
what follows them cannot be refused. Replacing all uses of a node is a loop of such
steps, each of which makes its checks again, on lists that the steps before it have
changed. It is all or nothing as well, on any graph, with broken edges, numbers that
name no node and cycles (`Graph.edits_all_or_nothing`). What it has found out before
the loop is that every parent holds the node as often as the node lists it
(`Graph.UsesAgree`), and this is enough: a step overwrites one of the slots that were
found and strikes one mention of its parent, so every slot that is left still holds the
node, and the node still mentions its parent. Nothing is needed of the other edges of the
graph. In the end every mention is gone.

On a consistent graph the parents that a node lists are all the nodes that hold it, so
all its uses have moved, and nothing else has changed (`Graph.replaceUses_moves_all`).
This includes the cases in which the old node and the new one hold each other, or
themselves.
-/

namespace OpGraph

namespace Edit

variable {α β : Type} {g : Graph}

/-- If the edit is refused, the graph stays as it is. -/
def AtomicAt (edit : Edit α) (g : Graph) : Prop := ∀ e h, edit g = .error e h → h = g

theorem atomicAt_of_ok {edit : Edit α} {a : α} {h : Graph} (hrun : edit g = .ok a h) :
    edit.AtomicAt g := by
  intro e k herror
  rw [hrun] at herror
  cases herror

theorem atomicAt_throw (e : GraphError) : (throw e : Edit α).AtomicAt g := by
  intro e' h hrun
  cases hrun
  rfl

/-- A check comes first. -/
theorem atomicAt_ask_bind {question : Graph → Except GraphError α} {next : α → Edit β}
    (hnext : ∀ a, question g = .ok a → (next a).AtomicAt g) :
    (ask question >>= next).AtomicAt g := by
  intro e h hrun
  rw [ask_bind] at hrun
  cases ha : question g with
  | ok a =>
      rw [ha] at hrun
      exact hnext a ha e h hrun
  | error e' =>
      rw [ha] at hrun
      cases hrun
      rfl

end Edit

namespace Graph

variable {g h : Graph} {old new : NodeId} {slots : List (NodeId × Nat)}

/-! ## Single edges -/

theorem addInput_atomicAt (parent child : NodeId) (slot : Nat) :
    (addInput parent child slot).AtomicAt g := by
  refine Edit.atomicAt_ask_bind fun _ _ => Edit.atomicAt_ask_bind fun n _ => ?_
  split
  · exact Edit.atomicAt_throw _
  · exact Edit.atomicAt_of_ok rfl

theorem removeInput_atomicAt (parent : NodeId) (slot : Nat) :
    (removeInput parent slot).AtomicAt g := by
  refine Edit.atomicAt_ask_bind fun child _ => Edit.atomicAt_ask_bind fun _ _ => ?_
  exact Edit.atomicAt_of_ok rfl

theorem replaceInput_atomicAt (parent : NodeId) (slot : Nat) (new : NodeId) :
    (replaceInput parent slot new).AtomicAt g := by
  refine Edit.atomicAt_ask_bind fun _ _ => Edit.atomicAt_ask_bind fun old _ =>
    Edit.atomicAt_ask_bind fun _ _ => ?_
  split
  · exact Edit.atomicAt_of_ok rfl
  · exact Edit.atomicAt_of_ok rfl

/-! ## All uses of a node -/

/-- The uses that are found are the slots of the parents that the node lists. -/
theorem uses_eq_ok_iff : g.uses old = .ok slots ↔
    old < g.size ∧ g.UsesAgree old ∧ slots = g.holders old := by
  constructor
  · intro huses
    obtain ⟨hold, hagree⟩ := usesAgree_of_uses huses
    rw [uses_eq_ok hold hagree] at huses
    cases huses
    exact ⟨hold, hagree, rfl⟩
  · rintro ⟨hold, hagree, rfl⟩
    exact uses_eq_ok hold hagree

theorem replaceUses_atomicAt (old new : NodeId) : (replaceUses old new).AtomicAt g := by
  refine Edit.atomicAt_ask_bind fun n hn => Edit.atomicAt_ask_bind fun slots huses => ?_
  obtain ⟨-, hagree, rfl⟩ := uses_eq_ok_iff.1 huses
  split
  · exact Edit.atomicAt_of_ok rfl
  · next hne =>
      obtain ⟨h, hrun, -⟩ :=
        replaceAll_holders (lt_size_of_node? (node_eq_ok_iff.1 hn)) hne hagree
      exact Edit.atomicAt_of_ok (bind_ok hrun)

/-- Whatever slots have been rewired, the next one still holds the node, and the node
still lists its parent. -/
theorem replaceInput_of_uses (hnew : new < g.size) (hne : old ≠ new)
    (huses : g.uses old = .ok slots) {before after : List (NodeId × Nat)} {p : NodeId} {k : Nat}
    (hsplit : slots = before ++ (p, k) :: after) :
    ∃ mid h, replaceAll new before g = .ok () mid ∧ replaceInput p k new mid = .ok old h := by
  obtain ⟨-, hagree, rfl⟩ := uses_eq_ok_iff.1 huses
  have hnodup := nodup_holders g old
  have hheld : ∀ j i, (j, i) ∈ g.holders old → (g.inputsOf j)[i]? = some old :=
    fun j i hji => (mem_holders.1 hji).2
  have hcount := count_holders hagree
  rw [hsplit] at hnodup hheld hcount
  have hcount : ∀ q, (before.map Prod.fst).count q + (if p = q then 1 else 0) ≤
      (g.parentsOf old).count q := by
    intro q
    rw [← hcount q, List.map_append, List.count_append, List.map_cons, List.count_cons]
    simp only [beq_iff_eq]
    omega
  obtain ⟨hbefore, -, hdisjoint⟩ := List.nodup_append.1 hnodup
  have hfresh : (p, k) ∉ before := fun hmem => hdisjoint _ hmem _ (.head _) rfl
  obtain ⟨mid, hrun, hm, -⟩ := replaceAll_moved hne before g hnew hbefore
    (fun j i hji => hheld j i (List.mem_append_left _ hji)) fun q => by have := hcount q; omega
  have hslot : (mid.inputsOf p)[k]? = some old := by
    rw [hm.inputs, if_neg hfresh]
    exact hheld p k (List.mem_append_right _ (.head _))
  have hlisted : p ∈ mid.parentsOf old := by
    rw [hm.parents_old, ← List.count_pos_iff, List.count_diff]
    have hle := hcount p
    rw [if_pos rfl] at hle
    omega
  exact ⟨mid, _, hrun, replaceInput_eq_ok (hm.size ▸ hnew) hslot hlisted hne⟩

theorem Moved.parentsOf_old (hm : g.Moved old new (g.holders old) h) (hagree : g.UsesAgree old) :
    h.parentsOf old = [] := by
  rw [hm.parents_old, List.eq_nil_iff_forall_not_mem]
  intro p hp
  rw [← List.count_pos_iff, List.count_diff, count_holders hagree] at hp
  omega

/-- An edit of edges that is refused leaves the graph as it is, whatever the graph is like.
Replacing all uses of a node is refused by its checks or not at all: if the new node is
there and the uses can be listed, every slot can be rewired when its turn comes, and
the node lists no parent in the end. -/
theorem edits_all_or_nothing (g : Graph) :
    (∀ parent child slot, (addInput parent child slot).AtomicAt g) ∧
      (∀ parent slot, (removeInput parent slot).AtomicAt g) ∧
      (∀ parent slot new, (replaceInput parent slot new).AtomicAt g) ∧
      (∀ old new, (replaceUses old new).AtomicAt g) ∧
      ∀ old new slots, new < g.size → g.uses old = .ok slots → old ≠ new →
        (∀ before p k after, slots = before ++ (p, k) :: after →
          ∃ mid h, replaceAll new before g = .ok () mid ∧
            replaceInput p k new mid = .ok old h) ∧
        ∃ h, replaceUses old new g = .ok slots.length h ∧ h.parentsOf old = [] := by
  refine ⟨addInput_atomicAt, removeInput_atomicAt, replaceInput_atomicAt, replaceUses_atomicAt,
    fun old new slots hnew huses hne => ?_⟩
  refine ⟨fun before p k after => replaceInput_of_uses hnew hne huses, ?_⟩
  obtain ⟨hold, hagree, rfl⟩ := uses_eq_ok_iff.1 huses
  obtain ⟨h, hrun, hm, -⟩ := replaceUses_moved hold hnew hne hagree
  exact ⟨h, hrun, hm.parentsOf_old hagree⟩

/-- A literal that lists only one of the two nodes that hold it, and another one that
lists a number without a node. -/
def halfListed : Graph :=
  ⟨#[⟨.literal (.int 1), .int, .scalar, [], [1, 1], false⟩,
    ⟨.binary .plus, .int, .scalar, [0, 0], [], false⟩,
    ⟨.unary .abs, .int, .scalar, [0], [], false⟩,
    ⟨.literal (.int 2), .int, .scalar, [], [9], false⟩]⟩

/-- The listed uses of the first literal can be moved to the second one, both of them, and
none of the second one can be moved. -/
theorem edits_all_or_nothing_halfListed :
    ¬ halfListed.Consistent ∧ halfListed.uses 0 = .ok [(1, 0), (1, 1)] ∧
      (∃ mid h, replaceAll 3 [(1, 0)] halfListed = .ok () mid ∧
        replaceInput 1 1 3 mid = .ok 0 h) ∧
      (∃ h, replaceUses 0 3 halfListed = .ok 2 h ∧ h.parentsOf 0 = []) ∧
      ∃ h, replaceUses 3 0 halfListed = .error (.unknownNode 9) h ∧ h = halfListed := by
  have huses : halfListed.uses 0 = .ok [(1, 0), (1, 1)] := by decide +kernel
  obtain ⟨-, -, -, hatomic, hmoves⟩ := edits_all_or_nothing halfListed
  obtain ⟨hturn, hall⟩ := hmoves 0 3 _ (by decide) huses (by decide)
  exact ⟨by decide, huses, hturn [(1, 0)] 1 1 [] rfl, hall, _, rfl, hatomic 3 0 _ _ rfl⟩

/-! ## What moves -/

/-- How many slots of all nodes hold a node. -/
def slotCount (g : Graph) (id : NodeId) : Nat := (g.nodes.toList.flatMap Node.inputs).count id

/-- The parents that a node lists, in the order in which it first lists them, and each as
often as it is listed. -/
def groupedParents (g : Graph) (id : NodeId) : List NodeId :=
  (g.parentsOf id).eraseDups.flatMap fun p => List.replicate ((g.parentsOf id).count p) p

theorem map_fst_holders (hagree : g.UsesAgree old) :
    (g.holders old).map Prod.fst = g.groupedParents old := by
  rw [holders, groupedParents, List.map_flatMap]
  refine List.flatMap_congr fun p hp => ?_
  rw [List.map_map, show (Prod.fst ∘ fun k => (p, k) : Nat → NodeId) = fun _ => p from rfl,
    List.map_const', length_slotsIn, hagree p (List.mem_eraseDups.1 hp)]

/-- All slots of all nodes, in the order of their numbers. -/
theorem flatMap_inputs_nodes (g : Graph) :
    g.nodes.toList.flatMap Node.inputs = (List.range g.size).flatMap g.inputsOf := by
  have hmap : g.nodes.toList.map Node.inputs = (List.range g.size).map g.inputsOf := by
    refine List.ext_getElem? fun i => ?_
    rw [List.getElem?_map, List.getElem?_map, Array.getElem?_toList]
    show (g.node? i).map Node.inputs = _
    rcases Nat.lt_or_ge i g.size with hi | hge
    · obtain ⟨n, hn⟩ := exists_node? hi
      rw [List.getElem?_range hi, Option.map_some, inputsOf_of_node? hn, hn]
      rfl
    · rw [List.getElem?_eq_none (by simpa using hge), node?_eq_none hge]
      rfl
  rw [List.flatMap_def, List.flatMap_def, hmap]

/-- The uses that are found are all there are. -/
theorem Balanced.length_holders (hg : g.Balanced) (id : NodeId) :
    (g.holders id).length = g.slotCount id := by
  have hall : ((List.range g.size).flatMap fun p => (g.slotsIn p id).map fun k => (p, k)).length =
      g.slotCount id := by
    rw [slotCount, flatMap_inputs_nodes, List.count_flatMap, List.length_flatMap]
    simp only [List.length_map, length_slotsIn, Function.comp_def]
  rw [← hall, ← List.length_map (f := Prod.fst), ← List.length_map (f := Prod.fst)]
  refine (List.perm_iff_count.2 fun p => ?_).length_eq
  rw [count_holders fun q _ => (hg q id).symm, count_flatMap_slots g id p _ List.nodup_range, hg p id]
  split
  · rfl
  · next hp =>
      exact List.count_eq_zero.2 fun hmem => hp (List.mem_range.2 (lt_size_of_mem_inputsOf hmem))

/-- On a consistent graph all uses of a node can be moved to another one. The answer is
their number. Every slot that held the old node holds the new one, the mentions have
gone over from the one to the other, and the rest of the graph is as before. -/
theorem replaceUses_moves_all (hg : g.Consistent) (old new : NodeId) (hold : old < g.size)
    (hnew : new < g.size) (hne : old ≠ new) :
    ∃ h, replaceUses old new g = .ok (g.slotCount old) h ∧ h.size = g.size ∧
      (∀ id n, g.node? id = some n → h.node? id = some
        { n with
          inputs := n.inputs.map fun c => if c = old then new else c
          parents := if id = old then [] else
            if id = new then n.parents ++ g.groupedParents old else n.parents }) ∧
      h.Consistent := by
  have hbal := hg.balanced
  have hagree : g.UsesAgree old := fun p _ => (hbal p old).symm
  obtain ⟨h, hrun, hm, -⟩ := replaceUses_moved hold hnew hne hagree
  have hsub : g.Substituted old new h := by
    obtain ⟨n, h', hrun', hsub⟩ := replaceUses_substituted hbal hold hnew hne
    rw [hrun] at hrun'
    cases hrun'
    exact hsub
  refine ⟨h, ?_, hm.size, fun id n hn => ?_, hsub.balanced.consistent⟩
  · rw [hrun, hbal.length_holders]
  · refine node?_of_views ?_ ?_ ?_ ?_
    · rw [hm.label, label?_of_node? hn]
      rfl
    · rw [hm.visited, visited?_of_node? hn]
    · rw [hsub.inputs, inputsOf_of_node? hn]
    · by_cases hid : id = old
      · rw [hid, hm.parentsOf_old hagree]
        exact (if_pos rfl).symm
      · by_cases hid' : id = new
        · rw [if_neg hid, if_pos hid', hid', hm.parents_new, map_fst_holders hagree,
            parentsOf_of_node? (hid' ▸ hn)]
        · rw [if_neg hid, if_neg hid', hm.parents_other id hid hid', parentsOf_of_node? hn]

/-- A node that holds itself and another one, which holds it in turn, below two more. -/
def heldAllRound : Graph :=
  ⟨#[⟨.binary .plus, .int, .scalar, [0, 1], [2, 0, 2, 1, 3], false⟩,
    ⟨.binary .minus, .int, .scalar, [0, 2], [0], true⟩,
    ⟨.binary .times, .int, .scalar, [0, 0], [1, 3], false⟩,
    ⟨.binary .plus, .int, .scalar, [2, 0], [], false⟩]⟩

/-- Five slots hold the first node. The second one gets them all, its own among them. -/
theorem replaceUses_moves_all_heldAllRound :
    heldAllRound.Consistent ∧
      ∃ h, replaceUses 0 1 heldAllRound = .ok 5 h ∧ h.size = 4 ∧
        h.node? 0 = some ⟨.binary .plus, .int, .scalar, [1, 1], [], false⟩ ∧
        h.node? 1 = some
          ⟨.binary .minus, .int, .scalar, [1, 2], [0, 2, 2, 0, 1, 3], true⟩ ∧
        h.node? 2 = some ⟨.binary .times, .int, .scalar, [1, 1], [1, 3], false⟩ ∧
        h.node? 3 = some ⟨.binary .plus, .int, .scalar, [2, 1], [], false⟩ ∧
        h.Consistent := by
  have hg : heldAllRound.Consistent := by decide
  obtain ⟨h, hrun, hsize, hnode, hconsistent⟩ :=
    replaceUses_moves_all hg 0 1 (by decide) (by decide) (by decide)
  exact ⟨hg, h, hrun, hsize, hnode 0 _ rfl, hnode 1 _ rfl, hnode 2 _ rfl, hnode 3 _ rfl,
    hconsistent⟩

end Graph

end OpGraph
