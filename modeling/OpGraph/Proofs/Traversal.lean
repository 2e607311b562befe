import Mathlib.Algebra.BigOperators.Group.Finset.Basic
import Mathlib.Algebra.Order.BigOperators.Group.Finset
import OpGraph.Proofs.Substitution

/-!
# A pass goes through the nodes in order

A pass walks a graph that it changes on the way, and its walk is cut off after a
number of steps. This file compares it with `Graph.walk`, which walks the graph
as it was at the start and is cut off by nothing. The two go in step: where
`Graph.walk` passes over an input that it has left, the pass reads a slot that
holds the input or its substitute, and both are marked; where it enters an
input, that input was not touched yet; and where it leaves a node, the pass hands
the node over.

So a pass hands over the nodes below its roots, each of them once and in the
order of `Graph.postorder`, and answers with what stands in for the roots
(`Pass.overRoots_processed`). The limit is never reached: a step either uses up
an input of a node on the stack or enters a node, and `Graph.weight` counts all
inputs and all nodes.

None of this depends on sound edges. Where edges are broken, a slot may go on
holding a node that was replaced, and such a node is marked as well. But a node
may be refused there, and then the pass ends (`Pass.overRoots_lockstep`).
-/

namespace OpGraph

namespace Graph

/-- The inputs of a node and the node itself. -/
def nodeWeight (g : Graph) (id : NodeId) : Nat := (g.inputsOf id).length + 1

theorem weight_eq_sum (g : Graph) : g.weight = ∑ id ∈ Finset.range g.size, g.nodeWeight id := by
  have hlist : ∀ nodes : List Node,
      nodes.foldr (fun n total => n.inputs.length + 1 + total) 0 =
        ∑ i ∈ Finset.range nodes.length,
          (((nodes[i]?.map Node.inputs).getD []).length + 1) := by
    intro nodes
    induction nodes with
    | nil => rfl
    | cons n nodes ih =>
        rw [List.length_cons, Finset.sum_range_succ', List.foldr_cons, ih, Nat.add_comm]
        rfl
  rw [weight, hlist]
  refine Finset.sum_congr (by simp [size]) fun i _ => ?_
  rw [nodeWeight, inputsOf, node?, Array.getElem?_toList]
  cases g.nodes[i]? <;> rfl

/-- The weight of the nodes with a property. -/
def weightWhere (g : Graph) (P : NodeId → Prop) [DecidablePred P] : Nat :=
  ∑ id ∈ Finset.range g.size, if P id then g.nodeWeight id else 0

section WeightWhere

variable {g : Graph} {P Q : NodeId → Prop} [DecidablePred P] [DecidablePred Q]

theorem weightWhere_le : g.weightWhere P ≤ g.weight := by
  rw [weight_eq_sum]
  refine Finset.sum_le_sum fun id _ => ?_
  split
  · exact Nat.le_refl _
  · exact Nat.zero_le _

theorem weightWhere_mono (h : ∀ id, P id → Q id) : g.weightWhere P ≤ g.weightWhere Q := by
  refine Finset.sum_le_sum fun id _ => ?_
  by_cases hP : P id
  · rw [if_pos hP, if_pos (h id hP)]
  · rw [if_neg hP]
    exact Nat.zero_le _

theorem weightWhere_remove {id : NodeId} (hid : id < g.size) (hself : P id)
    (h : ∀ j, Q j ↔ P j ∧ j ≠ id) : g.weightWhere Q + g.nodeWeight id = g.weightWhere P := by
  have hmem : id ∈ Finset.range g.size := Finset.mem_range.2 hid
  have hnot : ¬ Q id := fun hQ => ((h id).1 hQ).2 rfl
  unfold weightWhere
  rw [← Finset.sum_erase_add _ _ hmem, ← Finset.sum_erase_add _ _ hmem, if_neg hnot, if_pos hself,
    Nat.add_zero]
  congr 1
  refine Finset.sum_congr rfl fun j hj => ?_
  have hiff : Q j ↔ P j := (h j).trans (and_iff_left (Finset.ne_of_mem_erase hj))
  simp only [hiff]

end WeightWhere

end Graph

namespace Sweep

/-- The weight of the nodes that have not been met. -/
def unseenWeight (s : Sweep) (g : Graph) : Nat :=
  ∑ id ∈ Finset.range g.size, if s.marks[id]? = some .unseen then g.nodeWeight id else 0

theorem unseenWeight_le (s : Sweep) (g : Graph) : s.unseenWeight g ≤ g.weight :=
  Graph.weightWhere_le

theorem unseenWeight_enter {s : Sweep} {g : Graph} {id : NodeId} (hsize : s.marks.size = g.size)
    (h : s.marks[id]? = some .unseen) :
    (s.enter id).unseenWeight g + g.nodeWeight id = s.unseenWeight g := by
  have hlt : id < s.marks.size := lt_of_mark h
  refine Graph.weightWhere_remove (hsize ▸ hlt) h fun j => ?_
  rw [getElem?_enter hlt]
  by_cases hj : id = j
  · simp [hj]
  · simp [hj, Ne.symm hj]

theorem unseenWeight_leave {s : Sweep} {g : Graph} {id : NodeId}
    (h : s.marks[id]? = some .active) : (s.leave id).unseenWeight g ≤ s.unseenWeight g := by
  refine Graph.weightWhere_mono fun j hj => ?_
  rw [getElem?_leave (lt_of_mark h)] at hj
  by_cases hji : id = j
  · simp [hji] at hj
  · rwa [if_neg hji] at hj

end Sweep

namespace Pass

variable {σ : Type} {rule : NodeRule σ} {p p' : Pass σ} {id child last new : NodeId}
  {slot limit : Nat} {rest : List (NodeId × Nat)}

/-! ## One step of a pass -/

theorem walk_nil : walk rule limit [] last p = .ok last p := by
  cases limit <;> rfl

theorem walk_leave (hid : id < p.graph.size) (hslot : (p.graph.inputsOf id)[slot]? = none)
    (hrun : finish rule id p = .ok new p') :
    walk rule (limit + 1) ((id, slot) :: rest) last p = walk rule limit rest new p' := by
  obtain ⟨n, hn⟩ := Graph.exists_node? hid
  rw [Graph.inputsOf_of_node? hn] at hslot
  rw [walk, bind_ok (ask_node_ok hn), hslot]
  exact bind_ok hrun

theorem walk_refused (hid : id < p.graph.size) (hslot : (p.graph.inputsOf id)[slot]? = none)
    {e : GraphError} (hrun : finish rule id p = .error e p') :
    walk rule (limit + 1) ((id, slot) :: rest) last p = .error e p' := by
  obtain ⟨n, hn⟩ := Graph.exists_node? hid
  rw [Graph.inputsOf_of_node? hn] at hslot
  rw [walk, bind_ok (ask_node_ok hn), hslot]
  exact bind_error hrun

theorem walk_skip (hslot : (p.graph.inputsOf id)[slot]? = some child)
    (hmark : p.graph.visited? child = some true) :
    walk rule (limit + 1) ((id, slot) :: rest) last p =
      walk rule limit ((id, slot + 1) :: rest) last p := by
  obtain ⟨n, hn⟩ :=
    Graph.exists_node? (Graph.lt_size_of_mem_inputsOf (List.mem_of_getElem? hslot))
  rw [Graph.inputsOf_of_node? hn] at hslot
  obtain ⟨c, hc, hvisited⟩ := Option.map_eq_some_iff.1 hmark
  rw [walk, bind_ok (ask_node_ok hn), hslot]
  refine (bind_ok (ask_node_ok hc)).trans ?_
  rw [if_pos hvisited]

theorem walk_enter (hslot : (p.graph.inputsOf id)[slot]? = some child)
    (hmark : p.graph.visited? child = some false) :
    walk rule (limit + 1) ((id, slot) :: rest) last p =
      walk rule limit ((child, 0) :: (id, slot + 1) :: rest) last p := by
  obtain ⟨n, hn⟩ :=
    Graph.exists_node? (Graph.lt_size_of_mem_inputsOf (List.mem_of_getElem? hslot))
  rw [Graph.inputsOf_of_node? hn] at hslot
  obtain ⟨c, hc, hvisited⟩ := Option.map_eq_some_iff.1 hmark
  rw [walk, bind_ok (ask_node_ok hn), hslot]
  refine (bind_ok (ask_node_ok hc)).trans ?_
  rw [if_neg (by simp [hvisited])]

theorem Traces.visited_standIn {g : Graph} {follows : NodeId → NodeId → Bool}
    {done : List NodeId} (h : Traces g follows done p) (hid : id < g.size) (hdone : id ∈ done) :
    p.graph.visited? (p.standIn id) = some true := by
  by_cases hself : p.standIn id = id
  · rw [hself, h.visited id hid, if_pos hdone]
  · obtain ⟨-, hge, hlt⟩ := h.replaced id hself
    exact h.fresh_visited _ hge hlt

/-- The stack of a pass, from the stack of a walk: in place of the inputs that
are left to look at stands the number of the slot to go on with. -/
def slots (g : Graph) (stack : List Frame) : List (NodeId × Nat) :=
  stack.map fun f => (f.1, (g.inputsOf f.1).length - f.2.length)

/-- What a pass answers at the end of its stack. -/
def answer (p : Pass σ) : List Frame → NodeId → NodeId
  | [], last => last
  | (id, _) :: rest, _ => p.answer rest (p.standIn id)

/-- However far a pass has come, it has left `g` but for what follows. -/
def Traced (rule : NodeRule σ) (g : Graph) (follows : NodeId → NodeId → Bool) (p₀ : Pass σ) :
    Prop :=
  ∀ done p, Processed rule p₀ done p → g.ChildrenFirst done → (∀ id ∈ done, id < g.size) →
    Traces g follows done p

/-- A pass that has ended with an error, when a node was handed over after its
inputs. -/
inductive Stopped (rule : NodeRule σ) (g : Graph) (roots : List NodeId) (p₀ : Pass σ)
    (e : GraphError) (p' : Pass σ) : Prop
  | intro {done : List NodeId} {id : NodeId} {p : Pass σ} (processed : Processed rule p₀ done p)
      (order : g.ChildrenFirst (id :: done)) (lt : ∀ j ∈ id :: done, j < g.size)
      (below : ∀ j ∈ id :: done, ∃ r ∈ roots, g.Reaches r j)
      (refused : finish rule id p = .error e p')

section Lockstep

variable {g : Graph} {follows : NodeId → NodeId → Bool} {roots : List NodeId} {p₀ : Pass σ}

theorem Traced.of_sound (htraced : Traced rule g follows p₀) {s : Sweep} {stack : List Frame}
    (hs : s.Sound g roots stack) (hp : Processed rule p₀ s.order p) : Traces g follows s.order p :=
  htraced s.order p hp hs.order fun _ hid => hs.order_lt hid

/-- A node on the stack has not been handed over. -/
theorem active_head {s : Sweep} {more : List NodeId} {rest : List Frame}
    (hs : s.Sound g roots ((id, more) :: rest)) :
    s.marks[id]? = some .active ∧ id < g.size ∧ id ∉ s.order := by
  have hactive := (hs.active id).2 (List.mem_cons_self ..)
  exact ⟨hactive, hs.size ▸ Sweep.lt_of_mark hactive, hs.not_mem_order hactive (by simp)⟩

/-- The next slot of the innermost node holds the input that was there at first, or
what stands in for it. -/
theorem Traces.next_slot {s : Sweep} {rest : List Frame} {more : List NodeId}
    (h : Traces g follows s.order p) (hs : s.Sound g roots ((id, more) :: rest)) :
    (p.graph.inputsOf id)[(g.inputsOf id).length - more.length]? =
      more.head?.map fun c => if follows id c then p.standIn c else c := by
  obtain ⟨-, hid, hnew⟩ := active_head hs
  obtain ⟨⟨seen, hin, -⟩, -⟩ := hs.path
  simp only [Option.toList_none, List.nil_append] at hin
  have hlen : (g.inputsOf id).length - more.length = seen.length := by
    rw [hin, List.length_append, Nat.add_sub_cancel]
  rw [h.kept id hid (h.standIn_eq hnew), hlen, hin, List.getElem?_map,
    List.getElem?_append_right (Nat.le_refl _), Nat.sub_self, List.head?_eq_getElem?]

/-- The slot after one that was looked at. -/
theorem slots_next {s : Sweep} {rest : List Frame} {more : List NodeId}
    (hs : s.Sound g roots ((id, child :: more) :: rest)) :
    slots g ((id, more) :: rest) =
      (id, (g.inputsOf id).length - (child :: more).length + 1) :: slots g rest := by
  obtain ⟨⟨seen, hin, -⟩, -⟩ := hs.path
  have hlen : (g.inputsOf id).length = seen.length + (more.length + 1) := by
    rw [hin]
    simp
  have hslot : (g.inputsOf id).length - (child :: more).length + 1 =
      (g.inputsOf id).length - more.length := by
    rw [List.length_cons]
    omega
  rw [hslot]
  rfl

theorem walk_slots_leave {s : Sweep} {rest : List Frame} (h : Traces g follows s.order p)
    (hs : s.Sound g roots ((id, []) :: rest)) (hrun : finish rule id p = .ok new p') :
    walk rule (limit + 1) (slots g ((id, []) :: rest)) last p =
      walk rule limit (slots g rest) new p' := by
  obtain ⟨-, hid, -⟩ := active_head hs
  exact walk_leave (Nat.lt_of_lt_of_le hid h.size) (h.next_slot hs) hrun

theorem walk_slots_refused {s : Sweep} {rest : List Frame} (h : Traces g follows s.order p)
    (hs : s.Sound g roots ((id, []) :: rest)) {e : GraphError}
    (hrun : finish rule id p = .error e p') :
    walk rule (limit + 1) (slots g ((id, []) :: rest)) last p = .error e p' := by
  obtain ⟨-, hid, -⟩ := active_head hs
  exact walk_refused (Nat.lt_of_lt_of_le hid h.size) (h.next_slot hs) hrun

theorem walk_slots_skip {s : Sweep} {rest : List Frame} {more : List NodeId}
    (h : Traces g follows s.order p) (hs : s.Sound g roots ((id, child :: more) :: rest))
    (hmark : s.marks[child]? = some .finished) :
    walk rule (limit + 1) (slots g ((id, child :: more) :: rest)) last p =
      walk rule limit (slots g ((id, more) :: rest)) last p := by
  have hdone := (hs.finished child).1 hmark
  have hlt := hs.order_lt hdone
  -- Whether or not the slot follows, what it holds is marked.
  have hmarked : p.graph.visited? (if follows id child then p.standIn child else child) =
      some true := by
    split
    · exact h.visited_standIn hlt hdone
    · rw [h.visited child hlt, if_pos hdone]
  rw [slots_next hs]
  exact walk_skip (h.next_slot hs) hmarked

theorem walk_slots_enter {s : Sweep} {rest : List Frame} {more : List NodeId}
    (h : Traces g follows s.order p) (hs : s.Sound g roots ((id, child :: more) :: rest))
    (hclear : ∀ r ∈ roots, ∀ id, g.Reaches r id → g.visited? id = some false)
    (hmark : s.marks[child]? = some .unseen) :
    walk rule (limit + 1) (slots g ((id, child :: more) :: rest)) last p =
      walk rule limit (slots g ((child, g.inputsOf child) :: (id, more) :: rest)) last p := by
  have hnew : child ∉ s.order := hs.not_mem_order hmark (by simp)
  have hself : p.standIn child = child := h.standIn_eq hnew
  have hslot := h.next_slot hs
  rw [List.head?_cons, Option.map_some, hself, ite_self] at hslot
  have hvisited : p.graph.visited? child = some false := by
    obtain ⟨r, hr, hreach⟩ := (hs.enter hmark).stacked child (List.mem_cons_self ..)
    rw [h.visited child (hs.size ▸ Sweep.lt_of_mark hmark), if_neg hnew]
    exact hclear r hr child hreach
  have hfirst : slots g ((child, g.inputsOf child) :: (id, more) :: rest) =
      (child, 0) :: slots g ((id, more) :: rest) := by
    rw [slots, List.map_cons, Nat.sub_self]
    rfl
  rw [hfirst, slots_next hs]
  exact walk_enter hslot hvisited

/-- A walk of the graph as it was, and the pass that goes in step with it, up to the
end or up to a node that is refused. -/
theorem walk_lockstep (htraced : Traced rule g follows p₀)
    (hclear : ∀ r ∈ roots, ∀ id, g.Reaches r id → g.visited? id = some false)
    {stack : List Frame} {s s' : Sweep} (hs : s.Sound g roots stack)
    (hrun : g.walk stack s = .ok s') :
    ∀ (p : Pass σ) (limit : Nat) (last : NodeId), Processed rule p₀ s.order p →
      s.unseenWeight g + Sweep.pending stack ≤ limit →
      (∃ p', walk rule limit (slots g stack) last p = .ok (p'.answer stack last) p' ∧
        Processed rule p₀ s'.order p' ∧ ∀ id ∈ s.order, p'.standIn id = p.standIn id) ∨
      ∃ e p', walk rule limit (slots g stack) last p = .error e p' ∧
        Stopped rule g roots p₀ e p' := by
  -- Along the walk of the old graph. Each step of the pass takes one off the
  -- limit, which covers the slots on the stack and all nodes not met so far.
  induction stack, s using Graph.walk.induct g with
  | case1 s =>
      intro p limit last hp _
      rw [Graph.walk_nil] at hrun
      cases hrun
      exact .inl ⟨p, walk_nil, hp, fun _ _ => rfl⟩
  | case2 s id rest ih =>
      intro p limit last hp hlimit
      rw [Graph.walk_leave] at hrun
      have htraces := htraced.of_sound hs hp
      obtain ⟨hactive, hid, hnew⟩ := active_head hs
      simp only [Sweep.pending, List.length_nil] at hlimit
      have hweight := Sweep.unseenWeight_leave (g := g) hactive
      obtain ⟨limit, rfl⟩ : ∃ l, limit = l + 1 := ⟨limit - 1, by omega⟩
      -- The walk leaves the node, and the pass hands it to the rule.
      cases hfinish : finish rule id p with
      | error e p' =>
          refine .inr ⟨e, p', walk_slots_refused htraces hs hfinish, ?_⟩
          exact .intro hp hs.leave.order (fun _ => hs.leave.order_lt) hs.leave.listed hfinish
      | ok new p₁ =>
          obtain ⟨hanswer, hothers⟩ := standIn_of_finish (htraces.standIn_eq hnew) hfinish
          rw [walk_slots_leave htraces hs hfinish, hanswer]
          rcases ih hs.leave hrun p₁ limit (p₁.standIn id) (hp.step hfinish) (by omega) with
            ⟨p', hwalk, hp', hsame⟩ | hstopped
          · refine .inl ⟨p', ?_, hp', fun j hj => ?_⟩
            · rw [hwalk, answer, hsame id (List.mem_cons_self ..)]
            · rw [hsame j (List.mem_cons_of_mem _ hj)]
              exact hothers j fun h => hnew (h ▸ hj)
          · exact .inr hstopped
  | case3 s id child more rest hmark =>
      rw [Graph.walk_unknown hmark] at hrun
      cases hrun
  | case4 s id child more rest hmark =>
      rw [Graph.walk_cycle hmark] at hrun
      cases hrun
  | case5 s id child more rest hmark ih =>
      intro p limit last hp hlimit
      rw [Graph.walk_skip hmark] at hrun
      simp only [Sweep.pending, List.length_cons] at hlimit ih
      obtain ⟨limit, rfl⟩ : ∃ l, limit = l + 1 := ⟨limit - 1, by omega⟩
      rw [walk_slots_skip (htraced.of_sound hs hp) hs hmark]
      exact ih (hs.skip hmark) hrun p limit last hp (by omega)
  | case6 s id child more rest hmark ih =>
      intro p limit last hp hlimit
      rw [Graph.walk_enter hmark] at hrun
      -- The weight of the node becomes its slots and the frame that it gets.
      have hweight := Sweep.unseenWeight_enter hs.size hmark
      unfold Graph.nodeWeight at hweight
      simp only [Sweep.pending, List.length_cons] at hlimit ih
      obtain ⟨limit, rfl⟩ : ∃ l, limit = l + 1 := ⟨limit - 1, by omega⟩
      rw [walk_slots_enter (htraced.of_sound hs hp) hs hclear hmark]
      exact ih (hs.enter hmark) hrun p limit last hp (by omega)

theorem visit_done {n : Node} (hn : p.graph.node? id = some n) (hvisited : n.visited = true) :
    visit rule limit id p = .ok (p.standIn id) p := by
  rw [visit, bind_ok (ask_node_ok hn), if_pos hvisited]
  rfl

theorem visit_walk {n : Node} (hn : p.graph.node? id = some n) (hvisited : n.visited = false) :
    visit rule limit id p = walk rule limit [(id, 0)] id p := by
  rw [visit, bind_ok (ask_node_ok hn), if_neg (by simp [hvisited])]

theorem visit_lockstep (htraced : Traced rule g follows p₀)
    (hclear : ∀ r ∈ roots, ∀ id, g.Reaches r id → g.visited? id = some false)
    {root : NodeId} (hroot : root ∈ roots) {s s' : Sweep} (hs : s.Sound g roots [])
    (hrun : g.sweepFrom s root = .ok s') (hp : Processed rule p₀ s.order p)
    (hlimit : g.weight ≤ limit) :
    (∃ p', visit rule limit root p = .ok (p'.standIn root) p' ∧ Processed rule p₀ s'.order p' ∧
      ∀ id ∈ s.order, p'.standIn id = p.standIn id) ∨
    ∃ e p', visit rule limit root p = .error e p' ∧ Stopped rule g roots p₀ e p' := by
  have htraces := htraced.of_sound hs hp
  have hlt : root < g.size := by
    unfold Graph.sweepFrom at hrun
    split at hrun
    · cases hrun
    · rename_i hmark
      exact hs.size ▸ Sweep.lt_of_mark hmark
    · rename_i hmark
      exact hs.size ▸ Sweep.lt_of_mark hmark
  obtain ⟨n, hn⟩ := Graph.exists_node? (Nat.lt_of_lt_of_le hlt htraces.size)
  have hvisited := htraces.visited root hlt
  rw [Graph.visited?_of_node? hn, hclear root hroot root Relation.ReflTransGen.refl] at hvisited
  by_cases hdone : root ∈ s.order
  · -- The root was handed over below an earlier one, and neither walk goes on.
    rw [if_pos hdone, Option.some.injEq] at hvisited
    rw [Graph.sweepFrom, (hs.finished root).2 hdone] at hrun
    cases hrun
    exact .inl ⟨p, visit_done hn hvisited, hp, fun _ _ => rfl⟩
  · rw [if_neg hdone, Option.some.injEq] at hvisited
    have hmark : s.marks[root]? = some .unseen := by
      obtain ⟨m, hm⟩ : ∃ m, s.marks[root]? = some m :=
        ⟨_, Array.getElem?_eq_getElem (hs.size ▸ hlt)⟩
      cases m with
      | unseen => exact hm
      | active => exact absurd ((hs.active root).1 hm) (by simp)
      | finished => exact absurd ((hs.finished root).1 hm) hdone
    rw [Graph.sweepFrom, hmark] at hrun
    have hweight := Sweep.unseenWeight_enter hs.size hmark
    have hle := s.unseenWeight_le g
    have hwalk := walk_lockstep htraced hclear (hs.enter_root hroot hmark) hrun p limit root hp
      (by simp only [Sweep.pending, Graph.nodeWeight] at hweight ⊢; omega)
    rw [slots, List.map_cons, Nat.sub_self] at hwalk
    rw [visit_walk hn hvisited]
    exact hwalk

theorem visitAll_lockstep (htraced : Traced rule g follows p₀)
    (hclear : ∀ r ∈ roots, ∀ id, g.Reaches r id → g.visited? id = some false)
    (hlimit : g.weight ≤ limit) : ∀ (rs : List NodeId) (s s' : Sweep) (p : Pass σ),
    s.Sound g roots [] → (∀ r ∈ rs, r ∈ roots) → rs.foldlM g.sweepFrom s = .ok s' →
    Processed rule p₀ s.order p →
    (∃ p', visitAll rule limit rs p = .ok (rs.map p'.standIn) p' ∧
      Processed rule p₀ s'.order p' ∧ ∀ id ∈ s.order, p'.standIn id = p.standIn id) ∨
    ∃ e p', visitAll rule limit rs p = .error e p' ∧ Stopped rule g roots p₀ e p' := by
  intro rs
  induction rs with
  | nil =>
      intro s s' p _ _ hrun hp
      cases hrun
      exact .inl ⟨p, rfl, hp, fun _ _ => rfl⟩
  | cons r rest ih =>
      intro s s' p hs hsub hrun hp
      have hr := hsub r (List.mem_cons_self ..)
      rw [List.foldlM_cons] at hrun
      cases hfirst : g.sweepFrom s r with
      | error e =>
          rw [hfirst] at hrun
          cases hrun
      | ok mid =>
          rw [hfirst] at hrun
          obtain ⟨hmid, hkept, hlisted⟩ := Graph.sweepFrom_sound hs hr hfirst
          rcases visit_lockstep htraced hclear hr hs hfirst hp hlimit with
            ⟨p₁, hvisit, hp₁, hsame₁⟩ | ⟨e, p₁, hvisit, hstopped⟩
          · rcases ih mid s' p₁ hmid (fun q hq => hsub q (List.mem_cons_of_mem _ hq)) hrun hp₁ with
              ⟨p', hall, hp', hsame⟩ | ⟨e, p', hall, hstopped⟩
            · refine .inl ⟨p', ?_, hp', fun j hj => (hsame j (hkept j hj)).trans (hsame₁ j hj)⟩
              rw [visitAll, bind_ok hvisit, bind_ok hall, List.map_cons, hsame r hlisted]
              rfl
            · refine .inr ⟨e, p', ?_, hstopped⟩
              rw [visitAll, bind_ok hvisit]
              exact bind_error hall
          · refine .inr ⟨e, p₁, ?_, hstopped⟩
            rw [visitAll]
            exact bind_error hvisit

end Lockstep

end Pass

/-! ## The start of a pass -/

namespace Graph

/-- The graph without marks on some nodes. -/
def cleared (g : Graph) (ids : List NodeId) : Graph := ids.foldl (fun h id => h.mark id false) g

theorem cleared_views (ids : List NodeId) : ∀ g : Graph, (g.cleared ids).size = g.size ∧
    (∀ j, (g.cleared ids).label? j = g.label? j) ∧
    (∀ j, (g.cleared ids).inputsOf j = g.inputsOf j) ∧
    ∀ j, (g.cleared ids).parentsOf j = g.parentsOf j := by
  induction ids with
  | nil => exact fun g => ⟨rfl, fun _ => rfl, fun _ => rfl, fun _ => rfl⟩
  | cons id ids ih =>
      intro g
      obtain ⟨hsize, hlabel, hinputs, hparents⟩ := ih (g.mark id false)
      refine ⟨?_, fun j => ?_, fun j => ?_, fun j => ?_⟩
      · rw [cleared, List.foldl_cons, ← cleared, hsize, size_mark]
      · rw [cleared, List.foldl_cons, ← cleared, hlabel, label?_mark]
      · rw [cleared, List.foldl_cons, ← cleared, hinputs, inputsOf_mark]
      · rw [cleared, List.foldl_cons, ← cleared, hparents, parentsOf_mark]

theorem visited?_cleared {ids : List NodeId} : ∀ {g : Graph}, (∀ id ∈ ids, id < g.size) →
    ∀ j, (g.cleared ids).visited? j = if j ∈ ids then some false else g.visited? j := by
  induction ids with
  | nil => exact fun _ j => by simp [cleared]
  | cons id ids ih =>
      intro g hlt j
      have hid := hlt id (List.mem_cons_self ..)
      rw [cleared, List.foldl_cons, ← cleared, ih fun k hk => by
        rw [size_mark]
        exact hlt k (List.mem_cons_of_mem _ hk), visited?_mark hid]
      by_cases hj : j ∈ ids
      · simp [hj]
      · by_cases hji : id = j
        · simp [hji]
        · simp [hj, hji, Ne.symm hji]

/-- A walk reads nothing but the inputs. -/
theorem walk_congr {g h : Graph} (hinputs : ∀ j, h.inputsOf j = g.inputsOf j)
    (stack : List Frame) (s : Sweep) : h.walk stack s = g.walk stack s := by
  induction stack, s using walk.induct g with
  | case1 s => rw [walk_nil, walk_nil]
  | case2 s id rest ih => rw [walk_leave, walk_leave, ih]
  | case3 s id child more rest hmark => rw [walk_unknown hmark, walk_unknown hmark]
  | case4 s id child more rest hmark => rw [walk_cycle hmark, walk_cycle hmark]
  | case5 s id child more rest hmark ih => rw [walk_skip hmark, walk_skip hmark, ih]
  | case6 s id child more rest hmark ih => rw [walk_enter hmark, walk_enter hmark, hinputs, ih]

theorem postorder_congr {g h : Graph} (hsize : h.size = g.size)
    (hinputs : ∀ j, h.inputsOf j = g.inputsOf j) (roots : List NodeId) :
    h.postorder roots = g.postorder roots := by
  have hsweep : h.sweepFrom = g.sweepFrom := by
    funext s root
    simp only [sweepFrom, hinputs, walk_congr hinputs]
  rw [postorder, postorder, hsweep, hsize]

end Graph

namespace Pass

variable {σ : Type} {rule : NodeRule σ} {g : Graph} {roots order : List NodeId}

/-- A pass starts on the graph without marks below the roots. -/
theorem start_eq_ok (hpost : g.postorder roots = .ok order) (t : Tally) (m : σ) :
    start roots ⟨⟨g, t, m⟩, []⟩ =
      .ok (g.cleared order).weight (⟨⟨g.cleared order, t, m⟩, []⟩ : Pass σ) := by
  have hreset : Graph.resetVisited roots g = .ok () (g.cleared order) := by
    rw [Graph.resetVisited, Edit.ask_bind, hpost]
    rfl
  rw [start, bind_ok (edit_ok hreset)]
  rfl

/-- A pass hands over the nodes below its roots, in the order of `postorder`, up to
the end or up to a node that is refused. -/
theorem overRoots_lockstep {follows : NodeId → NodeId → Bool}
    (hpost : g.postorder roots = .ok order) {t : Tally} {m : σ}
    (htraced : Traced rule (g.cleared order) follows ⟨⟨g.cleared order, t, m⟩, []⟩) :
    (∃ p, overRoots rule roots ⟨⟨g, t, m⟩, []⟩ = .ok (roots.map p.standIn) p ∧
      Processed rule ⟨⟨g.cleared order, t, m⟩, []⟩ order.reverse p) ∨
    ∃ e p, overRoots rule roots ⟨⟨g, t, m⟩, []⟩ = .error e p ∧
      Stopped rule (g.cleared order) roots ⟨⟨g.cleared order, t, m⟩, []⟩ e p := by
  obtain ⟨hsize, -, hinputs, -⟩ := g.cleared_views order
  have hpost' := hpost
  rw [← Graph.postorder_congr hsize hinputs] at hpost'
  have hclear : ∀ r ∈ roots, ∀ id, (g.cleared order).Reaches r id →
      (g.cleared order).visited? id = some false := by
    intro r hr id hreach
    rw [Graph.visited?_cleared fun id hid => Graph.lt_of_mem_postorder hpost hid]
    exact if_pos (((Graph.postorder_spec hpost').2 id).2 ⟨r, hr, hreach⟩)
  have hstart := start_eq_ok hpost t m
  obtain ⟨s, hsweep, rfl⟩ := Graph.postorder_eq_ok_iff.1 hpost'
  rw [List.reverse_reverse, overRoots, bind_ok hstart]
  rcases visitAll_lockstep htraced hclear (Nat.le_refl _) roots _ s _ (Sweep.start_sound _ roots)
    (fun _ h => h) hsweep .start with ⟨p, hall, hp, -⟩ | hstopped
  · exact .inl ⟨p, hall, hp⟩
  · exact .inr hstopped

/-- On balanced edges it gets to the end. -/
theorem overRoots_processed (hrule : PutsLiterals rule) (hg : g.Balanced)
    (hpost : g.postorder roots = .ok order) (t : Tally) (m : σ) :
    ∃ p, overRoots rule roots ⟨⟨g, t, m⟩, []⟩ = .ok (roots.map p.standIn) p ∧
      Processed rule ⟨⟨g.cleared order, t, m⟩, []⟩ order.reverse p := by
  obtain ⟨-, -, hinputs, hparents⟩ := g.cleared_views order
  have hp₀ : Tracks (g.cleared order) [] ⟨⟨g.cleared order, t, m⟩, []⟩ :=
    tracks_start (Graph.balanced_of_views hinputs hparents hg) t m
  have htraced : Traced rule (g.cleared order) (fun _ _ => true)
      ⟨⟨g.cleared order, t, m⟩, []⟩ :=
    fun _ _ hp horder hlt => (hp.tracks hrule hp₀ horder hlt).traces
  rcases overRoots_lockstep hpost htraced with hdone | ⟨e, p, -, hstopped⟩
  · exact hdone
  · cases hstopped with
    | intro hp horder hlt _ hrefused =>
        have htracks := hp.tracks hrule hp₀ horder.2.2 fun j hj => hlt j (List.mem_cons_of_mem _ hj)
        obtain ⟨_, hfinish, -⟩ :=
          htracks.finish hrule (hlt _ (List.mem_cons_self ..)) horder.1
        rw [hrefused] at hfinish
        cases hfinish

/-- What a pass that went through has left of the graph and of its marks. -/
theorem tracks_of_overRoots (hrule : PutsLiterals rule) (hg : g.Balanced)
    (hpost : g.postorder roots = .ok order) {t : Tally} {m : σ} {news : List NodeId} {p : Pass σ}
    (hrun : overRoots rule roots ⟨⟨g, t, m⟩, []⟩ = .ok news p) :
    Tracks (g.cleared order) order.reverse p := by
  obtain ⟨q, hrun', hq⟩ := overRoots_processed hrule hg hpost t m
  rw [hrun] at hrun'
  cases hrun'
  obtain ⟨hsize, -, hinputs, hparents⟩ := g.cleared_views order
  have hpost' := hpost
  rw [← Graph.postorder_congr hsize hinputs] at hpost'
  exact hq.tracks hrule (tracks_start (Graph.balanced_of_views hinputs hparents hg) t m)
    (Graph.postorder_spec hpost').1
    fun j hj => Graph.lt_of_mem_postorder hpost' (List.mem_reverse.1 hj)

/-- A pass leaves a mark on the nodes below its roots and on those that came new,
and takes none off other nodes. -/
theorem marked_of_overRoots (hrule : PutsLiterals rule) (hg : g.Balanced)
    (hpost : g.postorder roots = .ok order) {t : Tally} {m : σ} {news : List NodeId} {p : Pass σ}
    (hrun : overRoots rule roots ⟨⟨g, t, m⟩, []⟩ = .ok news p) {id : NodeId}
    (hid : id < p.graph.size)
    (hcase : id ∈ order ∨ g.size ≤ id ∨ g.visited? id = some true) :
    p.graph.visited? id = some true := by
  have htracks := tracks_of_overRoots hrule hg hpost hrun
  obtain ⟨hsize, -⟩ := g.cleared_views order
  rcases Nat.lt_or_ge id g.size with hlt | hge
  · rw [htracks.visited id (hsize ▸ hlt)]
    by_cases hmem : id ∈ order
    · rw [if_pos (List.mem_reverse.2 hmem)]
    · rw [if_neg fun h => hmem (List.mem_reverse.1 h),
        Graph.visited?_cleared fun j hj => Graph.lt_of_mem_postorder hpost hj, if_neg hmem]
      exact (hcase.resolve_left hmem).resolve_left (Nat.not_le.2 hlt)
  · exact htracks.fresh_visited id (hsize ▸ hge) hid

/-- An induction along a pass, from the graph without marks below the roots. -/
theorem overRoots_induct_cleared {motive : List NodeId → Pass σ → Prop} (hrule : PutsLiterals rule)
    (hg : g.Balanced) (hpost : g.postorder roots = .ok order) (t : Tally) (m : σ)
    (hstart : motive [] ⟨⟨g.cleared order, t, m⟩, []⟩)
    (hstep : ∀ done p id p', Rewritten g done p.rewrite → motive done p → id < g.size →
      id ∉ done → (∀ c ∈ g.inputsOf id, c ∈ done) → Finished rule p id p' →
      motive (id :: done) p') :
    ∃ p, overRoots rule roots ⟨⟨g, t, m⟩, []⟩ = .ok (roots.map p.standIn) p ∧
      Rewritten g order.reverse p.rewrite ∧ motive order.reverse p := by
  obtain ⟨p, hrun, hp⟩ := overRoots_processed hrule hg hpost t m
  obtain ⟨hsize, hlabel, hinputs, hparents⟩ := g.cleared_views order
  have hp₀ : Tracks (g.cleared order) [] ⟨⟨g.cleared order, t, m⟩, []⟩ :=
    tracks_start (Graph.balanced_of_views hinputs hparents hg) t m
  have hback : ∀ {done : List NodeId} {p : Pass σ}, Tracks (g.cleared order) done p →
      Rewritten g done p.rewrite := fun h => h.toRewritten.congr hsize hlabel hinputs
  have hpost' := hpost
  rw [← Graph.postorder_congr hsize hinputs] at hpost'
  obtain ⟨htracks, hmotive⟩ := hp.induct hrule hp₀ hstart
    (fun done p id p' h hm hid hnew hin hfin => hstep done p id p' (hback h) hm (hsize ▸ hid)
      hnew (fun c hc => hin c (hinputs id ▸ hc)) hfin)
    (Graph.postorder_spec hpost').1
    (fun id hid => Graph.lt_of_mem_postorder hpost' (List.mem_reverse.1 hid))
  exact ⟨p, hrun, hback htracks, hmotive⟩

theorem overRoots_induct {motive : List NodeId → Pass σ → Prop} (hrule : PutsLiterals rule)
    (hg : g.Balanced) (hpost : g.postorder roots = .ok order)
    (hstart : ∀ p, Rewritten g [] p.rewrite → motive [] p)
    (hstep : ∀ done p id p', Rewritten g done p.rewrite → motive done p → id < g.size →
      id ∉ done → (∀ c ∈ g.inputsOf id, c ∈ done) → Finished rule p id p' →
      motive (id :: done) p') (t : Tally) (m : σ) :
    ∃ p, overRoots rule roots ⟨⟨g, t, m⟩, []⟩ = .ok (roots.map p.standIn) p ∧
      Rewritten g order.reverse p.rewrite ∧ motive order.reverse p := by
  obtain ⟨hsize, hlabel, hinputs, hparents⟩ := g.cleared_views order
  have hp₀ : Tracks (g.cleared order) [] ⟨⟨g.cleared order, t, m⟩, []⟩ :=
    tracks_start (Graph.balanced_of_views hinputs hparents hg) t m
  exact overRoots_induct_cleared hrule hg hpost t m
    (hstart _ (hp₀.toRewritten.congr hsize hlabel hinputs)) hstep

end Pass

/-- Applying a rule to roots is a whole pass, also where there are none. -/
theorem NodeRule.applyRoots_eq_run {σ : Type} (rule : NodeRule σ) (roots : List NodeId)
    (s : Session σ) : rule.applyRoots roots s = Pass.run (Pass.overRoots rule roots) s := by
  cases roots <;> rfl

theorem NodeRule.applyRoots_of_overRoots {σ : Type} {rule : NodeRule σ} {roots news : List NodeId}
    {s : Session σ} {p : Pass σ} (h : Pass.overRoots rule roots ⟨s, []⟩ = .ok news p) :
    rule.applyRoots roots s = .ok news p.toSession := by
  rw [applyRoots_eq_run, Pass.run, h]

theorem NodeRule.overRoots_of_applyRoots {σ : Type} {rule : NodeRule σ} {roots news : List NodeId}
    {s s' : Session σ} (h : rule.applyRoots roots s = .ok news s') :
    ∃ p, Pass.overRoots rule roots ⟨s, []⟩ = .ok news p ∧ p.toSession = s' := by
  rw [applyRoots_eq_run] at h
  unfold Pass.run at h
  split at h
  · next hrun =>
      cases h
      exact ⟨_, hrun, rfl⟩
  · cases h

/-- Where the nodes below the roots cannot be listed, nothing is done. -/
theorem NodeRule.applyRoots_error {σ : Type} (rule : NodeRule σ) {roots : List NodeId}
    (s : Session σ) {e : GraphError} (hpost : s.graph.postorder roots = .error e) :
    rule.applyRoots roots s = .error e s := by
  cases roots with
  | nil => cases hpost
  | cons r rest =>
      have hreset : Graph.resetVisited (r :: rest) s.graph = .error e s.graph := by
        rw [Graph.resetVisited, Edit.ask_bind, hpost]
      have hedit : (Pass.edit (Graph.resetVisited (r :: rest)) : PassM σ Unit) ⟨s, []⟩ =
          .error e ⟨s, []⟩ := by
        rw [Pass.edit, hreset]
      have hpass : Pass.overRoots rule (r :: rest) ⟨s, []⟩ = .error e ⟨s, []⟩ :=
        bind_error (bind_error hedit)
      change Pass.run _ s = _
      rw [Pass.run, hpass]

/-- A rule that was applied has walked everything below the roots. -/
theorem NodeRule.postorder_of_applyRoots {σ : Type} {rule : NodeRule σ} {roots news : List NodeId}
    {s s' : Session σ} (h : rule.applyRoots roots s = .ok news s') :
    ∃ order, s.graph.postorder roots = .ok order := by
  cases hpost : s.graph.postorder roots with
  | ok order => exact ⟨order, rfl⟩
  | error e =>
      rw [rule.applyRoots_error s hpost] at h
      cases h

end OpGraph
