import OpGraph.Pass.Visit
import OpGraph.Proofs.Edges
import OpGraph.Proofs.Reach

/-!
# What a pass does to one node, and to one after another

A rule that keeps nodes or puts literals in their places changes the graph in
one way only. `Pass.Tracks` says what is left of a graph `g` after some of its
nodes were handed to such a rule: labels are as they were, a node that was kept
holds what stands in for its old inputs, a node that was replaced holds nothing,
and everything that came new is a literal. Which node stands in for which is
looked up in the pass (`Pass.standIn`).

Handing over one more node keeps this, whatever the order (`Tracks.finish`). In
particular it cannot fail: the edges stay balanced, so every slot that holds a
node is found from the node's parents. `Pass.Processed` lists the nodes that were
handed over so far, the last one first, and every later statement about a pass
is an induction on it.

Edges may also be broken. A slot that holds a node which does not list its parent
is not found, and goes on holding the node. `Pass.Traces` is `Pass.Tracks` with
the edges named along which slots follow the substitution.
-/

namespace OpGraph

def Label.literal (v : Value) : Label := ⟨.literal v, v.type, .scalar⟩

namespace Graph

theorem setVisited_apply {g : Graph} {id : NodeId} (hid : id < g.size) (b : Bool) :
    setVisited id b g = .ok () (g.mark id b) := by
  obtain ⟨n, hn⟩ := node_of_lt hid
  unfold setVisited
  rw [Edit.ask_bind, hn]
  rfl

/-- The graph `h` has `new` wherever `g` has `id`, and nothing below `id`. Both
are marked. -/
structure Replaced (g : Graph) (id new : NodeId) (h : Graph) : Prop where
  balanced : h.Balanced
  size : h.size = g.size
  label : ∀ j, h.label? j = g.label? j
  visited : ∀ j, h.visited? j = if j = id ∨ j = new then some true else g.visited? j
  inputs_self : h.inputsOf id = []
  inputs_other : ∀ j, j ≠ id →
    h.inputsOf j = (g.inputsOf j).map fun c => if c = id then new else c

/-- Whether `c` lists `p` as a parent. -/
def lists (g : Graph) (p c : NodeId) : Bool := decide (p ∈ g.parentsOf c)

/-- The graph `h` has `new` where `g` has `id` in a node that follows, and nothing
below `id`. Both are marked. -/
structure Rerouted (g : Graph) (follows : NodeId → Bool) (id new : NodeId) (h : Graph) : Prop where
  size : h.size = g.size
  label : ∀ j, h.label? j = g.label? j
  visited : ∀ j, h.visited? j = if j = id ∨ j = new then some true else g.visited? j
  inputs_self : h.inputsOf id = []
  inputs_other : ∀ j, j ≠ id →
    h.inputsOf j = (g.inputsOf j).map fun c => if c = id ∧ follows j then new else c

theorem Replaced.rerouted {g h : Graph} {id new : NodeId} (hr : g.Replaced id new h) :
    g.Rerouted (fun _ => true) id new h where
  size := hr.size
  label := hr.label
  visited := hr.visited
  inputs_self := hr.inputs_self
  inputs_other j hj := by simp only [hr.inputs_other j hj, and_true]

/-- On balanced edges a node lists everything that holds it. -/
theorem Rerouted.replaced {g h : Graph} {id new : NodeId} (hg : g.Balanced) (hh : h.Balanced)
    (hr : g.Rerouted (g.lists · id) id new h) : g.Replaced id new h where
  balanced := hh
  size := hr.size
  label := hr.label
  visited := hr.visited
  inputs_self := hr.inputs_self
  inputs_other j hj := by
    rw [hr.inputs_other j hj]
    refine List.map_congr_left fun c hc => ?_
    have hiff : c = id ∧ g.lists j id = true ↔ c = id :=
      and_iff_left_of_imp fun h => decide_eq_true (hg.mem_parentsOf_iff.2 (h ▸ hc))
    simp only [hiff]

end Graph

/-- What became of a graph: the graph that it is now, and for every node of it the
node that stands in its place. -/
structure Rewrite where
  graph : Graph
  standIn : NodeId → NodeId

/-- The graph `g` was rewritten by putting new literals in the places of some of
the nodes in `done`. -/
structure Rewritten (g : Graph) (done : List NodeId) (w : Rewrite) : Prop where
  balanced : w.graph.Balanced
  size : g.size ≤ w.graph.size
  label : ∀ id < g.size, w.graph.label? id = g.label? id
  kept : ∀ id < g.size, w.standIn id = id → w.graph.inputsOf id = (g.inputsOf id).map w.standIn
  gone : ∀ id, w.standIn id ≠ id → w.graph.inputsOf id = []
  done_lt : ∀ id ∈ done, id < g.size
  replaced : ∀ id, w.standIn id ≠ id →
    id ∈ done ∧ g.size ≤ w.standIn id ∧ w.standIn id < w.graph.size
  fresh : ∀ id, g.size ≤ id → id < w.graph.size →
    ∃ v, w.graph.label? id = some (.literal v) ∧ w.graph.inputsOf id = []

/-- The same where a slot of `q` that held `c` follows the substitution only if
`follows q c`. Nothing is said about the parents. -/
structure Patched (g : Graph) (follows : NodeId → NodeId → Bool) (done : List NodeId)
    (w : Rewrite) : Prop where
  size : g.size ≤ w.graph.size
  label : ∀ id < g.size, w.graph.label? id = g.label? id
  kept : ∀ id < g.size, w.standIn id = id →
    w.graph.inputsOf id = (g.inputsOf id).map fun c => if follows id c then w.standIn c else c
  gone : ∀ id, w.standIn id ≠ id → w.graph.inputsOf id = []
  done_lt : ∀ id ∈ done, id < g.size
  replaced : ∀ id, w.standIn id ≠ id →
    id ∈ done ∧ g.size ≤ w.standIn id ∧ w.standIn id < w.graph.size
  fresh : ∀ id, g.size ≤ id → id < w.graph.size →
    ∃ v, w.graph.label? id = some (.literal v) ∧ w.graph.inputsOf id = []

section Patched

variable {g : Graph} {follows : NodeId → NodeId → Bool} {done : List NodeId} {w : Rewrite}
  {id : NodeId}

theorem Patched.standIn_eq (h : Patched g follows done w) (hid : id ∉ done) :
    w.standIn id = id := by
  by_cases hne : w.standIn id = id
  · exact hne
  · exact absurd (h.replaced id hne).1 hid

theorem Patched.standIn_lt (h : Patched g follows done w) (hid : id < g.size) :
    w.standIn id < w.graph.size := by
  by_cases hne : w.standIn id = id
  · rw [hne]
    exact Nat.lt_of_lt_of_le hid h.size
  · exact (h.replaced id hne).2.2

theorem Patched.keep (h : Patched g follows done w) (hid : id < g.size) :
    Patched g follows (id :: done) ⟨w.graph.mark id true, w.standIn⟩ := by
  refine ⟨?_, ?_, ?_, ?_, List.forall_mem_cons.2 ⟨hid, h.done_lt⟩, ?_, ?_⟩
  · rw [Graph.size_mark]
    exact h.size
  · intro j hj
    rw [Graph.label?_mark, h.label j hj]
  · intro j hj hself
    rw [Graph.inputsOf_mark]
    exact h.kept j hj hself
  · intro j hne
    rw [Graph.inputsOf_mark]
    exact h.gone j hne
  · intro j hne
    obtain ⟨hmem, hge, hltj⟩ := h.replaced j hne
    refine ⟨List.mem_cons_of_mem _ hmem, hge, ?_⟩
    rw [Graph.size_mark]
    exact hltj
  · intro j hge hltj
    rw [Graph.size_mark] at hltj
    rw [Graph.label?_mark, Graph.inputsOf_mark]
    exact h.fresh j hge hltj

theorem Patched.literal (h : Patched g follows done w) (hid : id < g.size) (hnew : id ∉ done)
    {v : Value} {k : Graph}
    (hk : (w.graph.push (Graph.literalNode v)).Rerouted (follows · id) id w.graph.size k) :
    Patched g follows (id :: done)
      ⟨k, fun j => if j = id then w.graph.size else w.standIn j⟩ := by
  have hself : w.standIn id = id := h.standIn_eq hnew
  have hsize : k.size = w.graph.size + 1 := by rw [hk.size, Graph.size_push]
  -- The number of the new literal is used for no node of the graph.
  have hold : ∀ j < g.size, j ≠ w.graph.size := fun j hj =>
    Nat.ne_of_lt (Nat.lt_of_lt_of_le hj h.size)
  have hinputs : ∀ j, j ≠ id → k.inputsOf j =
      (w.graph.inputsOf j).map fun c => if c = id ∧ follows j id then w.graph.size else c := by
    intro j hji
    rw [hk.inputs_other j hji, Graph.inputsOf_push_literal]
  -- Replacing in what a slot holds is what the slot holds afterwards.
  have hheld : ∀ j c, (if (if follows j c then w.standIn c else c) = id ∧ follows j id then
        w.graph.size else if follows j c then w.standIn c else c) =
      if follows j c then (if c = id then w.graph.size else w.standIn c) else c := by
    intro j c
    by_cases hc : c = id
    · subst hc
      by_cases hf : follows j c = true
      · simp [hf, hself]
      · simp [hf]
    · have hne : w.standIn c ≠ id := by
        by_cases hne : w.standIn c = c
        · rwa [hne]
        · exact Nat.ne_of_gt (Nat.lt_of_lt_of_le hid (h.replaced c hne).2.1)
      by_cases hf : follows j c = true
      · simp [hf, hc, hne]
      · simp [hf, hc]
  refine ⟨?_, ?_, ?_, ?_, List.forall_mem_cons.2 ⟨hid, h.done_lt⟩, ?_, ?_⟩
  · show g.size ≤ k.size
    rw [hsize]
    exact Nat.le_succ_of_le h.size
  · intro j hj
    show k.label? j = _
    rw [hk.label, Graph.label?_push, if_neg (hold j hj), h.label j hj]
  · intro j hj hkeep
    simp only at hkeep
    by_cases hji : j = id
    · rw [if_pos hji] at hkeep
      exact absurd hkeep.symm (hold j hj)
    · rw [if_neg hji] at hkeep
      show k.inputsOf j = _
      rw [hinputs j hji, h.kept j hj hkeep, List.map_map]
      exact List.map_congr_left fun c _ => hheld j c
  · intro j hne
    show k.inputsOf j = []
    by_cases hji : j = id
    · rw [hji, hk.inputs_self]
    · simp only [if_neg hji] at hne
      rw [hinputs j hji, h.gone j hne, List.map_nil]
  · intro j hne
    show j ∈ id :: done ∧ _ ∧ _ < k.size
    simp only at hne ⊢
    rw [hsize]
    by_cases hji : j = id
    · rw [if_pos hji]
      exact ⟨hji ▸ List.mem_cons_self .., h.size, Nat.lt_succ_self _⟩
    · rw [if_neg hji] at hne ⊢
      obtain ⟨hmem, hge, hltj⟩ := h.replaced j hne
      exact ⟨List.mem_cons_of_mem _ hmem, hge, Nat.lt_succ_of_lt hltj⟩
  · intro j hge hltj
    have hji : j ≠ id := Nat.ne_of_gt (Nat.lt_of_lt_of_le hid hge)
    show ∃ v, k.label? j = _ ∧ k.inputsOf j = []
    rw [hk.label, Graph.label?_push, hinputs j hji]
    by_cases hjn : j = w.graph.size
    · refine ⟨v, if_pos hjn, ?_⟩
      rw [hjn, Graph.inputsOf, Graph.node?_eq_none (Nat.le_refl _)]
      rfl
    · have hjlt : j < w.graph.size :=
        Nat.lt_of_le_of_ne (Nat.le_of_lt_succ (Nat.lt_of_lt_of_eq hltj hsize)) hjn
      obtain ⟨u, hlabel, hin⟩ := h.fresh j hge hjlt
      refine ⟨u, ?_, ?_⟩
      · rw [if_neg hjn, hlabel]
      · rw [hin, List.map_nil]

end Patched

section Rewritten

variable {g : Graph} {done : List NodeId} {w : Rewrite} {id : NodeId}

theorem Rewritten.patched (h : Rewritten g done w) : Patched g (fun _ _ => true) done w where
  size := h.size
  label := h.label
  kept j hj hself := by simp only [h.kept j hj hself, if_true]
  gone := h.gone
  done_lt := h.done_lt
  replaced := h.replaced
  fresh := h.fresh

/-- Where all slots follow and edges are balanced, the graph is rewritten. -/
theorem Patched.rewritten {follows : NodeId → NodeId → Bool} (h : Patched g follows done w)
    (hfollows : ∀ q c, c ∈ g.inputsOf q → follows q c = true) (hbalanced : w.graph.Balanced) :
    Rewritten g done w where
  balanced := hbalanced
  size := h.size
  label := h.label
  kept j hj hself := by
    rw [h.kept j hj hself]
    exact List.map_congr_left fun c hc => if_pos (hfollows j c hc)
  gone := h.gone
  done_lt := h.done_lt
  replaced := h.replaced
  fresh := h.fresh

theorem Rewritten.standIn_eq (h : Rewritten g done w) (hid : id ∉ done) : w.standIn id = id :=
  h.patched.standIn_eq hid

theorem Rewritten.standIn_lt (h : Rewritten g done w) (hid : id < g.size) :
    w.standIn id < w.graph.size :=
  h.patched.standIn_lt hid

/-- Marks play no part in what a pass makes of a graph. -/
theorem Rewritten.congr {k : Graph} (h : Rewritten k done w) (hsize : k.size = g.size)
    (hlabel : ∀ j, k.label? j = g.label? j) (hinputs : ∀ j, k.inputsOf j = g.inputsOf j) :
    Rewritten g done w where
  balanced := h.balanced
  size := hsize ▸ h.size
  label j hj := by rw [h.label j (hsize ▸ hj), hlabel]
  kept j hj hself := by rw [h.kept j (hsize ▸ hj) hself, hinputs]
  gone := h.gone
  done_lt j hj := hsize ▸ h.done_lt j hj
  replaced j hne := hsize ▸ h.replaced j hne
  fresh j hge := h.fresh j (hsize ▸ hge)

end Rewritten

namespace Pass

variable {σ α β : Type}

/-- What a pass has made of its graph so far. -/
abbrev rewrite (p : Pass σ) : Rewrite := ⟨p.graph, p.standIn⟩

theorem modify_bind (f : Pass σ → Pass σ) (next : PUnit → PassM σ β) (p : Pass σ) :
    ((modify f : PassM σ PUnit) >>= next) p = next () (f p) :=
  rfl

theorem edit_ok {e : Edit α} {p : Pass σ} {a : α} {g : Graph} (h : e p.graph = .ok a g) :
    edit e p = .ok a ⟨⟨g, p.tally, p.memory⟩, p.substitutes⟩ := by
  rw [edit, h]

theorem of_edit {e : Edit α} {p p' : Pass σ} {a : α} (h : edit e p = .ok a p') :
    ∃ g, e p.graph = .ok a g ∧ p' = ⟨⟨g, p.tally, p.memory⟩, p.substitutes⟩ := by
  unfold edit at h
  split at h
  · cases h
    exact ⟨_, by assumption, rfl⟩
  · cases h

theorem ask_node_ok {p : Pass σ} {id : NodeId} {n : Node} (h : p.graph.node? id = some n) :
    (edit (Edit.ask (·.node id)) : PassM σ Node) p = .ok n p := by
  refine edit_ok ?_
  rw [Edit.ask, Graph.node_eq_ok_iff.2 h]

theorem standIn_cons (s : Session σ) (old : List (NodeId × NodeId)) (id new j : NodeId) :
    Pass.standIn ⟨s, (id, new) :: old⟩ j = if j = id then new else Pass.standIn ⟨s, old⟩ j := by
  unfold standIn
  rw [List.lookup_cons]
  by_cases h : j = id
  · simp [h]
  · simp [beq_eq_false_iff_ne.2 h, h]

theorem settle_self {p : Pass σ} {id : NodeId} (hid : id < p.graph.size) :
    settle id id p = .ok id ⟨⟨p.graph.mark id true, p.tally, p.memory⟩, p.substitutes⟩ := by
  unfold settle
  rw [if_pos rfl, bind_ok (edit_ok (Graph.setVisited_apply hid true))]
  rfl

/-- What is left when the uses of a node went to another one, the node lost its
inputs, and both were marked. -/
theorem rerouted_of_edits {g g₁ g₂ : Graph} {id new : NodeId} {n : Nat} {all : List NodeId}
    (hid : id < g.size) (hnew : new < g.size) (hne : new ≠ id)
    (hreplace : Graph.replaceUses id new g = .ok n g₁)
    (hdetach : Graph.detachInputs id g₁ = .ok all g₂) :
    g₂.size = g.size ∧ g.Rerouted (g.lists · id) id new ((g₂.mark new true).mark id true) ∧
      ∀ q c, ((g₂.mark new true).mark id true).excess q c = g.excess q c := by
  obtain ⟨_, hrun, hm, hexcess⟩ := Graph.replaceUses_moved hid hnew (Ne.symm hne)
    (Graph.usesAgree_of_replaceUses hreplace)
  rw [hreplace] at hrun
  cases hrun
  have he := Graph.emptied_of_detachInputs (hm.size ▸ hid) hdetach
  have hsize : g₂.size = g.size := he.size.trans hm.size
  have hid₂ : id < (g₂.mark new true).size := by rw [Graph.size_mark, hsize]; exact hid
  refine ⟨hsize, ⟨?_, fun j => ?_, fun j => ?_, ?_, fun j hj => ?_⟩, fun q c => ?_⟩
  · rw [Graph.size_mark, Graph.size_mark, hsize]
  · rw [Graph.label?_mark, Graph.label?_mark, he.label, hm.label]
  · rw [Graph.visited?_mark hid₂, Graph.visited?_mark (hsize ▸ hnew), he.visited, hm.visited]
    by_cases hj : j = id
    · simp [hj]
    · by_cases hj' : j = new
      · simp [hj']
      · simp [hj, hj', Ne.symm hj, Ne.symm hj']
  · rw [Graph.inputsOf_mark, Graph.inputsOf_mark, he.inputs_self]
  · rw [Graph.inputsOf_mark, Graph.inputsOf_mark, he.inputs_other j hj, hm.inputsOf_holders]
    simp only [Graph.lists, decide_eq_true_eq]
  · rw [← hexcess q c, ← he.excess q c]
    exact Graph.excess_of_views
      (fun j => by rw [Graph.inputsOf_mark, Graph.inputsOf_mark])
      (fun j => by rw [Graph.parentsOf_mark, Graph.parentsOf_mark]) q c

/-- Putting a substitute in the place of a node goes through if the two edits of
the graph do. -/
theorem settle_of_edits {p : Pass σ} {id new : NodeId} {g₁ g₂ : Graph} {n : Nat}
    {all : List NodeId} (hid : id < p.graph.size) (hnew : new < p.graph.size) (hne : new ≠ id)
    (hreplace : Graph.replaceUses id new p.graph = .ok n g₁)
    (hdetach : Graph.detachInputs id g₁ = .ok all g₂) :
    settle id new p = .ok new ⟨⟨(g₂.mark new true).mark id true, p.tally, p.memory⟩,
      (id, new) :: p.substitutes⟩ := by
  obtain ⟨hsize, -⟩ := rerouted_of_edits hid hnew hne hreplace hdetach
  have hid₂ : id < (g₂.mark new true).size := by rw [Graph.size_mark, hsize]; exact hid
  unfold settle
  rw [if_neg hne, bind_ok (edit_ok hreplace), bind_ok (edit_ok hdetach),
    bind_ok (edit_ok (Graph.setVisited_apply (hsize ▸ hnew) true)), modify_bind,
    bind_ok (edit_ok (Graph.setVisited_apply hid₂ true))]
  rfl

/-- A substitute that was put in the place of a node stands in all slots that the
node knows of. -/
theorem rerouted_of_settle {p p' : Pass σ} {id new x : NodeId} (hid : id < p.graph.size)
    (hnew : new < p.graph.size) (hne : new ≠ id) (hrun : settle id new p = .ok x p') :
    p.graph.UsesAgree id ∧ ∃ h, x = new ∧
      p' = ⟨⟨h, p.tally, p.memory⟩, (id, new) :: p.substitutes⟩ ∧
      p.graph.Rerouted (p.graph.lists · id) id new h ∧
      ∀ q c, h.excess q c = p.graph.excess q c := by
  have hsettle := hrun
  unfold settle at hsettle
  rw [if_neg hne] at hsettle
  obtain ⟨n, p₁, hedit₁, hrest⟩ := bind_eq_ok hsettle
  obtain ⟨g₁, hreplace, rfl⟩ := of_edit hedit₁
  obtain ⟨all, p₂, hedit₂, -⟩ := bind_eq_ok hrest
  obtain ⟨g₂, hdetach, rfl⟩ := of_edit hedit₂
  rw [settle_of_edits hid hnew hne hreplace hdetach] at hrun
  obtain ⟨rfl, rfl⟩ := EStateM.Result.ok.inj hrun
  obtain ⟨-, hr, hexcess⟩ := rerouted_of_edits hid hnew hne hreplace hdetach
  exact ⟨Graph.usesAgree_of_replaceUses hreplace, _, rfl, rfl, hr, hexcess⟩

/-- It goes through if every parent that the node lists holds it as often, and every
input lists the node often enough. -/
theorem exists_settle {p : Pass σ} {id new : NodeId} (hid : id < p.graph.size)
    (hnew : new < p.graph.size) (hne : new ≠ id) (hagree : p.graph.UsesAgree id)
    (hexcess : ∀ c, 0 ≤ p.graph.excess id c) : ∃ p', settle id new p = .ok new p' := by
  obtain ⟨g₁, hreplace, hm, hsame⟩ := Graph.replaceUses_moved hid hnew (Ne.symm hne) hagree
  obtain ⟨all, g₂, hdetach⟩ :=
    Graph.exists_detachInputs (hm.size ▸ hid) fun c => (hsame id c).symm ▸ hexcess c
  exact ⟨_, settle_of_edits hid hnew hne hreplace hdetach⟩

theorem settle_other {p : Pass σ} {id new : NodeId} (hg : p.graph.Balanced)
    (hid : id < p.graph.size) (hnew : new < p.graph.size) (hne : new ≠ id) :
    ∃ h, settle id new p =
        .ok new ⟨⟨h, p.tally, p.memory⟩, (id, new) :: p.substitutes⟩ ∧
      p.graph.Replaced id new h := by
  obtain ⟨p', hrun⟩ := exists_settle hid hnew hne (fun q _ => (hg q id).symm)
    fun c => Int.le_of_eq (hg.excess_eq id c).symm
  obtain ⟨-, h, -, rfl, hr, hexcess⟩ := rerouted_of_settle hid hnew hne hrun
  exact ⟨h, hrun, hr.replaced hg (hg.of_excess hexcess)⟩

theorem consult_ok {rule : NodeRule σ} {p : Pass σ} {id : NodeId} {v : Verdict} {t : Tally} {m : σ}
    (h : rule p.graph id p.tally p.memory = (.ok v, t, m)) :
    consult rule id p = .ok v ⟨⟨p.graph, t, m⟩, p.substitutes⟩ := by
  rw [consult, h]

section Finish

variable {rule : NodeRule σ} {p p' : Pass σ} {id new : NodeId} {t : Tally} {m : σ}

theorem finish_of_keep
    (h : rule p.graph id p.tally.countVisit p.memory = (.ok .keep, t, m)) :
    finish rule id p = settle id id ⟨⟨p.graph, t, m⟩, p.substitutes⟩ := by
  unfold finish
  rw [modify_bind, bind_ok (consult_ok h)]

theorem finish_of_use {x : NodeId}
    (h : rule p.graph id p.tally.countVisit p.memory = (.ok (.use x), t, m)) :
    finish rule id p = settle id x ⟨⟨p.graph, t, m⟩, p.substitutes⟩ := by
  unfold finish
  rw [modify_bind, bind_ok (consult_ok h)]

theorem finish_of_literal {v : Value}
    (h : rule p.graph id p.tally.countVisit p.memory = (.ok (.literal v), t, m)) :
    finish rule id p = settle id p.graph.size
      ⟨⟨p.graph.push (Graph.literalNode v), t, m⟩, p.substitutes⟩ := by
  unfold finish
  rw [modify_bind, bind_ok (consult_ok h)]
  have hadd : (edit (Graph.addLiteral v) : PassM σ NodeId) ⟨⟨p.graph, t, m⟩, p.substitutes⟩ =
      .ok p.graph.size ⟨⟨p.graph.push (Graph.literalNode v), t, m⟩, p.substitutes⟩ :=
    edit_ok (Graph.addLiteral_apply v p.graph)
  exact bind_ok hadd

theorem finish_of_error {e : GraphError}
    (h : rule p.graph id p.tally.countVisit p.memory = (.error e, t, m)) :
    finish rule id p = .error e ⟨⟨p.graph, t, m⟩, p.substitutes⟩ := by
  have hconsult : consult rule id ⟨⟨p.graph, p.tally.countVisit, p.memory⟩, p.substitutes⟩ =
      .error e ⟨⟨p.graph, t, m⟩, p.substitutes⟩ := by
    rw [consult, h]
  unfold finish
  rw [modify_bind]
  exact bind_error hconsult

theorem finish_keep (hid : id < p.graph.size)
    (h : rule p.graph id p.tally.countVisit p.memory = (.ok .keep, t, m)) :
    finish rule id p = .ok id ⟨⟨p.graph.mark id true, t, m⟩, p.substitutes⟩ :=
  (finish_of_keep h).trans (settle_self hid)

theorem finish_literal {v : Value} (hg : p.graph.Balanced) (hid : id < p.graph.size)
    (h : rule p.graph id p.tally.countVisit p.memory = (.ok (.literal v), t, m)) :
    ∃ h, finish rule id p =
        .ok p.graph.size ⟨⟨h, t, m⟩, (id, p.graph.size) :: p.substitutes⟩ ∧
      (p.graph.push (Graph.literalNode v)).Replaced id p.graph.size h := by
  have hsize : (p.graph.push (Graph.literalNode v)).size = p.graph.size + 1 := Graph.size_push _ _
  rw [finish_of_literal h]
  exact settle_other (p := ⟨⟨p.graph.push (Graph.literalNode v), t, m⟩, p.substitutes⟩)
    (hg.push_literal v) (hsize ▸ Nat.lt_succ_of_lt hid) (hsize ▸ Nat.lt_succ_self _)
    (Nat.ne_of_gt hid)

theorem substitutes_of_settle {x : NodeId} (hrun : settle id new p = .ok x p') :
    (x = id ∧ p'.substitutes = p.substitutes) ∨ p'.substitutes = (id, x) :: p.substitutes := by
  unfold settle at hrun
  by_cases hself : new = id
  · rw [if_pos hself] at hrun
    obtain ⟨_, _, hmark, hrun⟩ := bind_eq_ok hrun
    obtain ⟨_, -, rfl⟩ := of_edit hmark
    obtain ⟨rfl, rfl⟩ := EStateM.Result.ok.inj hrun
    exact .inl ⟨rfl, rfl⟩
  · rw [if_neg hself] at hrun
    obtain ⟨_, _, hreplace, hrun⟩ := bind_eq_ok hrun
    obtain ⟨_, -, rfl⟩ := of_edit hreplace
    obtain ⟨_, _, hdetach, hrun⟩ := bind_eq_ok hrun
    obtain ⟨_, -, rfl⟩ := of_edit hdetach
    obtain ⟨_, _, hmark, hrun⟩ := bind_eq_ok hrun
    obtain ⟨_, -, rfl⟩ := of_edit hmark
    rw [modify_bind] at hrun
    obtain ⟨_, _, hmark, hrun⟩ := bind_eq_ok hrun
    obtain ⟨_, -, rfl⟩ := of_edit hmark
    obtain ⟨rfl, rfl⟩ := EStateM.Result.ok.inj hrun
    exact .inr rfl

/-- A node that is handed over gets a substitute, or none, and no other node does. -/
theorem standIn_of_finish (hself : p.standIn id = id) (hrun : finish rule id p = .ok new p') :
    new = p'.standIn id ∧ ∀ j, j ≠ id → p'.standIn j = p.standIn j := by
  have hsubs : (new = id ∧ p'.substitutes = p.substitutes) ∨
      p'.substitutes = (id, new) :: p.substitutes := by
    rcases hanswer : rule p.graph id p.tally.countVisit p.memory with ⟨verdict, t, m⟩
    cases verdict with
    | error e =>
        rw [finish_of_error hanswer] at hrun
        cases hrun
    | ok v =>
        cases v with
        | keep =>
            rw [finish_of_keep hanswer] at hrun
            have hsettle := substitutes_of_settle hrun
            exact hsettle
        | use x =>
            rw [finish_of_use hanswer] at hrun
            have hsettle := substitutes_of_settle hrun
            exact hsettle
        | literal v =>
            rw [finish_of_literal hanswer] at hrun
            have hsettle := substitutes_of_settle hrun
            exact hsettle
  have hlookup : ∀ (q : Pass σ) j, q.standIn j = (q.substitutes.lookup j).getD j := fun _ _ => rfl
  rcases hsubs with ⟨rfl, hsame⟩ | hcons
  · have hall : ∀ j, p'.standIn j = p.standIn j := fun j => by rw [hlookup, hsame, ← hlookup]
    exact ⟨((hall new).trans hself).symm, fun j _ => hall j⟩
  · have hall : ∀ j, p'.standIn j = if j = id then new else p.standIn j := fun j => by
      rw [hlookup, hcons]
      exact standIn_cons p.toSession p.substitutes id new j
    exact ⟨by rw [hall, if_pos rfl], fun j hj => by rw [hall, if_neg hj]⟩

end Finish

/-- A pass in progress: the nodes in `done` and all new ones are marked, and the
other marks are those of `g`. -/
structure Tracks (g : Graph) (done : List NodeId) (p : Pass σ) : Prop
    extends Rewritten g done p.rewrite where
  visited : ∀ id < g.size, p.graph.visited? id = if id ∈ done then some true else g.visited? id
  fresh_visited : ∀ id, g.size ≤ id → id < p.graph.size → p.graph.visited? id = some true

/-- The same where not all slots may follow. -/
structure Traces (g : Graph) (follows : NodeId → NodeId → Bool) (done : List NodeId)
    (p : Pass σ) : Prop extends Patched g follows done p.rewrite where
  visited : ∀ id < g.size, p.graph.visited? id = if id ∈ done then some true else g.visited? id
  fresh_visited : ∀ id, g.size ≤ id → id < p.graph.size → p.graph.visited? id = some true

theorem traces_start (g : Graph) (follows : NodeId → NodeId → Bool) (t : Tally) (m : σ) :
    Traces g follows [] ⟨⟨g, t, m⟩, []⟩ where
  size := Nat.le_refl _
  label _ _ := rfl
  kept id _ _ := by
    have hself : ∀ c ∈ g.inputsOf id, (if follows id c then c else c) = c := fun c _ => ite_self c
    exact ((List.map_congr_left hself).trans (List.map_id' _)).symm
  gone _ h := absurd rfl h
  done_lt _ h := absurd h List.not_mem_nil
  replaced _ h := absurd rfl h
  fresh id hge hlt := absurd hlt (Nat.not_lt.2 hge)
  visited _ _ := by simp
  fresh_visited id hge hlt := absurd hlt (Nat.not_lt.2 hge)

section Views

variable {g : Graph} {follows : NodeId → NodeId → Bool} {done : List NodeId} {p : Pass σ}
  {id : NodeId}

theorem Tracks.traces (h : Tracks g done p) : Traces g (fun _ _ => true) done p :=
  ⟨h.toRewritten.patched, h.visited, h.fresh_visited⟩

theorem Traces.tracks (h : Traces g follows done p)
    (hfollows : ∀ q c, c ∈ g.inputsOf q → follows q c = true) (hbalanced : p.graph.Balanced) :
    Tracks g done p :=
  ⟨h.toPatched.rewritten hfollows hbalanced, h.visited, h.fresh_visited⟩

theorem tracks_start (hg : g.Balanced) (t : Tally) (m : σ) : Tracks g [] ⟨⟨g, t, m⟩, []⟩ :=
  (traces_start g (fun _ _ => true) t m).tracks (fun _ _ _ => rfl) hg

theorem Traces.keep (h : Traces g follows done p) (hid : id < g.size) (t : Tally) (m : σ) :
    Traces g follows (id :: done) ⟨⟨p.graph.mark id true, t, m⟩, p.substitutes⟩ := by
  have hlt : id < p.graph.size := Nat.lt_of_lt_of_le hid h.size
  refine ⟨h.toPatched.keep hid, ?_, ?_⟩
  · intro j hj
    rw [Graph.visited?_mark hlt, h.visited j hj]
    by_cases hji : id = j
    · simp [hji]
    · simp [hji, Ne.symm hji]
  · intro j hge hltj
    rw [Graph.size_mark] at hltj
    rw [Graph.visited?_mark hlt, h.fresh_visited j hge hltj]
    split <;> rfl

theorem Tracks.keep (h : Tracks g done p) (hid : id < g.size) (t : Tally) (m : σ) :
    Tracks g (id :: done) ⟨⟨p.graph.mark id true, t, m⟩, p.substitutes⟩ :=
  (h.traces.keep hid t m).tracks (fun _ _ _ => rfl) (h.balanced.mark id true)

theorem Traces.literal (h : Traces g follows done p) (hid : id < g.size) (hnew : id ∉ done)
    {v : Value} {k : Graph}
    (hk : (p.graph.push (Graph.literalNode v)).Rerouted (follows · id) id p.graph.size k)
    (t : Tally) (m : σ) :
    Traces g follows (id :: done) ⟨⟨k, t, m⟩, (id, p.graph.size) :: p.substitutes⟩ := by
  have hsize : k.size = p.graph.size + 1 := by rw [hk.size, Graph.size_push]
  have hrewrite : rewrite (⟨⟨k, t, m⟩, (id, p.graph.size) :: p.substitutes⟩ : Pass σ) =
      ⟨k, fun j => if j = id then p.graph.size else p.standIn j⟩ := by
    rw [rewrite, funext (standIn_cons _ _ _ _)]
    rfl
  refine ⟨hrewrite ▸ h.toPatched.literal hid hnew hk, ?_, ?_⟩
  · intro j hj
    have hjn : j ≠ p.graph.size := Nat.ne_of_lt (Nat.lt_of_lt_of_le hj h.size)
    show k.visited? j = _
    rw [hk.visited, Graph.visited?_push, if_neg hjn, h.visited j hj]
    by_cases hji : j = id
    · simp [hji]
    · simp [hji, hjn]
  · intro j hge hltj
    show k.visited? j = _
    rw [hk.visited, Graph.visited?_push]
    by_cases hjn : j = p.graph.size
    · rw [if_pos (Or.inr hjn)]
    · have hjlt : j < p.graph.size :=
        Nat.lt_of_le_of_ne (Nat.le_of_lt_succ (Nat.lt_of_lt_of_eq hltj hsize)) hjn
      rw [if_neg hjn, h.fresh_visited j hge hjlt]
      split <;> rfl

theorem Tracks.literal (h : Tracks g done p) (hid : id < g.size) (hnew : id ∉ done) {v : Value}
    {k : Graph} (hk : (p.graph.push (Graph.literalNode v)).Replaced id p.graph.size k) (t : Tally)
    (m : σ) : Tracks g (id :: done) ⟨⟨k, t, m⟩, (id, p.graph.size) :: p.substitutes⟩ :=
  (h.traces.literal hid hnew hk.rerouted t m).tracks (fun _ _ _ => rfl) hk.balanced

end Views

/-- What becomes of a node that is handed over. -/
inductive Finished (rule : NodeRule σ) (p : Pass σ) (id : NodeId) (p' : Pass σ) : Prop
  | keep (verdict : rule p.graph id p.tally.countVisit p.memory = (.ok .keep, p'.tally, p'.memory))
      (standIn : ∀ j, p'.standIn j = p.standIn j)
      (label : ∀ j, p'.graph.label? j = p.graph.label? j)
  | literal (v : Value)
      (verdict : rule p.graph id p.tally.countVisit p.memory =
        (.ok (.literal v), p'.tally, p'.memory))
      (standIn : ∀ j, p'.standIn j = if j = id then p.graph.size else p.standIn j)
      (label : ∀ j, p'.graph.label? j =
        if j = p.graph.size then some (.literal v) else p.graph.label? j)

/-- A rule that keeps every node or puts a literal in its place, and finds
nothing wrong with a balanced graph. -/
def PutsLiterals (rule : NodeRule σ) : Prop :=
  ∀ (g : Graph) (id : NodeId) (t : Tally) (m : σ), g.Balanced → id < g.size →
    (rule g id t m).1 = .ok .keep ∨ ∃ v, (rule g id t m).1 = .ok (.literal v)

variable {rule : NodeRule σ}

theorem Tracks.finish {g : Graph} {done : List NodeId} {p : Pass σ} {id : NodeId}
    (hrule : PutsLiterals rule) (h : Tracks g done p) (hid : id < g.size) (hnew : id ∉ done) :
    ∃ p', finish rule id p = .ok (p'.standIn id) p' ∧ Tracks g (id :: done) p' ∧
      Finished rule p id p' := by
  have hlt : id < p.graph.size := Nat.lt_of_lt_of_le hid h.size
  have hself : p.standIn id = id := h.standIn_eq hnew
  rcases hanswer : rule p.graph id p.tally.countVisit p.memory with ⟨verdict, t, m⟩
  have hverdict := hrule p.graph id p.tally.countVisit p.memory h.balanced hlt
  rw [hanswer] at hverdict
  rcases hverdict with hkeep | ⟨v, hlit⟩
  · simp only at hkeep
    subst hkeep
    refine ⟨⟨⟨p.graph.mark id true, t, m⟩, p.substitutes⟩, ?_, h.keep hid t m, ?_⟩
    · rw [finish_keep hlt hanswer]
      exact congrArg (fun x => EStateM.Result.ok x _) hself.symm
    · exact .keep hanswer (fun _ => rfl) (Graph.label?_mark p.graph id true)
  · simp only at hlit
    subst hlit
    obtain ⟨k, hrun, hk⟩ := finish_literal h.balanced hlt hanswer
    refine ⟨⟨⟨k, t, m⟩, (id, p.graph.size) :: p.substitutes⟩, ?_, h.literal hid hnew hk t m, ?_⟩
    · rw [hrun, standIn_cons, if_pos rfl]
    · refine .literal v hanswer (fun j => standIn_cons _ _ _ _ _) fun j => ?_
      show k.label? j = _
      rw [hk.label, Graph.label?_push]
      rfl

/-- The pass `p` comes from `p₀` by handing over nodes, the first one of the list
last. -/
inductive Processed (rule : NodeRule σ) (p₀ : Pass σ) : List NodeId → Pass σ → Prop
  | start : Processed rule p₀ [] p₀
  | step {done : List NodeId} {p p' : Pass σ} {id new : NodeId} : Processed rule p₀ done p →
      finish rule id p = .ok new p' → Processed rule p₀ (id :: done) p'

/-- An induction along a pass over nodes that come after their inputs. -/
theorem Processed.induct {g : Graph} {p₀ : Pass σ} {motive : List NodeId → Pass σ → Prop}
    (hrule : PutsLiterals rule) (hp₀ : Tracks g [] p₀) (hstart : motive [] p₀)
    (hstep : ∀ done p id p', Tracks g done p → motive done p → id < g.size → id ∉ done →
      (∀ c ∈ g.inputsOf id, c ∈ done) → Finished rule p id p' → motive (id :: done) p')
    {done : List NodeId} {p : Pass σ} (h : Processed rule p₀ done p)
    (horder : g.ChildrenFirst done) (hlt : ∀ id ∈ done, id < g.size) :
    Tracks g done p ∧ motive done p := by
  induction h with
  | start => exact ⟨hp₀, hstart⟩
  | @step done p p' id new _ hrun ih =>
      obtain ⟨hnew, hinputs, hrest⟩ := horder
      have hid := hlt id (List.mem_cons_self ..)
      obtain ⟨htracks, hmotive⟩ := ih hrest fun j hj => hlt j (List.mem_cons_of_mem _ hj)
      obtain ⟨q, hrun', htracks', hfinished⟩ := htracks.finish hrule hid hnew
      rw [hrun] at hrun'
      cases hrun'
      exact ⟨htracks', hstep done p id p' htracks hmotive hid hnew hinputs hfinished⟩

theorem Processed.tracks {g : Graph} {p₀ : Pass σ} (hrule : PutsLiterals rule)
    (hp₀ : Tracks g [] p₀) {done : List NodeId} {p : Pass σ} (h : Processed rule p₀ done p)
    (horder : g.ChildrenFirst done) (hlt : ∀ id ∈ done, id < g.size) : Tracks g done p :=
  (h.induct (motive := fun _ _ => True) hrule hp₀ trivial
    (fun _ _ _ _ _ _ _ _ _ _ => trivial) horder hlt).1

end Pass

end OpGraph
