import OpGraph.Proofs.Safety

/-!
# One pass is enough

A second pass of constant folding over the graph and the roots that a first one
has left changes nothing at all. There are two parts to it.

The first is about any rule. A pass that finds nothing to do takes the marks off
the nodes below its roots and puts them on again, so it leaves the graph as it
was if these nodes were marked before (`Pass.overRoots_idle`). Nodes are equal
when their four views are, and only the marks need an argument.

The second is about folding. What is below the new roots stands in for something
below the old ones, and was handed over in the first pass or is a literal that
came new; both are marked. A node that was handed over has become what it settles
to, and what it would become now is the same again (`Folded.outcome_standIn`). So
an operator that is still there has no value on the literals that its inputs have
become since, and the rule keeps it.
-/

namespace OpGraph

namespace Graph

/-! ## Graphs that differ in their marks -/

/-- The graph `h` is `g` up to the marks. -/
structure Remarked (g h : Graph) : Prop where
  size : h.size = g.size
  label : ∀ j, h.label? j = g.label? j
  inputs : ∀ j, h.inputsOf j = g.inputsOf j
  parents : ∀ j, h.parentsOf j = g.parentsOf j

variable {g h : Graph}

theorem remarked_cleared (g : Graph) (ids : List NodeId) : g.Remarked (g.cleared ids) := by
  obtain ⟨hsize, hlabel, hinputs, hparents⟩ := g.cleared_views ids
  exact ⟨hsize, hlabel, hinputs, hparents⟩

theorem Remarked.trans {k : Graph} (hr : g.Remarked h) (hr' : h.Remarked k) : g.Remarked k where
  size := hr'.size.trans hr.size
  label j := (hr'.label j).trans (hr.label j)
  inputs j := (hr'.inputs j).trans (hr.inputs j)
  parents j := (hr'.parents j).trans (hr.parents j)

theorem Remarked.mark (hr : g.Remarked h) (id : NodeId) (b : Bool) : g.Remarked (h.mark id b) where
  size := by rw [size_mark, hr.size]
  label j := by rw [label?_mark, hr.label]
  inputs j := by rw [inputsOf_mark, hr.inputs]
  parents j := by rw [parentsOf_mark, hr.parents]

theorem Remarked.balanced (hr : g.Remarked h) (hg : g.Balanced) : h.Balanced :=
  balanced_of_views hr.inputs hr.parents hg

/-- What becomes of a node does not depend on the marks. -/
theorem Remarked.outcome (hr : g.Remarked h) (predicates : Bool) (id : NodeId) :
    h.outcome predicates id = g.outcome predicates id :=
  outcome_congr (funext hr.label) (hr.inputs id)

theorem Remarked.node?_eq (hr : g.Remarked h) {id : NodeId}
    (hvisited : h.visited? id = g.visited? id) : h.node? id = g.node? id := by
  rcases Nat.lt_or_ge id g.size with hid | hge
  · obtain ⟨n, hn⟩ := exists_node? hid
    rw [hn]
    refine node?_of_views ?_ ?_ ?_ ?_
    · rw [hr.label, label?_of_node? hn]
    · rw [hvisited, visited?_of_node? hn]
    · rw [hr.inputs, inputsOf_of_node? hn]
    · rw [hr.parents, parentsOf_of_node? hn]
  · rw [node?_eq_none hge, node?_eq_none (hr.size ▸ hge)]

theorem Remarked.eq (hr : g.Remarked h) (hvisited : ∀ j, h.visited? j = g.visited? j) : h = g := by
  have hnodes : h.nodes = g.nodes := Array.ext_getElem? fun i => hr.node?_eq (hvisited i)
  cases g
  cases h
  exact congrArg Graph.mk hnodes

end Graph

/-! ## A pass that finds nothing to do -/

/-- The rule keeps a node and counts no fold. -/
def NodeRule.KeepsAt {σ : Type} (rule : NodeRule σ) (g : Graph) (id : NodeId) : Prop :=
  ∀ t m, ∃ t' m', rule g id t m = (.ok .keep, t', m') ∧ t'.folds = t.folds

namespace Pass

variable {σ : Type} {rule : NodeRule σ} {g : Graph} {roots order : List NodeId}

/-- What stands in for the nodes that were handed over is marked. -/
theorem visited_of_overRoots (hrule : PutsLiterals rule) (hg : g.Balanced)
    (hpost : g.postorder roots = .ok order) {t : Tally} {m : σ} {news : List NodeId} {p : Pass σ}
    (hrun : overRoots rule roots ⟨⟨g, t, m⟩, []⟩ = .ok news p) {id : NodeId} (hid : id ∈ order) :
    p.graph.visited? (p.standIn id) = some true := by
  have hlt : id < (g.cleared order).size :=
    (g.cleared_views order).1 ▸ Graph.lt_of_mem_postorder hpost hid
  have htracks := tracks_of_overRoots hrule hg hpost hrun
  exact htracks.traces.visited_standIn hlt (List.mem_reverse.2 hid)

/-- Nodes that are kept are marked, and nothing else happens. -/
theorem Processed.idle {p₀ p : Pass σ} {done : List NodeId} (h : Processed rule p₀ done p)
    (hlt : ∀ id ∈ done, id < p₀.graph.size)
    (hkeep : ∀ k, p₀.graph.Remarked k → ∀ id ∈ done, rule.KeepsAt k id) :
    p₀.graph.Remarked p.graph ∧ p.substitutes = p₀.substitutes ∧
      p.tally.folds = p₀.tally.folds ∧
      ∀ j, p.graph.visited? j = if j ∈ done then some true else p₀.graph.visited? j := by
  induction h with
  | start => exact ⟨⟨rfl, fun _ => rfl, fun _ => rfl, fun _ => rfl⟩, rfl, rfl, by simp⟩
  | @step done p p' id new _ hrun ih =>
      obtain ⟨hr, hsubst, hfolds, hvisited⟩ := ih (fun j hj => hlt j (List.mem_cons_of_mem _ hj))
        fun k hk j hj => hkeep k hk j (List.mem_cons_of_mem _ hj)
      have hid : id < p.graph.size := hr.size ▸ hlt id (List.mem_cons_self ..)
      obtain ⟨t, m, hanswer, ht⟩ :=
        hkeep p.graph hr id (List.mem_cons_self ..) p.tally.countVisit p.memory
      rw [finish_keep hid hanswer] at hrun
      cases hrun
      refine ⟨hr.mark id true, hsubst, ht.trans hfolds, fun j => ?_⟩
      rw [Graph.visited?_mark hid, hvisited]
      by_cases hj : id = j
      · simp [hj]
      · simp [hj, Ne.symm hj]

/-- A pass that keeps all nodes below its roots leaves a graph in which they are
marked as it is. -/
theorem overRoots_idle (hrule : PutsLiterals rule) (hg : g.Balanced)
    (hpost : g.postorder roots = .ok order) (hmarked : ∀ id ∈ order, g.visited? id = some true)
    (hkeep : ∀ k, g.Remarked k → ∀ id ∈ order, rule.KeepsAt k id) (t : Tally) (m : σ) :
    ∃ t' m', overRoots rule roots ⟨⟨g, t, m⟩, []⟩ = .ok roots ⟨⟨g, t', m'⟩, []⟩ ∧
      t'.folds = t.folds := by
  obtain ⟨p, hrun, hp⟩ := overRoots_processed hrule hg hpost t m
  have hcleared := g.remarked_cleared order
  have hlt : ∀ id ∈ order, id < g.size := fun id hid => Graph.lt_of_mem_postorder hpost hid
  obtain ⟨hr, hsubst, hfolds, hvisited⟩ := hp.idle
    (fun id hid => hcleared.size ▸ hlt id (List.mem_reverse.1 hid))
    (fun k hk id hid => hkeep k (hcleared.trans hk) id (List.mem_reverse.1 hid))
  have hgraph : p.graph = g := by
    refine (hcleared.trans hr).eq fun j => ?_
    rw [hvisited, Graph.visited?_cleared hlt]
    by_cases hj : j ∈ order
    · simp [hj, hmarked j hj]
    · simp [hj]
  have hstand : ∀ id, p.standIn id = id := by
    intro id
    rw [standIn, hsubst]
    rfl
  refine ⟨p.tally, p.memory, ?_, hfolds⟩
  obtain ⟨⟨k, t', m'⟩, subst⟩ := p
  cases hgraph
  cases hsubst
  rw [hrun, funext hstand, List.map_id']

end Pass

/-! ## Folding once more -/

theorem Graph.outcome_of_literal {g : Graph} {predicates : Bool} {id : NodeId} {v : Value}
    (h : g.literalAt? id = some v) : g.outcome predicates id = none := by
  cases hout : g.outcome predicates id with
  | none => rfl
  | some u =>
      rw [(Graph.operator_of_outcome hout).1] at h
      cases h

section Folded

variable {g : Graph} {predicates : Bool} {done : List NodeId} {w : Rewrite} {id : NodeId}

theorem Rewritten.reaches_standIn (h : Rewritten g done w) {j : NodeId}
    (hreach : w.graph.Reaches (w.standIn id) j) : ∃ j', g.Reaches id j' ∧ j = w.standIn j' := by
  induction hreach with
  | refl => exact ⟨id, Relation.ReflTransGen.refl, rfl⟩
  | tail _ hheld ih =>
      obtain ⟨k, hk, rfl⟩ := ih
      obtain ⟨c, hc, rfl⟩ := h.holds_standIn hheld
      exact ⟨c, hk.tail hc, rfl⟩

/-- Below the new roots is only what stands in for something below the old ones. -/
theorem Rewritten.exists_of_mem_postorder (h : Rewritten g done w)
    {roots order order' : List NodeId} (hpost : g.postorder roots = .ok order)
    (hpost' : w.graph.postorder (roots.map w.standIn) = .ok order') {j : NodeId}
    (hj : j ∈ order') : ∃ id ∈ order, j = w.standIn id := by
  obtain ⟨r', hr', hreach⟩ := ((Graph.postorder_spec hpost').2 j).1 hj
  obtain ⟨r, hr, rfl⟩ := List.mem_map.1 hr'
  obtain ⟨id, hid, rfl⟩ := h.reaches_standIn hreach
  exact ⟨id, ((Graph.postorder_spec hpost).2 id).2 ⟨r, hr, hid⟩, rfl⟩

/-- Nothing more becomes of what was handed over after its inputs. -/
theorem Folded.outcome_standIn (hg : g.Balanced) (hrw : Rewritten g done w)
    (h : Folded g predicates done w) (hid : id ∈ done) (hinputs : ∀ c ∈ g.inputsOf id, c ∈ done) :
    w.graph.outcome predicates (w.standIn id) = none := by
  by_cases hself : w.standIn id = id
  · have hlt := hrw.done_lt id hid
    have hlit := h.settles id hid
    have hout := h.settles_outcome hg hrw hlt hself hinputs
    rw [hself] at hlit ⊢
    cases hsome : w.graph.outcome predicates id with
    | none => rfl
    | some v =>
        -- The node would be a literal already, and so no operator.
        rw [hsome, Option.some_or] at hout
        rw [Graph.outcome_of_literal (hout.unique hlit).symm] at hsome
        cases hsome
  · obtain ⟨v, hlabel⟩ := hrw.label_of_replaced hself
    exact Graph.outcome_of_literal (Graph.literalAt?_of_label hlabel)

end Folded

namespace Folding

theorem folds_of_keep {σ : Type} {evaluate : Evaluator σ} {predicates : Bool} {g : Graph}
    {id : NodeId} {t t' : Tally} {m m' : σ}
    (h : node evaluate predicates g id t m = (.ok .keep, t', m')) : t'.folds = t.folds := by
  unfold node at h
  split at h
  · cases h
  · cases h
    rfl
  · cases h
  · split at h
    · cases h
    · cases h
      rfl

theorem keepsAt {g : Graph} {predicates : Bool} {id : NodeId} (hg : g.Balanced) (hid : id < g.size)
    (hnone : g.outcome predicates id = none) :
    (node Interpreter.evaluate predicates).KeepsAt g id := by
  intro t m
  have hverdict := node_verdict hg hid predicates t m
  rw [hnone] at hverdict
  rcases hanswer : node Interpreter.evaluate predicates g id t m with ⟨v, t', m'⟩
  rw [hanswer] at hverdict
  cases hverdict
  exact ⟨t', m', rfl, folds_of_keep hanswer⟩

/-- Folding what was folded returns the same roots, leaves the whole graph as it
is, marks included, and folds nothing, whatever the interpreter has done before. -/
theorem apply_idempotent (predicates : Bool) {g : Graph} {roots order : List NodeId}
    (hg : g.Consistent) (hpost : g.postorder roots = .ok order) (tally : Tally)
    (memory : Interpreter) :
    ∃ news s, (rule Interpreter.evaluate predicates).apply roots ⟨g, tally, memory⟩ = .ok news s ∧
      ∀ (tally' : Tally) (memory' : Interpreter), ∃ t m,
        (rule Interpreter.evaluate predicates).apply news ⟨s.graph, tally', memory'⟩ =
          .ok news ⟨s.graph, t, m⟩ ∧ t.folds = tally'.folds := by
  have hrule := putsLiterals Interpreter.evaluate predicates
  obtain ⟨p, hrun, hrw, hfolded⟩ := Pass.exists_folded hg.balanced hpost predicates tally memory
  obtain ⟨hfirst, hlisted⟩ := Graph.postorder_spec hpost
  obtain ⟨order', hpost'⟩ := hrw.exists_postorder
    (fun r hr => Graph.lt_of_mem_postorder hpost
      ((hlisted r).2 ⟨r, hr, Relation.ReflTransGen.refl⟩))
    (fun r hr => Graph.grounded_of_postorder hpost hr Relation.ReflTransGen.refl)
  have hmarked : ∀ j ∈ order', p.graph.visited? j = some true := by
    intro j hj
    obtain ⟨id, hid, rfl⟩ := hrw.exists_of_mem_postorder hpost hpost' hj
    exact Pass.visited_of_overRoots hrule hg.balanced hpost hrun hid
  have hnone : ∀ j ∈ order', p.graph.outcome predicates j = none := by
    intro j hj
    obtain ⟨id, hid, rfl⟩ := hrw.exists_of_mem_postorder hpost hpost' hj
    exact hfolded.outcome_standIn hg.balanced hrw (List.mem_reverse.2 hid) fun c hc =>
      hfirst.input_mem (List.mem_reverse.2 hid) hc
  refine ⟨_, _, NodeRule.applyRoots_of_overRoots hrun, fun tally' memory' => ?_⟩
  have hkeep : ∀ k, p.graph.Remarked k → ∀ j ∈ order',
      (node Interpreter.evaluate predicates).KeepsAt k j := by
    intro k hk j hj
    refine keepsAt (hk.balanced hrw.balanced) ?_ ?_
    · rw [hk.size]
      exact Graph.lt_of_mem_postorder hpost' hj
    · rw [hk.outcome, hnone j hj]
  obtain ⟨t, m, hrun', hfolds⟩ :=
    Pass.overRoots_idle hrule hrw.balanced hpost' hmarked hkeep tally' memory'
  exact ⟨t, m, NodeRule.applyRoots_of_overRoots hrun', hfolds⟩

/-- The sum of a quotient `1 %/% 0`, which has no value, and of `1 + 1`, with marks
that an earlier pass has left. -/
def halfFolded : Graph :=
  ⟨#[⟨.literal (.int 1), .int, .scalar, [], [2, 3, 3], true⟩,
    ⟨.literal (.int 0), .int, .scalar, [], [2], false⟩,
    ⟨.binary .intDivide, .int, .scalar, [0, 1], [4], true⟩,
    ⟨.binary .plus, .int, .scalar, [0, 0], [4], false⟩,
    ⟨.binary .plus, .int, .scalar, [2, 3], [], false⟩]⟩

theorem apply_idempotent_halfFolded :
    halfFolded.Consistent ∧ halfFolded.postorder [4, 3] = .ok [0, 1, 2, 3, 4] ∧
      ∃ news s, (rule Interpreter.evaluate true).apply [4, 3] ⟨halfFolded, .zero, .new⟩ =
          .ok news s ∧
        ∀ (tally' : Tally) (memory' : Interpreter), ∃ t m,
          (rule Interpreter.evaluate true).apply news ⟨s.graph, tally', memory'⟩ =
            .ok news ⟨s.graph, t, m⟩ ∧ t.folds = tally'.folds := by
  have hg : halfFolded.Consistent := by decide +kernel
  have hpost : halfFolded.postorder [4, 3] = .ok [0, 1, 2, 3, 4] := by decide +kernel
  exact ⟨hg, hpost, apply_idempotent true hg hpost .zero .new⟩

end Folding

end OpGraph
