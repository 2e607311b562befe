import OpGraph.Graph.Check
import OpGraph.Proofs.Settling

/-!
# A pass on consistent edges goes through

Constant folding asks an evaluator about some nodes and nothing is known of its
answers. Whatever they are, a pass over a graph with consistent edges does not
fail, and the edges are consistent afterwards. The answers decide which nodes
are replaced, but a replacement is the same edit for every value.

The new roots pass the check as well. The two ends of every edge agree, so all
that is left to see is that the walk below the roots ends: a way down from the
node that stands in for `id` is a way down from `id`, up to the first literal
that is new.
-/

namespace OpGraph

namespace Graph

theorem forM_eq_ok_iff {α : Type} {f : α → Except GraphError Unit} : ∀ {xs : List α},
    xs.forM f = .ok () ↔ ∀ x ∈ xs, f x = .ok ()
  | [] => iff_of_true rfl fun _ hx => absurd hx List.not_mem_nil
  | x :: xs => by
      rw [List.forall_mem_cons, ← forM_eq_ok_iff]
      change (f x).bind (fun _ => xs.forM f) = _ ↔ _
      cases hx : f x with
      | error e => simp [Except.bind]
      | ok _ => simp [Except.bind]

/-- What the check of a node asks: the inputs list the node as often as it holds
them, and the parents hold it. -/
structure AgreesAt (g : Graph) (id : NodeId) : Prop where
  inputs : ∀ c ∈ g.inputsOf id, (g.inputsOf id).count c = (g.parentsOf c).count id
  parents : ∀ q ∈ g.parentsOf id, id ∈ g.inputsOf q

theorem checkInput_eq_ok_iff {g : Graph} {id c : NodeId} (hc : c ∈ g.inputsOf id) :
    g.checkInput id (g.inputsOf id) c = .ok () ↔
      (g.inputsOf id).count c = (g.parentsOf c).count id := by
  have hpos := List.count_pos_iff.2 hc
  simp only [checkInput]
  by_cases hlisted : (g.parentsOf c).count id = 0
  · rw [if_pos hlisted]
    exact iff_of_false (fun h => by cases h) (by omega)
  · rw [if_neg hlisted]
    by_cases hcount : (g.inputsOf id).count c = (g.parentsOf c).count id
    · rw [if_neg (not_not.2 hcount)]
      exact iff_of_true rfl hcount
    · rw [if_pos hcount]
      exact iff_of_false (fun h => by cases h) hcount

theorem checkParent_eq_ok_iff {g : Graph} {id q : NodeId} :
    g.checkParent id q = .ok () ↔ id ∈ g.inputsOf q := by
  unfold checkParent
  split
  · exact iff_of_true rfl (by assumption)
  · exact iff_of_false (fun h => by cases h) (by assumption)

theorem checkNode_eq_ok_iff {g : Graph} {id : NodeId} :
    g.checkNode id = .ok () ↔ g.AgreesAt id := by
  have hbind : g.checkNode id = .ok () ↔
      (g.inputsOf id).forM (g.checkInput id (g.inputsOf id)) = .ok () ∧
        (g.parentsOf id).forM (g.checkParent id) = .ok () := by
    cases hin : (g.inputsOf id).forM (g.checkInput id (g.inputsOf id)) with
    | error e =>
        rw [checkNode, hin]
        exact iff_of_false (fun h => by cases h) fun h => by cases h.1
    | ok u =>
        rw [checkNode, hin]
        exact (and_iff_right rfl).symm
  rw [hbind, forM_eq_ok_iff, forM_eq_ok_iff]
  constructor
  · rintro ⟨hinputs, hparents⟩
    exact ⟨fun c hc => (checkInput_eq_ok_iff hc).1 (hinputs c hc),
      fun q hq => checkParent_eq_ok_iff.1 (hparents q hq)⟩
  · intro h
    exact ⟨fun c hc => (checkInput_eq_ok_iff hc).2 (h.inputs c hc),
      fun q hq => checkParent_eq_ok_iff.2 (h.parents q hq)⟩

/-- The check passes exactly if the nodes below the roots can be listed, and each of
them passes. -/
theorem check_eq_ok_iff {g : Graph} {roots : List NodeId} :
    g.check roots = .ok () ↔
      ∃ order, g.postorder roots = .ok order ∧ ∀ id ∈ order, g.AgreesAt id := by
  unfold check
  cases g.postorder roots with
  | error e => simp [bind, Except.bind]
  | ok order =>
      simp only [bind, Except.bind, forM_eq_ok_iff, checkNode_eq_ok_iff, Except.ok.injEq,
        exists_eq_left']

theorem Balanced.check_eq_ok {g : Graph} (hg : g.Balanced) {roots order : List NodeId}
    (hpost : g.postorder roots = .ok order) : g.check roots = .ok () :=
  check_eq_ok_iff.2 ⟨order, hpost, fun id _ =>
    ⟨fun c _ => (hg id c).symm, fun _ hq => hg.mem_parentsOf_iff.1 hq⟩⟩

end Graph

section Rewritten

variable {g : Graph} {done : List NodeId} {w : Rewrite} {id : NodeId}

theorem Rewritten.holds_standIn (h : Rewritten g done w) {c : NodeId}
    (hc : w.graph.Holds (w.standIn id) c) : ∃ c', g.Holds id c' ∧ c = w.standIn c' := by
  have hc' : c ∈ w.graph.inputsOf (w.standIn id) := hc
  have hlt : w.standIn id < w.graph.size := Graph.lt_size_of_mem_inputsOf hc'
  by_cases hself : w.standIn id = id
  · rcases Nat.lt_or_ge id g.size with hid | hge
    · rw [hself, h.kept id hid hself] at hc'
      obtain ⟨c', hmem, heq⟩ := List.mem_map.1 hc'
      exact ⟨c', hmem, heq.symm⟩
    · obtain ⟨v, -, hnone⟩ := h.fresh id hge (hself ▸ hlt)
      rw [hself, hnone] at hc'
      cases hc'
  · obtain ⟨-, hge, -⟩ := h.replaced id hself
    obtain ⟨v, -, hnone⟩ := h.fresh _ hge hlt
    rw [hnone] at hc'
    cases hc'

/-- Every way down in the new graph follows a way down in the old one. -/
theorem Rewritten.grounded (h : Rewritten g done w) (hground : g.Grounded id) :
    w.graph.Grounded (w.standIn id) := by
  induction hground with
  | intro id _ ih =>
      refine Acc.intro _ fun c hc => ?_
      obtain ⟨c', hheld, rfl⟩ := h.holds_standIn hc
      exact ih c' hheld

/-- What stands in for roots that can be walked can be walked. -/
theorem Rewritten.exists_postorder (h : Rewritten g done w) {roots : List NodeId}
    (hlt : ∀ r ∈ roots, r < g.size) (hground : ∀ r ∈ roots, g.Grounded r) :
    ∃ order, w.graph.postorder (roots.map w.standIn) = .ok order := by
  refine Graph.exists_postorder ?_ (fun q c hc => h.balanced.input_lt hc) ?_
  · intro r hr
    obtain ⟨r', hr', rfl⟩ := List.mem_map.1 hr
    exact h.standIn_lt (hlt r' hr')
  · intro r hr
    obtain ⟨r', hr', rfl⟩ := List.mem_map.1 hr
    exact h.grounded (hground r' hr')

end Rewritten

/-- On consistent edges folding goes through with every evaluator, and leaves
consistent edges and roots that pass the check. -/
theorem Folding.apply_consistent {σ : Type} (evaluate : Evaluator σ) (predicates : Bool)
    {g : Graph} {roots order : List NodeId} (hg : g.Consistent)
    (hpost : g.postorder roots = .ok order) (tally : Tally) (memory : σ) :
    ∃ news s, (rule evaluate predicates).apply roots ⟨g, tally, memory⟩ = .ok news s ∧
      s.graph.Consistent ∧ s.graph.check news = .ok () := by
  obtain ⟨p, hrun, hrw, -⟩ := Pass.overRoots_induct (motive := fun _ _ => True)
    (putsLiterals evaluate predicates) hg.balanced hpost (fun _ _ => trivial)
    (fun _ _ _ _ _ _ _ _ _ _ => trivial) tally memory
  have hlisted : ∀ r ∈ roots, r ∈ order := fun r hr =>
    ((Graph.postorder_spec hpost).2 r).2 ⟨r, hr, Relation.ReflTransGen.refl⟩
  obtain ⟨order', hpost'⟩ := hrw.exists_postorder
    (fun r hr => Graph.lt_of_mem_postorder hpost (hlisted r hr))
    (fun r hr => Graph.grounded_of_postorder hpost hr Relation.ReflTransGen.refl)
  exact ⟨_, _, NodeRule.applyRoots_of_overRoots hrun, hrw.balanced.consistent,
    hrw.balanced.check_eq_ok hpost'⟩

/-- The difference of a square and itself. Both operators hold one node twice. -/
def Graph.doublyHeld : Graph :=
  ⟨#[⟨.literal (.int 3), .int, .scalar, [], [1, 1], false⟩,
    ⟨.binary .times, .int, .scalar, [0, 0], [2, 2], true⟩,
    ⟨.binary .minus, .int, .scalar, [1, 1], [], false⟩]⟩

/-- An evaluator that fails every other time and is wrong in between. -/
theorem Folding.apply_consistent_doublyHeld :
    Graph.doublyHeld.Consistent ∧ Graph.doublyHeld.postorder [2, 1] = .ok [0, 1, 2] ∧
      ∃ news s, (rule (fun _ id count => (if count % 2 = 0 then .ok (.boolean true) else
            .error (.graph (.unknownNode id)), count + 1)) true).apply [2, 1]
          ⟨Graph.doublyHeld, .zero, (0 : Nat)⟩ = .ok news s ∧
        s.graph.Consistent ∧ s.graph.check news = .ok () := by
  have hg : Graph.doublyHeld.Consistent := by decide +kernel
  have hpost : Graph.doublyHeld.postorder [2, 1] = .ok [0, 1, 2] := by decide +kernel
  exact ⟨hg, hpost, Folding.apply_consistent _ true hg hpost .zero 0⟩

end OpGraph
