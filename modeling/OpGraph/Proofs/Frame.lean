import Mathlib.Algebra.Order.Interval.Set.SuccPred
import Mathlib.Data.Nat.SuccPred
import Mathlib.Data.Set.Function
import OpGraph.Proofs.Safety

/-!
# What a pass leaves alone

A pass of a rule that puts literals changes a graph by one substitution: some of
the nodes below the roots get a new literal each, and every slot of the graph
that held one of them holds its literal. `Graph.Substitution` pins the whole new
graph down by that. The substitution is one to one and hits every node that came
new, so no literal serves two nodes and none is left over; a replaced node is cut
off on both sides; and all other nodes hold what they held, slot by slot, whether
they are below the roots or not.

Most of this is what `Rewritten` says. That a replaced node has no parents left
follows from it, since the edges are balanced and no node holds a replaced one.
That the literals and the replaced nodes match one to one is a matter of the
steps: a node that is handed over is kept, or it gets the next number that is
free.
-/

namespace OpGraph

namespace Graph

/-- A graph has as many nodes as it has labels. -/
theorem size_eq_of_labels {g : Graph} {n : Nat} (h : ∀ id, (g.label? id).isSome ↔ id < n) :
    g.size = n := by
  have hlt : ∀ id, id < g.size ↔ id < n := fun id => (g.label?_isSome_iff id).symm.trans (h id)
  have hsize := hlt g.size
  have hn := hlt n
  omega

/-- The graph `h` is `g` with a new literal in the place of every node in
`replaced`, which is the one that `subst` names. The number of a node is its
place, and its name and its extent are read off its label. -/
structure Substitution (g : Graph) (replaced : Set NodeId) (subst : NodeId → NodeId) (h : Graph) :
    Prop where
  onto : Set.BijOn subst replaced (Set.Ico g.size h.size)
  other : ∀ id, id ∉ replaced → subst id = id
  literal : ∀ id ∈ replaced,
    ∃ v, h.label? (subst id) = some (.literal v) ∧ h.inputsOf (subst id) = []
  detached : ∀ id ∈ replaced, h.inputsOf id = [] ∧ h.parentsOf id = []
  inputs : ∀ id < g.size, id ∉ replaced → h.inputsOf id = (g.inputsOf id).map subst
  label : ∀ id < g.size, h.label? id = g.label? id

end Graph

namespace Rewrite

/-- The nodes that something else stands in for. -/
def replaced (w : Rewrite) : Set NodeId := {id | w.standIn id ≠ id}

/-- Every node that came new stands in for one node of `g`. -/
def OneToOne (g : Graph) (w : Rewrite) : Prop :=
  Set.BijOn w.standIn w.replaced (Set.Ico g.size w.graph.size)

end Rewrite

section Rewritten

variable {g : Graph} {done : List NodeId} {w : Rewrite} {id : NodeId}

/-- What stands in for a node is not itself replaced. -/
theorem Rewritten.standIn_not_replaced (h : Rewritten g done w) : w.standIn id ∉ w.replaced := by
  intro hne
  by_cases hself : w.standIn id = id
  · exact hne (hself.symm ▸ hself)
  · have hge := (h.replaced id hself).2.1
    have hlt := h.done_lt _ (h.replaced (w.standIn id) hne).1
    exact Nat.not_lt.2 hge hlt

/-- No node holds a node that was replaced. -/
theorem Rewritten.parentsOf_of_replaced (h : Rewritten g done w) (hne : w.standIn id ≠ id) :
    w.graph.parentsOf id = [] := by
  refine List.eq_nil_iff_forall_not_mem.2 fun q hq => ?_
  have hheld : id ∈ w.graph.inputsOf q := h.balanced.mem_parentsOf_iff.1 hq
  have hqlt : q < w.graph.size := Graph.lt_size_of_mem_inputsOf hheld
  by_cases hgone : w.standIn q ≠ q
  · rw [h.gone q hgone] at hheld
    cases hheld
  · rcases Nat.lt_or_ge q g.size with hold | hnew
    · -- The slots of an old node hold what stands in for something.
      rw [h.kept q hold (not_not.1 hgone)] at hheld
      obtain ⟨c, -, rfl⟩ := List.mem_map.1 hheld
      exact h.standIn_not_replaced hne
    · obtain ⟨v, -, hnone⟩ := h.fresh q hnew hqlt
      rw [hnone] at hheld
      cases hheld

theorem Rewritten.substitution (h : Rewritten g done w) (honce : w.OneToOne g) :
    g.Substitution w.replaced w.standIn w.graph where
  onto := honce
  other _ hid := not_not.1 hid
  literal id hid := by
    obtain ⟨-, hge, hlt⟩ := h.replaced id hid
    exact h.fresh _ hge hlt
  detached id hid := ⟨h.gone id hid, h.parentsOf_of_replaced hid⟩
  inputs id hlt hid := h.kept id hlt (not_not.1 hid)
  label := h.label

end Rewritten

namespace Pass

variable {σ : Type} {rule : NodeRule σ} {g : Graph} {done : List NodeId} {p p' : Pass σ}
  {id : NodeId}

/-- The node that is handed over gets the next free number, or none. -/
theorem Finished.oneToOne (hfinished : Finished rule p id p') (hrw : Rewritten g done p.rewrite)
    (hid : id < g.size) (hnew : id ∉ done) (h : p.rewrite.OneToOne g) : p'.rewrite.OneToOne g := by
  show Set.BijOn p'.standIn p'.rewrite.replaced (Set.Ico g.size p'.graph.size)
  have hself : p.standIn id = id := hrw.standIn_eq hnew
  have hlt : id < p.graph.size := Nat.lt_of_lt_of_le hid hrw.size
  cases hfinished with
  | keep _ hstand hlabel =>
      have hsize : p'.graph.size = p.graph.size := by
        refine Graph.size_eq_of_labels fun j => ?_
        rw [hlabel, Graph.label?_isSome_iff]
      have hreplaced : p'.rewrite.replaced = p.rewrite.replaced := by
        ext j
        show p'.standIn j ≠ j ↔ p.standIn j ≠ j
        rw [hstand]
      rw [hsize, hreplaced]
      exact Set.BijOn.congr h fun j _ => (hstand j).symm
  | literal v _ hstand hlabel =>
      have hsize : p'.graph.size = p.graph.size + 1 := by
        refine Graph.size_eq_of_labels fun j => ?_
        rw [hlabel]
        by_cases hj : j = p.graph.size
        · simp [hj]
        · rw [if_neg hj, Graph.label?_isSome_iff, Nat.lt_succ_iff, Nat.le_iff_lt_or_eq,
            or_iff_left hj]
      have hfirst : p'.standIn id = p.graph.size := by rw [hstand, if_pos rfl]
      have hreplaced : p'.rewrite.replaced = insert id p.rewrite.replaced := by
        ext j
        show p'.standIn j ≠ j ↔ j = id ∨ p.standIn j ≠ j
        rw [hstand]
        by_cases hj : j = id
        · simp only [hj, if_true, true_or, iff_true]
          exact Nat.ne_of_gt hlt
        · simp [hj]
      have hrest : Set.BijOn p'.standIn p.rewrite.replaced (Set.Ico g.size p.graph.size) := by
        refine Set.BijOn.congr h fun j hj => ?_
        have hji : j ≠ id := fun heq => hj (heq ▸ hself)
        rw [hstand, if_neg hji]
      have hinsert := hrest.insert (a := id) (by simp [hfirst])
      rw [hfirst, Set.insert_Ico_right_eq_Ico_add_one hrw.size] at hinsert
      rw [hsize, hreplaced]
      exact hinsert

theorem overRoots_substitution {roots order : List NodeId} (hrule : PutsLiterals rule)
    (hg : g.Balanced) (hpost : g.postorder roots = .ok order) (t : Tally) (m : σ) :
    ∃ p, overRoots rule roots ⟨⟨g, t, m⟩, []⟩ = .ok (roots.map p.standIn) p ∧
      (∀ id ∈ p.rewrite.replaced, id ∈ order) ∧
      g.Substitution p.rewrite.replaced p.standIn p.graph := by
  have hstart : (Pass.rewrite ⟨⟨g.cleared order, t, m⟩, []⟩).OneToOne g := by
    have hnone : {id : NodeId | id ≠ id} = ∅ := by simp
    show Set.BijOn _ {id : NodeId | id ≠ id} (Set.Ico g.size (g.cleared order).size)
    rw [hnone, (g.cleared_views order).1, Set.Ico_self]
    exact Set.bijOn_empty _
  obtain ⟨p, hrun, hrw, honce⟩ := overRoots_induct_cleared
    (motive := fun _ p => p.rewrite.OneToOne g) hrule hg hpost t m hstart
    fun _ _ _ _ hrw honce hid hnew _ hfinished => hfinished.oneToOne hrw hid hnew honce
  exact ⟨p, hrun, fun id hid => List.mem_reverse.1 (hrw.replaced id hid).1, hrw.substitution honce⟩

end Pass

namespace Folding

/-- Folding changes a graph by putting new literals in the places of some nodes
below the roots, one for each of them and in every slot that held it, and by
nothing else. This holds with every evaluator. -/
theorem apply_substitution {σ : Type} (evaluate : Evaluator σ) (predicates : Bool) {g : Graph}
    {roots order : List NodeId} (hg : g.Consistent) (hpost : g.postorder roots = .ok order)
    (tally : Tally) (memory : σ) :
    ∃ (replaced : Set NodeId) (subst : NodeId → NodeId) (s : Session σ),
      (rule evaluate predicates).apply roots ⟨g, tally, memory⟩ = .ok (roots.map subst) s ∧
      (∀ id ∈ replaced, id ∈ order) ∧ g.Substitution replaced subst s.graph := by
  obtain ⟨p, hrun, hbelow, hsubst⟩ := Pass.overRoots_substitution
    (putsLiterals evaluate predicates) hg.balanced hpost tally memory
  exact ⟨_, _, _, NodeRule.applyRoots_of_overRoots hrun, hbelow, hsubst⟩

/-- The square of the sum `1 + 2`, and outside of it the difference of that sum and
a variable `n`. -/
def squaredSum : Graph :=
  ⟨#[⟨.literal (.int 1), .int, .scalar, [], [2], true⟩,
    ⟨.literal (.int 2), .int, .scalar, [], [2], false⟩,
    ⟨.binary .plus, .int, .scalar, [0, 1], [3, 3, 5], false⟩,
    ⟨.binary .times, .int, .scalar, [2, 2], [], false⟩,
    ⟨.data .read "n", .int, .scalar, [], [5], false⟩,
    ⟨.binary .minus, .int, .scalar, [2, 4], [], false⟩]⟩

/-- The sum is a root as well, and the square is one twice. The difference is below
no root and sees the substitute of the sum. -/
theorem apply_substitution_squaredSum :
    squaredSum.Consistent ∧ squaredSum.postorder [3, 2, 3] = .ok [0, 1, 2, 3] ∧
      ∃ (replaced : Set NodeId) (subst : NodeId → NodeId) (s : Session Interpreter),
        (rule Interpreter.evaluate true).apply [3, 2, 3] ⟨squaredSum, .zero, .new⟩ =
          .ok [subst 3, subst 2, subst 3] s ∧
        (∀ id ∈ replaced, id ∈ [0, 1, 2, 3]) ∧
        squaredSum.Substitution replaced subst s.graph ∧
        s.graph.inputsOf 5 = [subst 2, 4] := by
  have hg : squaredSum.Consistent := by decide +kernel
  have hpost : squaredSum.postorder [3, 2, 3] = .ok [0, 1, 2, 3] := by decide +kernel
  obtain ⟨replaced, subst, s, hrun, hbelow, hsubst⟩ :=
    apply_substitution Interpreter.evaluate true hg hpost .zero .new
  have hoff : ∀ id, id ∉ [0, 1, 2, 3] → id ∉ replaced := fun id hid h => hid (hbelow id h)
  refine ⟨hg, hpost, replaced, subst, s, hrun, hbelow, hsubst, ?_⟩
  rw [hsubst.inputs 5 (by decide) (hoff 5 (by decide))]
  show [subst 2, subst 4] = _
  rw [hsubst.other 4 (hoff 4 (by decide))]

end Folding

end OpGraph
