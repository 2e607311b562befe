import OpGraph.Proofs.Candidates
import OpGraph.Proofs.Traversal

/-!
# Passes over broken edges

A pass finds the slots that hold a node from the parents that the node lists. On
a graph with broken edges the two records of an edge may differ in three ways,
and a pass that replaces the node meets them differently. A parent that is listed
more often or less often than it holds the node is noticed, and so is an input
that lists the node less often than it is held: the pass ends with an error. But
a node that does not list a parent at all knows nothing of it, and nothing else
does. The slots of that parent go on holding the node, which has lost its inputs.

`Followed` says what a pass leaves of any graph. It rests on two things. No step
changes an excess, so the parents that a node lists are those of the start until
the node is handed over. And a node is handed over after its inputs, so by then
the slots that hold it are those of the start as well.

So the answer of a pass may lead to a node that it has replaced, and it does so
exactly if a node below the new roots holds one that does not list it
(`Graph.foldConstants_rewires_iff`).
-/

namespace OpGraph

/-- A rule that keeps nodes, puts literals in their places, or finds something
wrong. -/
def NodeRule.NeverUses {σ : Type} (rule : NodeRule σ) : Prop :=
  ∀ g id t m x, (rule g id t m).1 ≠ .ok (.use x)

theorem Folding.node_neverUses {σ : Type} (evaluate : Evaluator σ) (predicates : Bool) :
    (node evaluate predicates).NeverUses := by
  intro g id t m x
  cases hc : g.candidate predicates id with
  | error e => simp [node, hc]
  | ok c =>
      rw [node_of_candidate hc]
      cases c with
      | leave => simp [answer]
      | absorb b => simp [answer]
      | evaluate b type =>
          simp only [answer]
          cases (literal evaluate g id type m).1.toOption <;> simp

/-- What a pass leaves of any graph: slots follow the substitution along the edges
that the lower node lists, no excess has changed, and what was replaced agreed
with the parents that it lists. -/
structure Followed (g : Graph) (done : List NodeId) (w : Rewrite) : Prop
    extends Patched g g.lists done w where
  excess : ∀ q c, w.graph.excess q c = g.excess q c
  agree : ∀ id, w.standIn id ≠ id → g.UsesAgree id

section Followed

variable {g : Graph} {done : List NodeId} {w : Rewrite} {id : NodeId}

theorem Patched.inputsOf_of_ge {follows : NodeId → NodeId → Bool} (h : Patched g follows done w)
    (hge : g.size ≤ id) : w.graph.inputsOf id = [] := by
  rcases Nat.lt_or_ge id w.graph.size with hlt | hge'
  · obtain ⟨v, -, hnone⟩ := h.fresh id hge hlt
    exact hnone
  · rw [Graph.inputsOf, Graph.node?_eq_none hge']

/-- A substitute is put in nobody's place. -/
theorem Patched.standIn_standIn {follows : NodeId → NodeId → Bool}
    (h : Patched g follows done w) (id : NodeId) : w.standIn (w.standIn id) = w.standIn id := by
  by_cases hself : w.standIn id = id
  · rw [hself, hself]
  · by_cases hne : w.standIn (w.standIn id) = w.standIn id
    · exact hne
    · have hlt := h.done_lt _ (h.replaced _ hne).1
      exact absurd hlt (Nat.not_lt.2 (h.replaced id hself).2.1)

/-- Slots come to hold new literals only, so a node that was not handed over is
held where it was. -/
theorem Followed.count_inputsOf (h : Followed g done w) (horder : g.ChildrenFirst done)
    (hid : id < g.size) (hnew : id ∉ done) (q : NodeId) :
    (w.graph.inputsOf q).count id = (g.inputsOf q).count id := by
  rcases Nat.lt_or_ge q g.size with hq | hge
  · by_cases hself : w.standIn q = q
    · rw [h.kept q hq hself, List.count_eq_countP, List.countP_map, List.count_eq_countP]
      refine List.countP_congr fun c _ => ?_
      have hiff : (if g.lists q c then w.standIn c else c) = id ↔ c = id := by
        by_cases hc : w.standIn c = c
        · rw [hc, ite_self]
        · obtain ⟨hmem, hge, -⟩ := h.replaced c hc
          have hne : c ≠ id := fun heq => hnew (heq ▸ hmem)
          have hne' : w.standIn c ≠ id := Nat.ne_of_gt (Nat.lt_of_lt_of_le hid hge)
          split
          · simp [hne, hne']
          · rfl
      simpa using hiff
    · have hmem := (h.replaced q hself).1
      rw [h.gone q hself, List.count_nil, eq_comm, List.count_eq_zero]
      exact fun hc => hnew (horder.input_mem hmem hc)
  · rw [h.inputsOf_of_ge hge, Graph.inputsOf, Graph.node?_eq_none hge]

theorem Followed.count_parentsOf (h : Followed g done w) (horder : g.ChildrenFirst done)
    (hid : id < g.size) (hnew : id ∉ done) (q : NodeId) :
    (w.graph.parentsOf id).count q = (g.parentsOf id).count q := by
  have hexcess := h.excess q id
  have hcount := h.count_inputsOf horder hid hnew q
  unfold Graph.excess at hexcess
  omega

theorem Followed.mem_parentsOf_iff (h : Followed g done w) (horder : g.ChildrenFirst done)
    (hid : id < g.size) (hnew : id ∉ done) {q : NodeId} :
    q ∈ w.graph.parentsOf id ↔ q ∈ g.parentsOf id := by
  rw [← List.count_pos_iff, h.count_parentsOf horder hid hnew, List.count_pos_iff]

theorem Followed.usesAgree_iff (h : Followed g done w) (horder : g.ChildrenFirst done)
    (hid : id < g.size) (hnew : id ∉ done) : w.graph.UsesAgree id ↔ g.UsesAgree id := by
  simp only [Graph.UsesAgree, h.mem_parentsOf_iff horder hid hnew,
    h.count_inputsOf horder hid hnew, h.count_parentsOf horder hid hnew]

/-- Marks play no part in it. -/
theorem Followed.congr {k : Graph} (h : Followed k done w) (hsize : k.size = g.size)
    (hlabel : ∀ j, k.label? j = g.label? j) (hinputs : ∀ j, k.inputsOf j = g.inputsOf j)
    (hparents : ∀ j, k.parentsOf j = g.parentsOf j) : Followed g done w where
  size := hsize ▸ h.size
  label j hj := by rw [h.label j (hsize ▸ hj), hlabel]
  kept j hj hself := by
    have hlists : ∀ c, k.lists j c = g.lists j c := fun c => by
      rw [Graph.lists, Graph.lists, hparents]
    simp only [h.kept j (hsize ▸ hj) hself, hinputs, hlists]
  gone := h.gone
  done_lt j hj := hsize ▸ h.done_lt j hj
  replaced j hne := hsize ▸ h.replaced j hne
  fresh j hge := h.fresh j (hsize ▸ hge)
  excess q c := (h.excess q c).trans (Graph.excess_of_views hinputs hparents q c)
  agree j hne := (Graph.usesAgree_of_views hinputs hparents).1 (h.agree j hne)

end Followed

namespace Pass

variable {σ : Type} {rule : NodeRule σ}

/-- A pass in progress over any graph. -/
structure Follows (g : Graph) (done : List NodeId) (p : Pass σ) : Prop
    extends Followed g done p.rewrite where
  visited : ∀ id < g.size, p.graph.visited? id = if id ∈ done then some true else g.visited? id
  fresh_visited : ∀ id, g.size ≤ id → id < p.graph.size → p.graph.visited? id = some true

theorem Follows.traces {g : Graph} {done : List NodeId} {p : Pass σ} (h : Follows g done p) :
    Traces g g.lists done p :=
  ⟨h.toPatched, h.visited, h.fresh_visited⟩

theorem follows_start (g : Graph) (t : Tally) (m : σ) : Follows g [] ⟨⟨g, t, m⟩, []⟩ :=
  have htraces := traces_start g g.lists t m
  ⟨⟨htraces.toPatched, fun _ _ => rfl, fun _ hne => absurd rfl hne⟩, htraces.visited,
    htraces.fresh_visited⟩

/-- A node that was handed over without an error. -/
theorem Follows.finish (hrule : rule.NeverUses) {g : Graph} {done : List NodeId} {p p' : Pass σ}
    {id new : NodeId} (h : Follows g done p) (horder : g.ChildrenFirst (id :: done))
    (hid : id < g.size) (hrun : finish rule id p = .ok new p') :
    Follows g (id :: done) p' ∧ Finished rule p id p' := by
  obtain ⟨hnew, -, hrest⟩ := horder
  have hlt : id < p.graph.size := Nat.lt_of_lt_of_le hid h.size
  rcases hanswer : rule p.graph id p.tally.countVisit p.memory with ⟨verdict, t, m⟩
  cases verdict with
  | error e =>
      rw [finish_of_error hanswer] at hrun
      cases hrun
  | ok v =>
      cases v with
      | use x => exact absurd (congrArg Prod.fst hanswer) (hrule _ _ _ _ x)
      | keep =>
          rw [finish_keep hlt hanswer] at hrun
          obtain ⟨-, rfl⟩ := EStateM.Result.ok.inj hrun
          have htraces := h.traces.keep hid t m
          refine ⟨⟨⟨htraces.toPatched, fun q c => ?_, h.agree⟩, htraces.visited,
            htraces.fresh_visited⟩, .keep hanswer (fun _ => rfl) (Graph.label?_mark p.graph id true)⟩
          rw [← h.excess q c]
          exact Graph.excess_of_views (Graph.inputsOf_mark p.graph id true)
            (Graph.parentsOf_mark p.graph id true) q c
      | literal v =>
          rw [finish_of_literal hanswer] at hrun
          have hsize : (p.graph.push (Graph.literalNode v)).size = p.graph.size + 1 :=
            Graph.size_push _ _
          obtain ⟨hagree, k, -, rfl, hk, hexcess⟩ := rerouted_of_settle
            (hsize ▸ Nat.lt_succ_of_lt hlt) (hsize ▸ Nat.lt_succ_self _) (Nat.ne_of_gt hlt) hrun
          -- The node lists the parents that it listed at the start.
          have hlists : ((p.graph.push (Graph.literalNode v)).lists · id) = (g.lists · id) := by
            funext q
            rw [Graph.lists, Graph.lists, Graph.parentsOf_push_literal]
            exact decide_eq_decide.2 (h.mem_parentsOf_iff hrest hid hnew)
          have hagree : g.UsesAgree id :=
            (h.usesAgree_iff hrest hid hnew).1 (Graph.usesAgree_push_literal.1 hagree)
          have htraces := h.traces.literal hid hnew (hlists ▸ hk) t m
          have hstand := standIn_cons (⟨k, t, m⟩ : Session σ) p.substitutes id p.graph.size
          refine ⟨⟨⟨htraces.toPatched, fun q c => ?_, fun j hne => ?_⟩, htraces.visited,
            htraces.fresh_visited⟩, .literal v hanswer hstand fun j => ?_⟩
          · rw [← h.excess q c]
            exact (hexcess q c).trans (Graph.excess_push_literal p.graph v q c)
          · by_cases hj : j = id
            · exact hj ▸ hagree
            · exact h.agree j fun heq => hne ((hstand j).trans ((if_neg hj).trans heq))
          · show k.label? j = _
            rw [hk.label, Graph.label?_push]
            rfl

/-- An induction along a pass over any graph. -/
theorem Processed.follows_induct {g : Graph} {p₀ : Pass σ} {motive : List NodeId → Pass σ → Prop}
    (hrule : rule.NeverUses) (hp₀ : Follows g [] p₀) (hstart : motive [] p₀)
    (hstep : ∀ done p id p', Follows g done p → motive done p → id < g.size →
      g.ChildrenFirst (id :: done) → Finished rule p id p' → motive (id :: done) p')
    {done : List NodeId} {p : Pass σ} (h : Processed rule p₀ done p)
    (horder : g.ChildrenFirst done) (hlt : ∀ id ∈ done, id < g.size) :
    Follows g done p ∧ motive done p := by
  induction h with
  | start => exact ⟨hp₀, hstart⟩
  | @step done p p' id new _ hrun ih =>
      have hid := hlt id (List.mem_cons_self ..)
      obtain ⟨hfollows, hmotive⟩ := ih horder.2.2 fun j hj => hlt j (List.mem_cons_of_mem _ hj)
      obtain ⟨hfollows', hfinished⟩ := hfollows.finish hrule horder hid hrun
      exact ⟨hfollows', hstep done p id p' hfollows hmotive hid horder hfinished⟩

/-- A whole pass over any graph. It gets to the end, or it ends at a node that is
handed over after its inputs. -/
theorem overRoots_follows {g : Graph} {roots order : List NodeId}
    {motive : List NodeId → Pass σ → Prop} (hrule : rule.NeverUses)
    (hpost : g.postorder roots = .ok order) (t : Tally) (m : σ)
    (hstart : motive [] ⟨⟨g.cleared order, t, m⟩, []⟩)
    (hstep : ∀ done p id p', Followed g done p.rewrite → motive done p → id ∈ order →
      g.ChildrenFirst (id :: done) → Finished rule p id p' → motive (id :: done) p') :
    (∃ p, overRoots rule roots ⟨⟨g, t, m⟩, []⟩ = .ok (roots.map p.standIn) p ∧
      Followed g order.reverse p.rewrite ∧ motive order.reverse p) ∨
    ∃ e p done id q, overRoots rule roots ⟨⟨g, t, m⟩, []⟩ = .error e p ∧
      Followed g done q.rewrite ∧ motive done q ∧ id ∈ order ∧ g.ChildrenFirst (id :: done) ∧
      finish rule id q = .error e p := by
  obtain ⟨hsize, hlabel, hinputs, hparents⟩ := g.cleared_views order
  have hpost' := hpost
  rw [← Graph.postorder_congr hsize hinputs] at hpost'
  have hback : ∀ {done : List NodeId} {p : Pass σ}, Follows (g.cleared order) done p →
      Followed g done p.rewrite :=
    fun h => h.toFollowed.congr hsize hlabel hinputs hparents
  have hfollows : ∀ {done : List NodeId} {p : Pass σ},
      Processed rule ⟨⟨g.cleared order, t, m⟩, []⟩ done p →
      (g.cleared order).ChildrenFirst done → (∀ j ∈ done, j < (g.cleared order).size) →
      Follows (g.cleared order) done p ∧ ((∀ j ∈ done, j ∈ order) → motive done p) :=
    Processed.follows_induct (motive := fun done p => (∀ j ∈ done, j ∈ order) → motive done p)
      hrule (follows_start (g.cleared order) t m) (fun _ => hstart)
      fun done p id p' h hm _ hfirst hfin hsub =>
        hstep done p id p' (hback h) (hm fun j hj => hsub j (List.mem_cons_of_mem _ hj))
          (hsub id (List.mem_cons_self ..)) (hfirst.congr hinputs) hfin
  rcases overRoots_lockstep hpost fun _ _ hp horder hlt => (hfollows hp horder hlt).1.traces with
    ⟨p, hrun, hp⟩ | ⟨e, p, hrun, hstopped⟩
  · obtain ⟨hfirst, -⟩ := Graph.postorder_spec hpost'
    have hmem : ∀ j ∈ order.reverse, j ∈ order := fun j hj => List.mem_reverse.1 hj
    obtain ⟨h, hmotive⟩ := hfollows hp hfirst
      fun j hj => Graph.lt_of_mem_postorder hpost' (hmem j hj)
    exact .inl ⟨p, hrun, hback h, hmotive hmem⟩
  · cases hstopped with
    | @intro done id q hp hfirst hlt hbelow hrefused =>
        have hmem : ∀ j ∈ id :: done, j ∈ order := fun j hj =>
          ((Graph.postorder_spec hpost').2 j).2 (hbelow j hj)
        obtain ⟨h, hmotive⟩ := hfollows hp hfirst.2.2 fun j hj => hlt j (List.mem_cons_of_mem _ hj)
        exact .inr ⟨e, p, done, id, q, hrun, hback h,
          hmotive fun j hj => hmem j (List.mem_cons_of_mem _ hj), hmem id (List.mem_cons_self ..),
          hfirst.congr hinputs, hrefused⟩

/-- What a pass that has come to its end leaves of any graph. -/
theorem followed_of_overRoots {g : Graph} {roots news : List NodeId} (hrule : rule.NeverUses)
    {t : Tally} {m : σ} {p : Pass σ}
    (hrun : overRoots rule roots ⟨⟨g, t, m⟩, []⟩ = .ok news p) :
    ∃ order, g.postorder roots = .ok order ∧ Followed g order.reverse p.rewrite ∧
      news = roots.map p.standIn := by
  obtain ⟨order, hpost⟩ :=
    NodeRule.postorder_of_applyRoots (NodeRule.applyRoots_of_overRoots hrun)
  refine ⟨order, hpost, ?_⟩
  rcases overRoots_follows (motive := fun _ _ => True) hrule hpost t m trivial
    fun _ _ _ _ _ _ _ _ _ => trivial with ⟨q, hend, h, -⟩ | ⟨e, q, _, _, _, hend, -⟩
  · rw [hrun] at hend
    cases hend
    exact ⟨h, rfl⟩
  · rw [hrun] at hend
    cases hend

end Pass

/-! ## What the new roots lead to -/

section Reachable

variable {g : Graph} {done : List NodeId} {w : Rewrite}

/-- A replaced node held no input that listed it too seldom. -/
theorem Followed.count_inputsOf_le (h : Followed g done w) {id : NodeId}
    (hne : w.standIn id ≠ id) (c : NodeId) :
    (g.inputsOf id).count c ≤ (g.parentsOf c).count id := by
  have hexcess := h.excess id c
  rw [Graph.excess, h.gone id hne, List.count_nil, Graph.excess] at hexcess
  omega

theorem Followed.inputsOf_eq (h : Followed g done w) {id : NodeId} (hid : id < g.size) :
    w.graph.inputsOf id = if w.standIn id = id then
      (g.inputsOf id).map fun c => if id ∈ g.parentsOf c then w.standIn c else c else [] := by
  by_cases hself : w.standIn id = id
  · rw [if_pos hself, h.kept id hid hself]
    simp only [Graph.lists, decide_eq_true_eq]
  · rw [if_neg hself, h.gone id hself]

/-- A slot of a node that was kept leads to a replaced node, if it held one that
does not list its parent. -/
theorem Followed.standIn_of_holds (h : Followed g done w) {q c : NodeId}
    (hself : w.standIn q = q) (hc : w.graph.Holds q c)
    (hlisted : ∀ c ∈ g.inputsOf q, w.standIn c ≠ c → q ∈ g.parentsOf c) : w.standIn c = c := by
  have hc : c ∈ w.graph.inputsOf q := hc
  rcases Nat.lt_or_ge q g.size with hq | hge
  · rw [h.kept q hq hself] at hc
    obtain ⟨d, hd, rfl⟩ := List.mem_map.1 hc
    by_cases hkept : w.standIn d = d
    · rw [hkept, ite_self, hkept]
    · have hlists : g.lists q d = true := decide_eq_true (hlisted d hd hkept)
      rw [if_pos hlists, h.standIn_standIn]
  · rw [h.inputsOf_of_ge hge] at hc
    cases hc

theorem Followed.rewired_iff (h : Followed g done w) {roots : List NodeId}
    (hroots : ∀ r ∈ roots, w.standIn r = r) :
    (∀ r ∈ roots, ∀ id, w.graph.Reaches r id → w.standIn id = id) ↔
      ∀ r ∈ roots, ∀ q, w.graph.Reaches r q → ∀ c ∈ g.inputsOf q, w.standIn c ≠ c →
        q ∈ g.parentsOf c := by
  constructor
  · intro hkept r hr q hreach c hc hne
    by_contra hnot
    -- The slot holds what it held before, and leads to the replaced node.
    have hself := hkept r hr q hreach
    have hholds : w.graph.Holds q c := by
      show c ∈ w.graph.inputsOf q
      rw [h.kept q (Graph.lt_size_of_mem_inputsOf hc) hself]
      exact List.mem_map.2 ⟨c, hc, if_neg (by simp [Graph.lists, hnot])⟩
    exact hne (hkept r hr c (hreach.tail hholds))
  · intro hlisted r hr id hreach
    induction hreach with
    | refl => exact hroots r hr
    | tail hbelow hstep ih => exact h.standIn_of_holds ih hstep (hlisted r hr _ hbelow)

end Reachable

namespace Graph

/-- What folding has done to a graph, with broken edges or not, when it reports no
error. Every node that was replaced is held as often as it says, and its inputs
list it often enough. The new roots do not lead to a replaced node exactly if
every node below them is listed by the replaced nodes that it held. -/
theorem foldConstants_rewires_iff {g h : Graph} {roots news : List NodeId} {tally : Tally}
    (hrun : foldConstants roots g = .ok (news, tally) h) :
    ∃ p : Pass Interpreter,
      Pass.overRoots (Folding.node Interpreter.evaluate true) roots ⟨⟨g, .zero, .new⟩, []⟩ =
        .ok news p ∧
      p.graph = h ∧
      (∀ id < g.size, h.inputsOf id = if p.standIn id = id then
        (g.inputsOf id).map fun c => if id ∈ g.parentsOf c then p.standIn c else c else []) ∧
      (∀ id, p.standIn id ≠ id →
        g.UsesAgree id ∧ ∀ c, (g.inputsOf id).count c ≤ (g.parentsOf c).count id) ∧
      ((∀ r ∈ news, ∀ id, h.Reaches r id → p.standIn id = id) ↔
        ∀ r ∈ news, ∀ q, h.Reaches r q → ∀ c ∈ g.inputsOf q, p.standIn c ≠ c →
          q ∈ g.parentsOf c) := by
  rw [foldConstants] at hrun
  cases happly : (Folding.rule Interpreter.evaluate true).apply roots ⟨g, .zero, .new⟩ with
  | error e s =>
      rw [happly] at hrun
      cases hrun
  | ok news' s =>
      rw [happly] at hrun
      cases hrun
      obtain ⟨p, hpass, rfl⟩ := NodeRule.overRoots_of_applyRoots happly
      obtain ⟨order, -, hfollowed, rfl⟩ :=
        Pass.followed_of_overRoots (Folding.node_neverUses _ _) hpass
      refine ⟨p, hpass, rfl, fun id hid => hfollowed.inputsOf_eq hid,
        fun id hne => ⟨hfollowed.agree id hne, hfollowed.count_inputsOf_le hne⟩,
        hfollowed.rewired_iff fun r hr => ?_⟩
      obtain ⟨r, -, rfl⟩ := List.mem_map.1 hr
      exact hfollowed.standIn_standIn r

/-- A write of the sum `2 + 2`, in which the sum does not know that it is held. -/
def unlistedSum : Graph :=
  ⟨#[⟨.literal (.int 2), .int, .scalar, [], [1, 1, 2], false⟩,
    ⟨.binary .plus, .int, .scalar, [0, 0], [], false⟩,
    ⟨.data .write "a", .int, .scalar, [1], [], false⟩]⟩

/-- The sum is replaced and loses its inputs, no error is reported, and the write
still holds the sum. -/
theorem foldConstants_unlistedSum :
    ∃ tally h, foldConstants [2] unlistedSum = .ok ([2], tally) h ∧
      ∃ p : Pass Interpreter,
        Pass.overRoots (Folding.node Interpreter.evaluate true) [2]
          ⟨⟨unlistedSum, .zero, .new⟩, []⟩ = .ok [2] p ∧
        p.graph = h ∧ p.standIn 1 ≠ 1 ∧ h.inputsOf 1 = [] ∧ h.inputsOf 2 = [1] ∧
        ¬ ∀ r ∈ [2], ∀ id, h.Reaches r id → p.standIn id = id := by
  have hshape : (match foldConstants [2] unlistedSum with
      | .ok (news, _) h => (news, h.inputsOf 1, h.inputsOf 2)
      | .error _ _ => ([], [], [])) = ([2], [], [1]) := by decide +kernel
  cases hrun : foldConstants [2] unlistedSum with
  | error e h =>
      rw [hrun] at hshape
      cases hshape
  | ok out h =>
      obtain ⟨news, tally⟩ := out
      rw [hrun] at hshape
      obtain ⟨rfl, hinputs⟩ := Prod.mk.inj hshape
      obtain ⟨hsum, hwrite⟩ := Prod.mk.inj hinputs
      obtain ⟨p, hpass, hgraph, hslots, -, hiff⟩ := foldConstants_rewires_iff hrun
      have hne : p.standIn 1 ≠ 1 := by
        intro hself
        have hheld := hslots 1 (by decide)
        rw [hsum, if_pos hself] at hheld
        cases hheld
      refine ⟨tally, h, rfl, p, hpass, hgraph, hne, hsum, hwrite, fun hkept => ?_⟩
      have hlisted := hiff.1 hkept 2 (List.mem_singleton_self 2) 2 Relation.ReflTransGen.refl 1
        (by decide) hne
      exact absurd hlisted (by decide)

end Graph

end OpGraph
