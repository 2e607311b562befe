import OpGraph.Proofs.BrokenEdges
import OpGraph.Proofs.Stopping
import OpGraph.Proofs.Watching

/-!
# What a check says about folding

The check of a graph looks at the nodes below some roots. The inputs of each must
list it as often as it holds them, and its parents must hold it. A parent may lie
outside of what is looked at, and then it is enough that it holds the node at
all. Folding asks for more when it replaces the node: the parent must hold it as
often as it is listed. So a check that passes does not mean that folding goes
through (`Graph.foldConstants_listedTwice`), and this is the only gap
(`checked_folding_iff`).

Which nodes are replaced is known for balanced edges only, so the part below the
roots is cut out. `Graph.trimmed` leaves all other nodes without inputs, and gives
every node the parents that hold it then. Where the check has passed, a pass makes
of the trimmed graph what it makes of a balanced one (`Followed.rewritten`),
whatever the edges outside are. In particular a node becomes what it settles to.

In a program, the folding rule that the settings select comes right after the first
check of a block and before all rules that are added. So the gap that the check leaves
is all that can make it fail (`Optimizer.MeetsGap`). Of an added rule this is not true,
even if it folds constants too: it works on what the rules before it have left, and no
check has seen that.
-/

namespace OpGraph

namespace Graph

/-! ## The part below some nodes -/

/-- The inputs of a node that is among some nodes, and none of any other. -/
def inputsWithin (g : Graph) (ids : List NodeId) (id : NodeId) : List NodeId :=
  if id ∈ ids then g.inputsOf id else []

/-- The graph in which only some nodes have inputs, and every node has the parents
that hold it. -/
def trimmed (g : Graph) (ids : List NodeId) : Graph :=
  ⟨g.nodes.mapIdx fun id n =>
    { n with
      inputs := g.inputsWithin ids id
      parents := (List.range g.size).flatMap fun q =>
        List.replicate ((g.inputsWithin ids q).count id) q }⟩

section Trimmed

variable {g : Graph} {ids : List NodeId} {id : NodeId}

theorem node?_trimmed (g : Graph) (ids : List NodeId) (id : NodeId) :
    (g.trimmed ids).node? id = (g.node? id).map fun n =>
      { n with
        inputs := g.inputsWithin ids id
        parents := (List.range g.size).flatMap fun q =>
          List.replicate ((g.inputsWithin ids q).count id) q } := by
  rw [node?, trimmed, Array.getElem?_mapIdx]
  rfl

@[simp] theorem size_trimmed (g : Graph) (ids : List NodeId) : (g.trimmed ids).size = g.size := by
  simp [size, trimmed]

@[simp] theorem label?_trimmed (g : Graph) (ids : List NodeId) (id : NodeId) :
    (g.trimmed ids).label? id = g.label? id := by
  rw [label?, node?_trimmed, label?]
  cases g.node? id <;> rfl

theorem inputsWithin_of_ge (hge : g.size ≤ id) : g.inputsWithin ids id = [] := by
  rw [inputsWithin, inputsOf, node?_eq_none hge]
  split <;> rfl

@[simp] theorem inputsOf_trimmed (g : Graph) (ids : List NodeId) (id : NodeId) :
    (g.trimmed ids).inputsOf id = g.inputsWithin ids id := by
  rw [inputsOf, node?_trimmed]
  cases hn : g.node? id with
  | none =>
      have hge : g.size ≤ id := Nat.not_lt.1 fun hlt => by
        obtain ⟨n, hn'⟩ := exists_node? hlt
        rw [hn] at hn'
        cases hn'
      exact (inputsWithin_of_ge hge).symm
  | some n => rfl

theorem count_flatMap_replicate (k : Nat → Nat) (p : Nat) : ∀ n : Nat,
    ((List.range n).flatMap fun q => List.replicate (k q) q).count p = if p < n then k p else 0
  | 0 => by simp
  | n + 1 => by
      rw [List.range_succ, List.flatMap_append, List.count_append, count_flatMap_replicate k p n,
        List.flatMap_singleton, List.count_replicate]
      by_cases hp : p = n
      · simp [hp]
      · have hlt : p < n + 1 ↔ p < n := by omega
        simp [Ne.symm hp, hlt]

/-- A graph whose parents are read off the inputs is balanced, if all inputs exist. -/
theorem balanced_trimmed (hinputs : ∀ q ∈ ids, ∀ c ∈ g.inputsOf q, c < g.size) :
    (g.trimmed ids).Balanced := by
  intro p c
  rw [inputsOf_trimmed]
  rcases Nat.lt_or_ge c g.size with hc | hge
  · obtain ⟨n, hn⟩ := exists_node? hc
    have hparents : (g.trimmed ids).parentsOf c = (List.range g.size).flatMap fun q =>
        List.replicate ((g.inputsWithin ids q).count c) q := by
      rw [parentsOf, node?_trimmed, hn]
      rfl
    rw [hparents, count_flatMap_replicate fun q => (g.inputsWithin ids q).count c]
    split
    · rfl
    · next hp => rw [inputsWithin_of_ge (Nat.not_lt.1 hp), List.count_nil]
  · have hparents : (g.trimmed ids).parentsOf c = [] := by
      rw [parentsOf, node?_trimmed, node?_eq_none hge]
      rfl
    rw [hparents, List.count_nil, eq_comm, List.count_eq_zero]
    intro hmem
    unfold inputsWithin at hmem
    split at hmem
    · next hp => exact absurd (hinputs p hp c hmem) (Nat.not_lt.2 hge)
    · cases hmem

theorem inputsOf_trimmed_of_mem (hid : id ∈ ids) :
    (g.trimmed ids).inputsOf id = g.inputsOf id := by
  rw [inputsOf_trimmed, inputsWithin, if_pos hid]

theorem outcome_trimmed (hid : id ∈ ids) (predicates : Bool) :
    (g.trimmed ids).outcome predicates id = g.outcome predicates id :=
  outcome_congr (funext (g.label?_trimmed ids)) (inputsOf_trimmed_of_mem hid)

theorem settles_trimmed_iff (hclosed : ∀ q ∈ ids, ∀ c ∈ g.inputsOf q, c ∈ ids) (hid : id ∈ ids)
    {predicates : Bool} {o : Option Value} :
    (g.trimmed ids).Settles predicates id o ↔ g.Settles predicates id o := by
  have hlabel : (g.trimmed ids).label? = g.label? := funext (g.label?_trimmed ids)
  have hinputs : ∀ j ∈ ids, (g.trimmed ids).inputsOf j = g.inputsOf j :=
    fun j hj => inputsOf_trimmed_of_mem hj
  exact ⟨fun h => h.congr hlabel.symm (fun j hj => (hinputs j hj).symm)
    (fun j hj c hc => hclosed j hj c (hinputs j hj ▸ hc)) hid,
    fun h => h.congr hlabel hinputs hclosed hid⟩

end Trimmed

/-! ## What the check has seen -/

/-- Nodes whose inputs are among them, and at which the two records of the edges
agree as far as the check looks. -/
structure Vouched (g : Graph) (ids : List NodeId) : Prop where
  lt : ∀ id ∈ ids, id < g.size
  closed : ∀ id ∈ ids, ∀ c ∈ g.inputsOf id, c ∈ ids
  agrees : ∀ id ∈ ids, g.AgreesAt id

theorem vouched_of_check {g : Graph} {roots : List NodeId} (h : g.check roots = .ok ()) :
    ∃ order, g.postorder roots = .ok order ∧ g.Vouched order := by
  obtain ⟨order, hpost, hagrees⟩ := check_eq_ok_iff.1 h
  have hmem := (postorder_spec hpost).2
  refine ⟨order, hpost, fun id => lt_of_mem_postorder hpost, fun id hid c hc => ?_, hagrees⟩
  obtain ⟨r, hr, hreach⟩ := (hmem id).1 hid
  exact (hmem c).2 ⟨r, hr, hreach.tail hc⟩

/-- Every parent of a node that does not lie below the roots holds the node as often
as it is listed. -/
def AgreesOutside (g : Graph) (roots : List NodeId) (id : NodeId) : Prop :=
  ∀ q ∈ g.parentsOf id, (∀ r ∈ roots, ¬ g.Reaches r q) →
    (g.inputsOf q).count id = (g.parentsOf id).count q

section Vouched

variable {g : Graph} {ids : List NodeId} {id : NodeId}

/-- The parents below the roots need no condition. -/
theorem Vouched.usesAgree_iff (h : g.Vouched ids) {roots : List NodeId}
    (hpost : g.postorder roots = .ok ids) (hid : id ∈ ids) :
    g.UsesAgree id ↔ g.AgreesOutside roots id := by
  refine ⟨fun hagree q hq _ => hagree q hq, fun houtside q hq => ?_⟩
  by_cases hbelow : ∃ r ∈ roots, g.Reaches r q
  · have hmem : q ∈ ids := ((postorder_spec hpost).2 q).2 hbelow
    exact (h.agrees q hmem).inputs id ((h.agrees id hid).parents q hq)
  · exact houtside q hq fun r hr hreach => hbelow ⟨r, hr, hreach⟩

theorem Vouched.mem_parentsOf (h : g.Vouched ids) (hid : id ∈ ids) {c : NodeId}
    (hc : c ∈ g.inputsOf id) : id ∈ g.parentsOf c := by
  have hcount := (h.agrees id hid).inputs c hc
  have hpos := List.count_pos_iff.2 hc
  exact List.count_pos_iff.1 (hcount ▸ hpos)

theorem Vouched.excess_nonneg (h : g.Vouched ids) (hid : id ∈ ids) (c : NodeId) :
    0 ≤ g.excess id c := by
  unfold excess
  by_cases hc : c ∈ g.inputsOf id
  · have hcount := (h.agrees id hid).inputs c hc
    omega
  · have hcount : (g.inputsOf id).count c = 0 := List.count_eq_zero.2 hc
    omega

theorem Vouched.balanced_trimmed (h : g.Vouched ids) : (g.trimmed ids).Balanced :=
  Graph.balanced_trimmed fun q hq c hc => h.lt c (h.closed q hq c hc)

end Vouched

end Graph

/-! ## A pass over a checked graph -/

section Checked

variable {g : Graph} {ids done : List NodeId} {w : Rewrite} {predicates : Bool} {id : NodeId}

/-- All slots of a node that the check has seen follow the substitution. -/
theorem Followed.inputsOf_kept (h : Followed g done w) (hv : g.Vouched ids) (hid : id ∈ ids)
    (hself : w.standIn id = id) : w.graph.inputsOf id = (g.inputsOf id).map w.standIn := by
  rw [h.inputsOf_eq (hv.lt id hid), if_pos hself]
  exact List.map_congr_left fun c hc => if_pos (hv.mem_parentsOf hid hc)

theorem Followed.input_lt (h : Followed g done w) (hv : g.Vouched ids) (hid : id ∈ ids) :
    ∀ c ∈ w.graph.inputsOf id, c < w.graph.size := by
  intro c hc
  by_cases hself : w.standIn id = id
  · rw [h.inputsOf_kept hv hid hself] at hc
    obtain ⟨d, hd, rfl⟩ := List.mem_map.1 hc
    exact h.standIn_lt (hv.lt d (hv.closed id hid d hd))
  · rw [h.gone id hself] at hc
    cases hc

/-- What a pass has done to a graph, cut down to some nodes. -/
def Rewrite.trimmed (w : Rewrite) (ids : List NodeId) : Rewrite := ⟨w.graph.trimmed ids, w.standIn⟩

/-- Cut down to what the check has seen, the graph is rewritten as one with
balanced edges. -/
theorem Followed.rewritten (h : Followed g done w) (hv : g.Vouched ids) :
    Rewritten (g.trimmed ids) done (w.trimmed ids) where
  balanced := Graph.balanced_trimmed fun _ hq => h.input_lt hv hq
  size := by simpa [Rewrite.trimmed] using h.size
  label j hj := by simpa [Rewrite.trimmed] using h.label j (by simpa using hj)
  kept j hj hself := by
    by_cases hmem : j ∈ ids
    · rw [Rewrite.trimmed, Graph.inputsOf_trimmed_of_mem hmem, Graph.inputsOf_trimmed_of_mem hmem]
      exact h.inputsOf_kept hv hmem hself
    · simp [Rewrite.trimmed, Graph.inputsWithin, hmem]
  gone j hne := by simp [Rewrite.trimmed, Graph.inputsWithin, h.gone j hne]
  done_lt j hj := by simpa using h.done_lt j hj
  replaced j hne := by simpa [Rewrite.trimmed] using h.replaced j hne
  fresh j hge hlt := by
    obtain ⟨v, hlabel, hnone⟩ :=
      h.fresh j (by simpa using hge) (by simpa [Rewrite.trimmed] using hlt)
    exact ⟨v, by simpa [Rewrite.trimmed] using hlabel,
      by simp [Rewrite.trimmed, Graph.inputsWithin, hnone]⟩

section Step

variable {p p' : Pass Interpreter}

theorem Followed.verdict (h : Followed g done p.rewrite) (hv : g.Vouched ids) (hid : id ∈ ids)
    (predicates : Bool) :
    (Folding.node Interpreter.evaluate predicates p.graph id p.tally.countVisit p.memory).1 =
      .ok ((p.graph.outcome predicates id).elim .keep .literal) :=
  Folding.node_verdict_of_inputs (Nat.lt_of_lt_of_le (hv.lt id hid) h.size) (h.input_lt hv hid)
    predicates _ _

/-- A node that was handed over has become what it settles to. -/
theorem Followed.folded_step (h : Followed g done p.rewrite) (hv : g.Vouched ids)
    (hfolded : Folded (g.trimmed ids) predicates done (p.rewrite.trimmed ids)) (hid : id ∈ ids)
    (horder : g.ChildrenFirst (id :: done))
    (hfinished : Pass.Finished (Folding.node Interpreter.evaluate predicates) p id p') :
    Folded (g.trimmed ids) predicates (id :: done) (p'.rewrite.trimmed ids) := by
  obtain ⟨hnew, hinputs, -⟩ := horder
  have hlt : id < (g.trimmed ids).size := (g.size_trimmed ids).symm ▸ hv.lt id hid
  have hbelow : ∀ c ∈ (g.trimmed ids).inputsOf id, c ∈ done := by
    rw [Graph.inputsOf_trimmed_of_mem hid]
    exact hinputs
  have hout : (p.rewrite.trimmed ids).graph.outcome predicates id = p.graph.outcome predicates id :=
    Graph.outcome_trimmed hid predicates
  rcases hfinished.outcome (h.verdict hv hid predicates) with
    ⟨hnone, hstand, hlabel⟩ | ⟨v, hsome, hstand, hlabel⟩
  · refine hfolded.keep hv.balanced_trimmed (h.rewritten hv) hlt hnew hbelow (hout.trans hnone)
      hstand fun j => ?_
    exact (Graph.label?_trimmed ..).trans ((hlabel j).trans (Graph.label?_trimmed ..).symm)
  · have hsize : (p.rewrite.trimmed ids).graph.size = p.graph.size := Graph.size_trimmed ..
    refine hfolded.literal hv.balanced_trimmed (h.rewritten hv) hlt hnew hbelow (hout.trans hsome)
      (fun j => hsize ▸ hstand j) fun j => ?_
    rw [hsize]
    exact (Graph.label?_trimmed ..).trans ((hlabel j).trans
      (by rw [← Graph.label?_trimmed p.graph ids j]; rfl))

/-- A node with an outcome is an operator that settles to it. -/
theorem Followed.settles_of_outcome (h : Followed g done p.rewrite) (hv : g.Vouched ids)
    (hfolded : Folded (g.trimmed ids) predicates done (p.rewrite.trimmed ids)) (hid : id ∈ ids)
    (horder : g.ChildrenFirst (id :: done)) {v : Value}
    (hsome : p.graph.outcome predicates id = some v) :
    g.literalAt? id = none ∧ g.Settles predicates id (some v) := by
  obtain ⟨hnew, hinputs, -⟩ := horder
  have hlit : g.literalAt? id = none := by
    have hnone := (Graph.operator_of_outcome hsome).1
    rwa [Graph.literalAt?, h.label id (hv.lt id hid)] at hnone
  have hsettles := hfolded.settles_outcome hv.balanced_trimmed (h.rewritten hv)
    ((g.size_trimmed ids).symm ▸ hv.lt id hid) (h.standIn_eq hnew)
    (by rw [Graph.inputsOf_trimmed_of_mem hid]; exact hinputs)
  have hout : (p.rewrite.trimmed ids).graph.outcome predicates id = some v :=
    (Graph.outcome_trimmed hid predicates).trans hsome
  rw [hout, Option.some_or] at hsettles
  exact ⟨hlit, (Graph.settles_trimmed_iff hv.closed hid).1 hsettles⟩

/-- A node can be handed over if it agrees with its parents, should it be replaced. -/
theorem Followed.exists_finish (h : Followed g done p.rewrite) (hv : g.Vouched ids)
    (hid : id ∈ ids) (horder : g.ChildrenFirst (id :: done))
    (hagree : ∀ v, p.graph.outcome predicates id = some v → g.UsesAgree id) :
    ∃ new p', Pass.finish (Folding.node Interpreter.evaluate predicates) id p = .ok new p' := by
  have hlt : id < p.graph.size := Nat.lt_of_lt_of_le (hv.lt id hid) h.size
  have hverdict := h.verdict hv hid predicates
  rcases hanswer : Folding.node Interpreter.evaluate predicates p.graph id p.tally.countVisit
    p.memory with ⟨verdict, t, m⟩
  rw [hanswer] at hverdict
  cases hout : p.graph.outcome predicates id with
  | none =>
      rw [hout] at hverdict
      cases hverdict
      exact ⟨_, _, Pass.finish_keep hlt hanswer⟩
  | some v =>
      rw [hout] at hverdict
      cases hverdict
      have hsize : (p.graph.push (Graph.literalNode v)).size = p.graph.size + 1 :=
        Graph.size_push _ _
      have hagree : (p.graph.push (Graph.literalNode v)).UsesAgree id :=
        Graph.usesAgree_push_literal.2
          ((h.usesAgree_iff horder.2.2 (hv.lt id hid) horder.1).2 (hagree v hout))
      have hexcess : ∀ c, 0 ≤ (p.graph.push (Graph.literalNode v)).excess id c := by
        intro c
        rw [Graph.excess_push_literal, h.excess]
        exact hv.excess_nonneg hid c
      rw [Pass.finish_of_literal hanswer]
      exact ⟨_, Pass.exists_settle (hsize ▸ Nat.lt_succ_of_lt hlt) (hsize ▸ Nat.lt_succ_self _)
        (Nat.ne_of_gt hlt) hagree hexcess⟩

end Step

end Checked

/-- Where the check passes, folding goes through exactly if what it replaces
agrees with the parents outside. -/
theorem Folding.exists_apply_iff {g : Graph} {roots : List NodeId} (hcheck : g.check roots = .ok ())
    (predicates : Bool) (t : Tally) (m : Interpreter) :
    (∃ news s, (rule Interpreter.evaluate predicates).apply roots ⟨g, t, m⟩ = .ok news s) ↔
      ∀ id, g.FoldedAway predicates roots id → g.AgreesOutside roots id := by
  obtain ⟨order, hpost, hv⟩ := Graph.vouched_of_check hcheck
  have hmem := (Graph.postorder_spec hpost).2
  have hrun := Pass.overRoots_follows
    (motive := fun done p => Folded (g.trimmed order) predicates done (p.rewrite.trimmed order))
    (Folding.node_neverUses Interpreter.evaluate predicates) hpost t m
    ⟨fun _ hj => absurd hj List.not_mem_nil, fun _ hne => absurd rfl hne⟩
    fun done p id p' h hfolded hid horder hfin => h.folded_step hv hfolded hid horder hfin
  constructor
  · rintro ⟨news, s, happly⟩ id ⟨hlit, ⟨v, hsettles⟩, hbelow⟩
    have hid := (hmem id).2 hbelow
    rcases hrun with ⟨p, -, h, hfolded⟩ | ⟨e, p, -, -, -, hstop, -⟩
    · refine (hv.usesAgree_iff hpost hid).1 (h.agree id ?_)
      refine (hfolded.standIn_ne_iff (h.rewritten hv) (List.mem_reverse.2 hid)).2 ⟨?_, v, ?_⟩
      · rwa [Graph.literalAt?, Graph.label?_trimmed]
      · exact (Graph.settles_trimmed_iff hv.closed hid).2 hsettles
    · obtain ⟨q, hpass, -⟩ := NodeRule.overRoots_of_applyRoots happly
      rw [hpass] at hstop
      cases hstop
  · intro hagrees
    rcases hrun with ⟨p, hend, -⟩ | ⟨e, p, done, id, q, -, h, hfolded, hid, horder, hrefused⟩
    · exact ⟨_, _, NodeRule.applyRoots_of_overRoots hend⟩
    · obtain ⟨new, q', hdone⟩ := h.exists_finish hv hid horder fun v hsome => by
        obtain ⟨hlit, hsettles⟩ := h.settles_of_outcome hv hfolded hid horder hsome
        exact (hv.usesAgree_iff hpost hid).2 (hagrees id ⟨hlit, ⟨v, hsettles⟩, (hmem id).1 hid⟩)
      rw [hdone] at hrefused
      cases hrefused

/-- The same for every evaluator that answers as the interpreter does, whatever else is
in its memory. -/
theorem Folding.exists_apply_mirrored_iff {σ : Type} {f : σ → Interpreter} {evaluate : Evaluator σ}
    (hevaluate : evaluate.Mirrors f Interpreter.evaluate) {g : Graph} {roots : List NodeId}
    (hcheck : g.check roots = .ok ()) (predicates : Bool) (t : Tally) (m : σ) :
    (∃ news s, (rule evaluate predicates).apply roots ⟨g, t, m⟩ = .ok news s) ↔
      ∀ id, g.FoldedAway predicates roots id → g.AgreesOutside roots id := by
  rw [← exists_apply_iff hcheck predicates t (f m)]
  have hsame : (rule Interpreter.evaluate predicates).apply roots ⟨g, t, f m⟩ =
      Session.outcomeThrough f ((rule evaluate predicates).apply roots ⟨g, t, m⟩) :=
    (mirrors_node hevaluate predicates).applyRoots_eq roots ⟨g, t, m⟩
  rw [hsame]
  cases (rule evaluate predicates).apply roots ⟨g, t, m⟩ <;> simp [Session.outcomeThrough]

/-! ## Programs -/

namespace Optimizer

variable {σ : Type} {o : Optimizer σ}

/-- A run comes to a block with the given name that passes its first check, and below
its roots a node is to be replaced that disagrees with a parent outside. -/
def MeetsGap (o : Optimizer σ) (predicates : Bool) (program : Program) (memory : σ)
    (block : String) : Prop :=
  ∃ k b before s, program.blocks[k]? = some b ∧ b.name = block ∧
    o.runBlocks ⟨program.graph, .zero, memory⟩ (program.blocks.take k) = (.ok (), before, s) ∧
    s.graph.check b.roots = .ok () ∧
    ∃ id, s.graph.FoldedAway predicates b.roots id ∧ ¬ s.graph.AgreesOutside b.roots id

section Folding

variable {f : σ → Interpreter} {evaluate : Evaluator σ} {predicates : Bool}
  {added : List (Rule σ)} {program : Program} {memory : σ} {block : String}

/-- A folding rule that comes first fails only at such a block. -/
theorem FailsAfter.meetsGap (hevaluate : evaluate.Mirrors f Interpreter.evaluate)
    (ho : o.rules = Folding.rule evaluate predicates :: added)
    (hverify : o.settings.verify = true) {name : String} {e : GraphError}
    (h : o.FailsAfter program memory block [] (.rule name block e)) :
    name = "constant_folding" ∧ o.MeetsGap predicates program memory block := by
  obtain ⟨k, b, before, s, j, hb, hblock, hbefore, hstops⟩ := h
  obtain ⟨rule, rest, j₁, s', hfirst, hsplit, hname, -, hdone, happly⟩ := hstops.of_rule_error
  have hcheck : s.graph.check b.roots = .ok () := check_of_verify hverify hfirst
  rw [ho] at hsplit
  cases hsplit
  cases hdone
  refine ⟨hname.symm, k, b, before, s, hb, hblock, hbefore, hcheck, ?_⟩
  by_contra hnone
  push Not at hnone
  obtain ⟨news, s'', hok⟩ :=
    (Folding.exists_apply_mirrored_iff hevaluate hcheck predicates .zero s.memory).2 hnone
  rw [hok] at happly
  cases happly

theorem MeetsGap.failsAfter (hevaluate : evaluate.Mirrors f Interpreter.evaluate)
    (ho : o.rules = Folding.rule evaluate predicates :: added)
    (h : o.MeetsGap predicates program memory block) :
    ∃ e, o.FailsAfter program memory block [] (.rule "constant_folding" block e) := by
  obtain ⟨k, b, before, s, hb, rfl, hbefore, hcheck, id, haway, hnot⟩ := h
  cases happly : (Folding.rule evaluate predicates).apply b.roots { s with tally := .zero } with
  | ok news s' =>
      exact absurd ((Folding.exists_apply_mirrored_iff hevaluate hcheck predicates .zero
        s.memory).1 ⟨news, s', happly⟩ id haway) hnot
  | error e s' =>
      have herror : applyRule (Folding.rule evaluate predicates) ⟨s, b⟩ =
          .error (.rule "constant_folding" b.name e) ⟨{ s' with tally := s.tally }, b⟩ := by
        rw [applyRule, happly]
        rfl
      exact ⟨e, k, b, before, s, _, hb, rfl, hbefore,
        .rule (verify_of_check hcheck) ho rfl herror⟩

end Folding

section Selected

variable {settings : Settings} {f : σ → Interpreter} {evaluate : Evaluator σ}
  {added : List (Rule σ)} {program : Program} {memory : σ} {block : String}

/-- The folding rule is the only one that settings select, and it comes before all that
are added. -/
theorem rules_with_added (hnew : new settings evaluate = .ok o)
    (hfold : settings.constantFolding = true) (added : List (Rule σ)) :
    (added.foldl withRule o).rules = Folding.rule evaluate settings.foldPredicates :: added := by
  rw [foldl_withRule]
  change o.rules ++ added = _
  rw [rules_of_new hnew, if_pos hfold]
  rfl

theorem FailsAfter.meetsGap_of_selected (hevaluate : evaluate.Mirrors f Interpreter.evaluate)
    (hnew : new settings evaluate = .ok o) (hverify : settings.verify = true)
    {done : List (Rule σ)} {name : String} {e : GraphError}
    (h : (added.foldl withRule o).FailsAfter program memory block done (.rule name block e))
    (hlt : done.length < o.rules.length) :
    name = "constant_folding" ∧ settings.constantFolding = true ∧
      (added.foldl withRule o).MeetsGap settings.foldPredicates program memory block := by
  have hchecks : (added.foldl withRule o).settings.verify = true := by
    rw [foldl_withRule]
    exact (settings_of_new hnew).symm ▸ hverify
  rw [rules_of_new hnew] at hlt
  split at hlt
  · next hfold =>
      cases List.eq_nil_of_length_eq_zero (Nat.lt_one_iff.1 hlt)
      obtain ⟨hname, hmeets⟩ := h.meetsGap hevaluate (rules_with_added hnew hfold added) hchecks
      exact ⟨hname, hfold, hmeets⟩
  · exact absurd hlt (Nat.not_lt_zero _)

end Selected

end Optimizer

/-- A check that passes leaves one way for folding to fail: a node that is to be
replaced, and a parent outside that holds it more or less often than the node says.

With checks, and whatever rules are added, a run over a program fails at the folding
rule that the settings select exactly if it comes to a block that passes its first check
and has such a node below its roots. If no added rule has the name that an error
reports, the name is enough to tell. The evaluator is the interpreter, and its memory may
hold what the added rules remember as well. -/
theorem checked_folding_iff :
    (∀ (g : Graph) (roots : List NodeId), g.check roots = .ok () →
      ((∃ out h, Graph.foldConstants roots g = .ok out h) ↔
        ∀ id, g.FoldedAway true roots id → g.AgreesOutside roots id)) ∧
    ∀ (σ : Type) (f : σ → Interpreter) (evaluate : Evaluator σ) (settings : Settings)
      (o : Optimizer σ) (added : List (Rule σ)) (program : Program) (memory : σ) (block : String),
      evaluate.Mirrors f Interpreter.evaluate → Optimizer.new settings evaluate = .ok o →
      settings.verify = true →
      let full := added.foldl Optimizer.withRule o
      let gap := settings.constantFolding = true ∧
        full.MeetsGap settings.foldPredicates program memory block
      ((∃ done e, (full.run program memory).1 = .error (.rule "constant_folding" block e) ∧
          full.FailsAfter program memory block done (.rule "constant_folding" block e) ∧
          done.length < o.rules.length) ↔ gap) ∧
      ∀ name, (∀ rule ∈ added, rule.name ≠ name) →
        ((∃ e, (full.run program memory).1 = .error (.rule name block e)) ↔
          name = "constant_folding" ∧ gap) := by
  refine ⟨fun g roots hcheck => ?_, ?_⟩
  · rw [← Folding.exists_apply_iff hcheck true .zero .new, Graph.foldConstants]
    cases (Folding.rule Interpreter.evaluate true).apply roots ⟨g, .zero, .new⟩ with
    | ok news s => exact iff_of_true ⟨_, _, rfl⟩ ⟨_, _, rfl⟩
    | error e s =>
        constructor
        · rintro ⟨out, h, hok⟩
          cases hok
        · rintro ⟨news, s', hok⟩
          cases hok
  · intro σ f evaluate settings o added program memory block hevaluate hnew hverify full gap
    have hfails : gap → ∃ done e,
        (full.run program memory).1 = .error (.rule "constant_folding" block e) ∧
          full.FailsAfter program memory block done (.rule "constant_folding" block e) ∧
          done.length < o.rules.length := by
      rintro ⟨hfold, hmeets⟩
      obtain ⟨e, hfails⟩ :=
        hmeets.failsAfter hevaluate (Optimizer.rules_with_added hnew hfold added)
      refine ⟨[], e, Optimizer.run_eq_error_iff_failsAfter.2 ⟨_, _, hfails⟩, hfails, ?_⟩
      rw [Optimizer.rules_of_new hnew, if_pos hfold]
      exact Nat.zero_lt_one
    refine ⟨⟨?_, hfails⟩, fun name hnames => ⟨?_, ?_⟩⟩
    · rintro ⟨done, e, -, hfailed, hlt⟩
      exact (hfailed.meetsGap_of_selected hevaluate hnew hverify hlt).2
    · rintro ⟨e, herror⟩
      obtain ⟨_, done, hfailed⟩ := Optimizer.run_eq_error_iff_failsAfter.1 herror
      obtain ⟨rfl, -⟩ := hfailed.of_rule_error
      rcases hfailed.selected_or_added with hlt | ⟨rule, hrule, hname⟩
      · exact hfailed.meetsGap_of_selected hevaluate hnew hverify hlt
      · exact absurd hname (hnames rule hrule)
    · rintro ⟨rfl, hmeets⟩
      obtain ⟨-, e, herror, -⟩ := hfails hmeets
      exact ⟨e, herror⟩

/-- The sum `2 + 2`, held once by a node that it lists twice. -/
def Graph.listedTwice : Graph :=
  ⟨#[⟨.literal (.int 2), .int, .scalar, [], [1, 1], false⟩,
    ⟨.binary .plus, .int, .scalar, [0, 0], [2, 2], false⟩,
    ⟨.binary .plus, .int, .scalar, [1, 0], [], false⟩]⟩

/-- The part below the sum passes the check, and folding the sum fails, alone and
as a block of a program. -/
theorem Graph.foldConstants_listedTwice :
    listedTwice.check [1] = .ok () ∧
    (∃ h, foldConstants [1] listedTwice = .error (.unequalCounts 1 2 1 2) h) ∧
    ∃ o, Optimizer.new ⟨true, true, true⟩ Interpreter.evaluate = .ok o ∧
      (o.run ⟨listedTwice, [⟨"a", [1]⟩]⟩ .new).1 =
        .error (.rule "constant_folding" "a" (.unequalCounts 1 2 1 2)) := by
  refine ⟨by decide +kernel, ?_, ⟨_, rfl, by decide +kernel⟩⟩
  have hshape : (match foldConstants [1] listedTwice with
      | .ok _ _ => none
      | .error e _ => some e) = some (.unequalCounts 1 2 1 2) := by decide +kernel
  cases hrun : foldConstants [1] listedTwice with
  | ok out h =>
      rw [hrun] at hshape
      cases hshape
  | error e h =>
      rw [hrun] at hshape
      cases hshape
      exact ⟨h, rfl⟩

/-- The sum `2 + 2`, held twice by a node that lists a parent which is not there. -/
def Graph.brokenOutside : Graph :=
  ⟨#[⟨.literal (.int 2), .int, .scalar, [], [1, 1], false⟩,
    ⟨.binary .plus, .int, .scalar, [0, 0], [2, 2], false⟩,
    ⟨.binary .times, .int, .scalar, [1, 1], [7], false⟩]⟩

/-- The literal and the sum above it, as two blocks. -/
def Program.literalThenSum : Program := ⟨.listedTwice, [⟨"a", [0]⟩, ⟨"b", [1]⟩]⟩

/-- A run that only marks the literal comes to the sum and meets the gap there. -/
theorem Optimizer.meetsGap_literalThenSum {o : Optimizer Interpreter}
    (hfirst : (match o.runBlocks ⟨Graph.listedTwice, .zero, .new⟩ [⟨"a", [0]⟩] with
      | (outcome, _, s) => (outcome, s.graph)) = (.ok (), Graph.listedTwice.mark 0 true)) :
    o.MeetsGap true Program.literalThenSum .new "b" := by
  rcases hrun : o.runBlocks ⟨Graph.listedTwice, .zero, .new⟩ [⟨"a", [0]⟩] with ⟨outcome, done, s⟩
  rw [hrun] at hfirst
  obtain ⟨rfl, hgraph⟩ := Prod.mk.inj hfirst
  refine ⟨1, ⟨"b", [1]⟩, done, s, rfl, rfl, hrun, ?_⟩
  rw [hgraph]
  have hpost : (Graph.listedTwice.mark 0 true).postorder [1] = .ok [0, 1] := by decide +kernel
  have hroot := Graph.mem_postorder_of_root hpost (List.mem_singleton_self 1)
  refine ⟨by decide +kernel, 1,
    ⟨by decide, ⟨.int 4, ?_⟩, ((Graph.postorder_spec hpost).2 1).1 hroot⟩, fun hagrees => ?_⟩
  · have hliteral : (Graph.listedTwice.mark 0 true).Settles true 0 (some (.int 2)) := .literal rfl
    have hvalue : some (.int 4) = (Graph.listedTwice.mark 0 true).binaryOutcome true .plus .int
        0 0 (some (.int 2)) (some (.int 2)) := by decide +kernel
    rw [hvalue]
    exact .binary rfl hliteral hliteral
  · -- The other node that the sum lists is not below it, and holds it once.
    have hcount := hagrees 2 (by decide) fun r hr hreach => by
      have hmem := ((Graph.postorder_spec hpost).2 2).2 ⟨r, hr, hreach⟩
      exact absurd hmem (by decide)
    exact absurd hcount (by decide)

/-- A graph that is broken out of reach of what is folded, and a program whose second
block passes its check and fails at the selected rule, also if a rule with its name is
added. Without added rules, the name that is reported is enough. -/
theorem checked_folding_iff_brokenOutside :
    Graph.brokenOutside.check [1] = .ok () ∧
    (∃ out h, Graph.foldConstants [1] Graph.brokenOutside = .ok out h) ∧
    ∃ o, Optimizer.new ⟨true, true, true⟩ Interpreter.evaluate = .ok o ∧
      (∃ done e, ((o.withRule (Folding.rule Interpreter.evaluate true)).run
            Program.literalThenSum .new).1 = .error (.rule "constant_folding" "b" e) ∧
          (o.withRule (Folding.rule Interpreter.evaluate true)).FailsAfter Program.literalThenSum
            .new "b" done (.rule "constant_folding" "b" e) ∧
          done.length < o.rules.length) ∧
      ∃ e, (o.run Program.literalThenSum .new).1 = .error (.rule "constant_folding" "b" e) := by
  have hcheck : Graph.brokenOutside.check [1] = .ok () := by decide +kernel
  have hnew : Optimizer.new ⟨true, true, true⟩ Interpreter.evaluate =
      .ok ⟨⟨true, true, true⟩, [Folding.rule Interpreter.evaluate true]⟩ := rfl
  refine ⟨hcheck, (checked_folding_iff.1 _ _ hcheck).2 ?_, _, hnew, ?_, ?_⟩
  · rintro id ⟨hlit, -, hbelow⟩ q hq -
    have hpost : Graph.brokenOutside.postorder [1] = .ok [0, 1] := by decide +kernel
    rcases List.mem_pair.1 (((Graph.postorder_spec hpost).2 id).2 hbelow) with rfl | rfl
    · cases hlit
    · rcases List.mem_pair.1 hq with rfl | rfl <;> rfl
  · exact (checked_folding_iff.2 Interpreter id Interpreter.evaluate _ _
      [Folding.rule Interpreter.evaluate true] _ _ _ (fun _ _ _ => rfl) hnew rfl).1.2
        ⟨rfl, Optimizer.meetsGap_literalThenSum (by decide +kernel)⟩
  · exact ((checked_folding_iff.2 Interpreter id Interpreter.evaluate _ _ [] _ _ _
      (fun _ _ _ => rfl) hnew rfl).2 "constant_folding" nofun).2
        ⟨rfl, rfl, Optimizer.meetsGap_literalThenSum (by decide +kernel)⟩

end OpGraph
