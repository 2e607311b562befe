import OpGraph.Proofs.Blocks
import OpGraph.Proofs.Fixpoint

/-!
# One run over a program is enough

A second run over the program that a first one has left goes through, folds
nothing, and returns the program as it is, marks included. The blocks may share
nodes in any way. A later block works on the graph after an earlier block has
come to rest, replaces nodes and cuts others off, and may name as a root what an
earlier block has replaced.

It opens nothing again. The passes of all blocks together make of every node
below a root what it settles to (`FoldedBelow`), so below what stands in for a
root there is nothing left to fold, whichever pass came last. A root that goes by
its old number although it was replaced has lost its inputs, and there is nothing
below it at all. Both kinds of nodes carry a mark, and so a pass that finds
nothing to do leaves the graph as it was.

The first run goes through because a pass never adds an edge to a node of the old
graph: what could be walked before it can be walked after it.
-/

namespace OpGraph

/-- A pass opens no endless way down, also not below the nodes that it replaced. -/
theorem Rewritten.grounded_self {g : Graph} {done : List NodeId} {w : Rewrite} {id : NodeId}
    (h : Rewritten g done w) (hground : g.Grounded id) : w.graph.Grounded id := by
  by_cases hself : w.standIn id = id
  · exact hself ▸ h.grounded hground
  · refine Acc.intro _ fun c hc => ?_
    have hc : c ∈ w.graph.inputsOf id := hc
    rw [h.gone id hself] at hc
    cases hc

/-- There is nothing to fold below some roots, and everything there is marked. -/
def Graph.AtRest (g : Graph) (predicates : Bool) (roots : List NodeId) : Prop :=
  ∃ order, g.postorder roots = .ok order ∧
    ∀ id ∈ order, g.visited? id = some true ∧ g.outcome predicates id = none

theorem Folding.apply_of_atRest {g : Graph} (hg : g.Balanced) {predicates : Bool}
    {roots : List NodeId} (h : g.AtRest predicates roots) (t : Tally) (m : Interpreter) :
    ∃ t' m', (rule Interpreter.evaluate predicates).apply roots ⟨g, t, m⟩ =
      .ok roots ⟨g, t', m'⟩ ∧ t'.folds = t.folds := by
  obtain ⟨order, hpost, hrest⟩ := h
  have hkeep : ∀ k, g.Remarked k → ∀ id ∈ order,
      (node Interpreter.evaluate predicates).KeepsAt k id := by
    intro k hk id hid
    have hlt : id < k.size := hk.size ▸ Graph.lt_of_mem_postorder hpost hid
    exact keepsAt (hk.balanced hg) hlt ((hk.outcome predicates id).trans (hrest id hid).2)
  obtain ⟨t', m', hrun, hfolds⟩ := Pass.overRoots_idle (putsLiterals _ _) hg hpost
    (fun id hid => (hrest id hid).1) hkeep t m
  exact ⟨t', m', NodeRule.applyRoots_of_overRoots hrun, hfolds⟩

/-! ## What the passes of all blocks leave -/

section Below

variable {g : Graph} {predicates : Bool} {roots done : List NodeId} {w : Rewrite} {id j : NodeId}

theorem FoldedBelow.atRest_standIn (hg : g.Balanced) (h : FoldedBelow g predicates roots done w)
    (hmarked : Optimizer.Marked g done w) (hid : id ∈ done)
    (hreach : w.graph.Reaches (w.standIn id) j) :
    w.graph.visited? j = some true ∧ w.graph.outcome predicates j = none := by
  obtain ⟨k, hk, rfl⟩ := h.toRewritten.reaches_standIn hreach
  have hmem : k ∈ done := by
    obtain ⟨r, hr, hbelow⟩ := (h.mem_done id).1 hid
    exact (h.mem_done k).2 ⟨r, hr, hbelow.trans hk⟩
  refine ⟨hmarked _ (h.standIn_lt (h.done_lt k hmem)) ?_, ?_⟩
  · by_cases hself : w.standIn k = k
    · exact .inl (hself.symm ▸ hmem)
    · exact .inr (h.replaced k hself).2.1
  · exact h.toFolded.outcome_standIn hg h.toRewritten hmem fun c hc => h.mem_of_holds hmem hc

/-- What is left of a replaced node has nothing below it. -/
theorem FoldedBelow.atRest_replaced (h : FoldedBelow g predicates roots done w)
    (hmarked : Optimizer.Marked g done w) (hne : w.standIn id ≠ id)
    (hreach : w.graph.Reaches id j) :
    w.graph.visited? j = some true ∧ w.graph.outcome predicates j = none := by
  have hself : id = j := by
    rcases Relation.ReflTransGen.cases_head hreach with heq | ⟨c, hc, -⟩
    · exact heq
    · have hc : c ∈ w.graph.inputsOf id := hc
      rw [h.gone id hne] at hc
      cases hc
  subst hself
  have hmem := (h.replaced id hne).1
  have hlt : id < w.graph.size := Nat.lt_of_lt_of_le (h.done_lt id hmem) h.size
  refine ⟨hmarked id hlt (.inl hmem), ?_⟩
  rw [Graph.outcome, h.toFolded.form_of_replaced h.toRewritten hne]

/-- The roots of a block after all passes can be walked, and are at rest. -/
theorem FoldedBelow.atRest_renamed (hg : g.Balanced) (h : FoldedBelow g predicates roots done w)
    (hmarked : Optimizer.Marked g done w) {earlier : List NodeId} (hsub : ∀ r ∈ earlier, r ∈ roots)
    {old new : Block} (hold : ∀ r ∈ old.roots, r ∈ roots)
    (hrenamed : Optimizer.Renamed g predicates earlier w old new) :
    w.graph.AtRest predicates new.roots := by
  obtain ⟨f, hroots, hf⟩ := hrenamed
  -- A root is what stands in for it, or it was replaced in an earlier block.
  have hcases : ∀ r ∈ old.roots, r ∈ done ∧ (f r = w.standIn r ∨ (f r = r ∧ w.standIn r ≠ r)) := by
    intro r hr
    refine ⟨(h.mem_done r).2 ⟨r, hold r hr, Relation.ReflTransGen.refl⟩, ?_⟩
    by_cases haway : g.FoldedAway predicates earlier r
    · exact .inr ⟨(hf r hr).1 haway, h.standIn_ne_iff.2 (haway.mono hsub)⟩
    · exact .inl ((hf r hr).2 haway)
  have hroot : ∀ r' ∈ new.roots, r' < w.graph.size ∧ w.graph.Grounded r' ∧
      ∀ j, w.graph.Reaches r' j →
        w.graph.visited? j = some true ∧ w.graph.outcome predicates j = none := by
    intro r' hr'
    rw [hroots] at hr'
    obtain ⟨r, hr, rfl⟩ := List.mem_map.1 hr'
    obtain ⟨hmem, hstand | ⟨hself, hne⟩⟩ := hcases r hr
    · rw [hstand]
      exact ⟨h.standIn_lt (h.done_lt r hmem), h.toRewritten.grounded (h.grounded r hmem),
        fun j hj => h.atRest_standIn hg hmarked hmem hj⟩
    · rw [hself]
      exact ⟨Nat.lt_of_lt_of_le (h.done_lt r hmem) h.size,
        h.toRewritten.grounded_self (h.grounded r hmem),
        fun j hj => h.atRest_replaced hmarked hne hj⟩
  obtain ⟨order, hpost⟩ := Graph.exists_postorder (fun r hr => (hroot r hr).1)
    (fun _ _ hc => h.balanced.input_lt hc) fun r hr => (hroot r hr).2.1
  refine ⟨order, hpost, fun id hid => ?_⟩
  obtain ⟨r, hr, hreach⟩ := ((Graph.postorder_spec hpost).2 id).1 hid
  exact (hroot r hr).2.2 id hreach

end Below

/-! ## Runs -/

namespace Optimizer

variable {σ : Type} {o : Optimizer σ} {rule : Rule σ}

/-- A block whose one rule goes through, between two checks that pass. -/
theorem runBlock_of_apply (ho : o.rules = [rule]) {j : Job σ} {news : List NodeId} {s : Session σ}
    (hbefore : j.graph.check j.block.roots = .ok ())
    (happly : rule.apply j.block.roots { j.toSession with tally := .zero } = .ok news s)
    (hafter : s.graph.check news = .ok ()) :
    o.runBlock j =
      .ok () ⟨{ s with tally := j.tally.add s.tally }, { j.block with roots := news }⟩ := by
  have hrule : applyRule rule j =
      .ok () ⟨{ s with tally := j.tally.add s.tally }, { j.block with roots := news }⟩ := by
    rw [applyRule, happly]
  have hrules : applyRules [rule] j =
      .ok () ⟨{ s with tally := j.tally.add s.tally }, { j.block with roots := news }⟩ :=
    bind_ok hrule
  unfold runBlock
  rw [bind_ok (verify_of_check hbefore), ho, bind_ok hrules]
  exact verify_of_check hafter

/-- The work on a block that leaves the graph and the block as they are and folds
nothing. -/
def Idles (o : Optimizer σ) (g : Graph) (b : Block) : Prop :=
  ∀ t m, ∃ t' m', o.runBlock ⟨⟨g, t, m⟩, b⟩ = .ok () ⟨⟨g, t', m'⟩, b⟩ ∧ t'.folds = t.folds

theorem runBlocks_idle {g : Graph} {blocks : List Block} (h : ∀ b ∈ blocks, o.Idles g b) :
    ∀ t m, ∃ t' m', o.runBlocks ⟨g, t, m⟩ blocks = (.ok (), blocks, ⟨g, t', m'⟩) ∧
      t'.folds = t.folds := by
  induction blocks with
  | nil => exact fun t m => ⟨t, m, rfl, rfl⟩
  | cons b rest ih =>
      intro t m
      obtain ⟨t₁, m₁, hblock, hfolds₁⟩ := h b (List.mem_cons_self ..) t m
      obtain ⟨t', m', hrest, hfolds⟩ := ih (fun c hc => h c (List.mem_cons_of_mem _ hc)) t₁ m₁
      refine ⟨t', m', ?_, hfolds.trans hfolds₁⟩
      rw [runBlocks, hblock]
      simp only []
      rw [hrest]

theorem run_idle {program : Program} (h : ∀ b ∈ program.blocks, o.Idles program.graph b)
    (memory : σ) : ∃ t m, o.run program memory = (.ok t, program, m) ∧ t.folds = 0 := by
  obtain ⟨t, m, hrun, hfolds⟩ := runBlocks_idle h .zero memory
  refine ⟨t, m, ?_, hfolds⟩
  rw [run, hrun]
  rfl

theorem length_runBlocks {blocks : List Block} : ∀ {blocks' : List Block} {s s' : Session σ},
    o.runBlocks s blocks = (.ok (), blocks', s') → blocks'.length = blocks.length := by
  induction blocks with
  | nil =>
      intro blocks' s s' hrun
      cases hrun
      rfl
  | cons b rest ih =>
      intro blocks' s s' hrun
      obtain ⟨j, rest', -, hrest, rfl⟩ := runBlocks_cons hrun
      rw [List.length_cons, List.length_cons, ih hrest]

/-- Without rules there are only the checks. -/
theorem idles_of_no_rules (ho : o.rules = []) {g : Graph} {b : Block}
    (hcheck : g.check b.roots = .ok ()) : o.Idles g b := by
  intro t m
  refine ⟨t, m, ?_, rfl⟩
  have hverify : o.verify ⟨⟨g, t, m⟩, b⟩ = .ok () ⟨⟨g, t, m⟩, b⟩ := verify_of_check hcheck
  have hrules : applyRules o.rules (⟨⟨g, t, m⟩, b⟩ : Job σ) = .ok () ⟨⟨g, t, m⟩, b⟩ := by
    rw [ho]
    rfl
  unfold runBlock
  rw [bind_ok hverify, bind_ok hrules]
  exact hverify

end Optimizer

namespace Optimizer

variable {o : Optimizer Interpreter} {predicates : Bool}

theorem idles_of_atRest (ho : o.rules = [Folding.rule Interpreter.evaluate predicates])
    {g : Graph} (hg : g.Balanced) {b : Block} (h : g.AtRest predicates b.roots) : o.Idles g b := by
  intro t m
  have hcheck : g.check b.roots = .ok () := by
    obtain ⟨order, hpost, -⟩ := h
    exact hg.check_eq_ok hpost
  obtain ⟨t', m', happly, hfolds⟩ := Folding.apply_of_atRest hg h .zero m
  refine ⟨t.add t', m', runBlock_of_apply (j := ⟨⟨g, t, m⟩, b⟩) ho hcheck happly hcheck, ?_⟩
  have hzero : t'.folds = 0 := hfolds
  simp only [Tally.folds, Tally.add] at hzero ⊢
  omega

/-- Folding goes through block after block, if every root can be walked at the
start. -/
theorem exists_runBlocks (ho : o.rules = [Folding.rule Interpreter.evaluate predicates])
    {blocks : List Block} : ∀ {s : Session Interpreter}, s.graph.Balanced →
    (∀ b ∈ blocks, ∀ r ∈ b.roots, r < s.graph.size ∧ s.graph.Grounded r) →
    ∃ blocks' s', o.runBlocks s blocks = (.ok (), blocks', s') := by
  induction blocks with
  | nil => exact fun {s} _ _ => ⟨[], s, rfl⟩
  | cons b rest ih =>
      intro s hg hroots
      have hb := hroots b (List.mem_cons_self ..)
      obtain ⟨order, hpost⟩ := Graph.exists_postorder (fun r hr => (hb r hr).1)
        (fun _ _ hc => hg.input_lt hc) fun r hr => (hb r hr).2
      obtain ⟨p, hrun, hrw, -⟩ := Pass.exists_folded hg hpost predicates .zero s.memory
      obtain ⟨order', hpost'⟩ :=
        hrw.exists_postorder (fun r hr => (hb r hr).1) fun r hr => (hb r hr).2
      have hblock := runBlock_of_apply (j := ⟨s, b⟩) ho (hg.check_eq_ok hpost)
        (NodeRule.applyRoots_of_overRoots hrun) (hrw.balanced.check_eq_ok hpost')
      obtain ⟨rest', s', hrest⟩ := ih (s := ⟨p.graph, s.tally.add p.tally, p.memory⟩) hrw.balanced
        fun c hc r hr =>
          have hr := hroots c (List.mem_cons_of_mem _ hc) r hr
          ⟨Nat.lt_of_lt_of_le hr.1 hrw.size, hrw.grounded_self hr.2⟩
      refine ⟨⟨b.name, b.roots.map p.standIn⟩ :: rest', s', ?_⟩
      rw [runBlocks, hblock]
      simp only []
      rw [hrest]

/-- An optimizer that has run over a program finds nothing more to do: it leaves
the program as it is, whatever the interpreter has done before. -/
theorem run_idempotent {settings : Settings} {o : Optimizer Interpreter}
    (hnew : new settings Interpreter.evaluate = .ok o) {program : Program}
    (hg : program.graph.Consistent)
    (hpost : ∀ b ∈ program.blocks, ∃ order, program.graph.postorder b.roots = .ok order)
    (memory : Interpreter) :
    ∃ tally final memory', o.run program memory = (.ok tally, final, memory') ∧
      ∀ m, ∃ t m', o.run final m = (.ok t, final, m') ∧ t.folds = 0 := by
  have hrules := rules_of_new hnew
  by_cases hfold : settings.constantFolding = true
  · rw [if_pos hfold] at hrules
    have hroots : ∀ b ∈ program.blocks, ∀ r ∈ b.roots,
        r < program.graph.size ∧ program.graph.Grounded r := by
      intro b hb r hr
      obtain ⟨order, horder⟩ := hpost b hb
      exact ⟨Graph.lt_of_mem_postorder horder (Graph.mem_postorder_of_root horder hr),
        Graph.grounded_of_postorder horder hr Relation.ReflTransGen.refl⟩
    obtain ⟨blocks', s, hrun⟩ := exists_runBlocks hrules
      (s := ⟨program.graph, .zero, memory⟩) hg.balanced hroots
    obtain ⟨done, w, hbelow, hgraph, ⟨-, hmarked⟩, hrenamed⟩ := runBlocks_folds hrules hg.balanced
      (.start hg.balanced settings.foldPredicates) rfl (fun b hb r hr => (hroots b hb r hr).1) hrun
    rw [List.nil_append] at hbelow
    have hmarked : Marked program.graph done w := hmarked fun id hid hcase =>
      absurd hid (Nat.not_lt.2 (hcase.resolve_left List.not_mem_nil))
    refine ⟨s.tally, ⟨s.graph, blocks'⟩, s.memory, by rw [run, hrun]; rfl, run_idle ?_⟩
    intro b' hb'
    obtain ⟨i, hi⟩ := List.mem_iff_getElem?.1 hb'
    -- There are as many blocks as before, each in its place.
    obtain ⟨b, hb⟩ : ∃ b, program.blocks[i]? = some b :=
      ⟨_, List.getElem?_eq_getElem
        (length_runBlocks hrun ▸ (List.getElem?_eq_some_iff.1 hi).1)⟩
    obtain ⟨b'', hb'', hren⟩ := hrenamed i b hb
    rw [hi] at hb''
    cases hb''
    show o.Idles s.graph b'
    rw [hgraph]
    refine idles_of_atRest hrules hbelow.balanced
      (hbelow.atRest_renamed hg.balanced hmarked ?_ ?_ hren)
    · intro r hr
      obtain ⟨c, hc, hrc⟩ := List.mem_flatMap.1 hr
      exact List.mem_flatMap.2 ⟨c, List.mem_of_mem_take hc, hrc⟩
    · intro r hr
      exact List.mem_flatMap.2 ⟨b, List.mem_of_getElem? hb, hr⟩
  · rw [if_neg hfold] at hrules
    have hidle : ∀ b ∈ program.blocks, o.Idles program.graph b := by
      intro b hb
      obtain ⟨order, horder⟩ := hpost b hb
      exact idles_of_no_rules hrules (hg.balanced.check_eq_ok horder)
    obtain ⟨t, m, hrun, -⟩ := run_idle hidle memory
    exact ⟨t, program, m, hrun, run_idle hidle⟩

/-- The first block writes the sum `2 + 2`. The second has the sum itself as a
root, and the double of it as another. -/
def sumAsRoot : Program where
  graph := ⟨#[⟨.literal (.int 2), .int, .scalar, [], [1, 1], false⟩,
    ⟨.binary .plus, .int, .scalar, [0, 0], [2, 2, 3], false⟩,
    ⟨.binary .plus, .int, .scalar, [1, 1], [], false⟩,
    ⟨.data .write "a", .int, .scalar, [1], [], false⟩]⟩
  blocks := [⟨"a", [3]⟩, ⟨"b", [1, 2]⟩]

/-- Each block folds one node, and a second run over both folds none. -/
theorem run_idempotent_sumAsRoot :
    ∃ (o : Optimizer Interpreter) (tally : Tally) (final : Program) (memory : Interpreter),
      new ⟨true, false, true⟩ Interpreter.evaluate = .ok o ∧ sumAsRoot.graph.Consistent ∧
      (∀ b ∈ sumAsRoot.blocks, ∃ order, sumAsRoot.graph.postorder b.roots = .ok order) ∧
      o.run sumAsRoot .new = (.ok tally, final, memory) ∧ tally.folds = 2 ∧
      ∀ m, ∃ t m', o.run final m = (.ok t, final, m') ∧ t.folds = 0 := by
  have hnew : new ⟨true, false, true⟩ Interpreter.evaluate =
      .ok ⟨⟨true, false, true⟩, [Folding.rule Interpreter.evaluate false]⟩ := rfl
  have hg : sumAsRoot.graph.Consistent := by decide +kernel
  have hpost : ∀ b ∈ sumAsRoot.blocks,
      ∃ order, sumAsRoot.graph.postorder b.roots = .ok order := by
    intro b hb
    rcases List.mem_pair.1 hb with rfl | rfl
    · exact ⟨[0, 1, 3], by decide +kernel⟩
    · exact ⟨[0, 1, 2], by decide +kernel⟩
  have htally : (run ⟨⟨true, false, true⟩, [Folding.rule Interpreter.evaluate false]⟩
      sumAsRoot .new).1 = .ok ⟨6, 2, 0, 0, 0⟩ := by decide +kernel
  obtain ⟨tally, final, memory, hrun, hagain⟩ := run_idempotent hnew hg hpost .new
  refine ⟨_, tally, final, memory, hnew, hg, hpost, hrun, ?_, hagain⟩
  rw [hrun] at htally
  cases htally
  rfl

end Optimizer

end OpGraph
