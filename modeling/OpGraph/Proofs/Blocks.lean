import OpGraph.Program.Optimizer
import OpGraph.Proofs.Composition
import OpGraph.Proofs.Soundness

/-!
# Block after block

An optimizer makes one pass for every block of a program, and all of them work
on the same graph. The passes together fold what lies below the roots of the
blocks (`FoldedBelow`). But each pass renames the roots of its own block only.
A root that an earlier pass has replaced is still the old number in a later
block. The later pass keeps it, and what it names has lost its inputs.

`Graph.FoldedAway` picks out these roots, and a root has its value afterwards
exactly if it is none of them (`Optimizer.run_keeps_value_iff`).
-/

namespace OpGraph

/-- An operator below some roots that becomes a literal when they are folded. -/
def Graph.FoldedAway (g : Graph) (predicates : Bool) (roots : List NodeId) (id : NodeId) : Prop :=
  g.literalAt? id = none ∧ (∃ v, g.Settles predicates id (some v)) ∧ ∃ r ∈ roots, g.Reaches r id

theorem Graph.FoldedAway.mono {g : Graph} {predicates : Bool} {roots more : List NodeId}
    {id : NodeId} (h : g.FoldedAway predicates roots id) (hsub : ∀ r ∈ roots, r ∈ more) :
    g.FoldedAway predicates more id := by
  obtain ⟨hlit, hsettles, r, hr, hreach⟩ := h
  exact ⟨hlit, hsettles, r, hsub r hr, hreach⟩

theorem Graph.term_of_no_inputs {g : Graph} {id : NodeId} (hlit : g.literalAt? id = none)
    (hinputs : g.inputsOf id = []) : ∃ e, g.term id = .error e := by
  rw [literalAt?] at hlit
  rw [term_eq, hinputs]
  cases hl : g.label? id with
  | none => exact ⟨_, rfl⟩
  | some l =>
      rcases l with ⟨kind, valueType, dataType⟩
      rw [hl] at hlit
      by_cases hscalar : dataType = .scalar
      · simp only [hscalar, if_true]
        cases kind with
        | literal v => cases hlit
        | data a var => exact ⟨_, rfl⟩
        | unary op => exact ⟨_, rfl⟩
        | binary op =>
            by_cases hop : op.isStructural = true
            · exact ⟨_, if_pos hop⟩
            · exact ⟨_, if_neg hop⟩
      · exact ⟨_, if_neg hscalar⟩

section Below

variable {g : Graph} {predicates : Bool} {roots done : List NodeId} {w : Rewrite} {id : NodeId}

theorem FoldedBelow.standIn_ne_iff (h : FoldedBelow g predicates roots done w) :
    w.standIn id ≠ id ↔ g.FoldedAway predicates roots id := by
  constructor
  · intro hne
    have hmem := (h.replaced id hne).1
    obtain ⟨hlit, hsettles⟩ := (h.toFolded.standIn_ne_iff h.toRewritten hmem).1 hne
    exact ⟨hlit, hsettles, (h.mem_done id).1 hmem⟩
  · rintro ⟨hlit, hsettles, hbelow⟩
    exact (h.toFolded.standIn_ne_iff h.toRewritten ((h.mem_done id).2 hbelow)).2 ⟨hlit, hsettles⟩

/-- A node that was replaced had a value, and what is left of it has none. -/
theorem FoldedBelow.execute_of_replaced (h : FoldedBelow g false roots done w)
    (hne : w.standIn id ≠ id) : w.graph.execute id ≠ g.execute id := by
  obtain ⟨v, hsettles, -⟩ := h.reads_of_replaced h.toRewritten hne
  obtain ⟨e, hreads, hvalue⟩ := hsettles.readsDecided v rfl (h.operator id hne).2
  have hlit : w.graph.literalAt? id = none := by
    rw [Graph.literalAt?, h.label id (h.done_lt id (h.replaced id hne).1)]
    exact (h.operator id hne).1
  obtain ⟨err, hterm⟩ := Graph.term_of_no_inputs hlit (h.gone id hne)
  have hbefore : g.execute id = .ok v := (Graph.readsDecided_false.1 hreads).execute.trans hvalue
  have hafter : w.graph.execute id = .error err := (Graph.Reads.fault hterm).execute
  rw [hbefore, hafter]
  simp

theorem FoldedBelow.execute_standIn_of_root (hg : g.Balanced)
    (h : FoldedBelow g false roots done w) (hid : id ∈ roots) :
    w.graph.execute (w.standIn id) = g.execute id := by
  have hmem := (h.mem_done id).2 ⟨id, hid, Relation.ReflTransGen.refl⟩
  exact h.execute_eq hg h.toRewritten (h.done_lt id hmem) (h.grounded id hmem)

end Below

/-! ## One pass for a block -/

namespace Optimizer

variable {σ : Type}

theorem verify_eq_ok {o : Optimizer σ} {j j' : Job σ} (h : o.verify j = .ok () j') : j' = j := by
  unfold verify at h
  split at h
  · split at h
    · cases h
      rfl
    · cases h
  · cases h
    rfl

theorem verify_of_check {o : Optimizer σ} {j : Job σ} (h : j.graph.check j.block.roots = .ok ()) :
    o.verify j = .ok () j := by
  unfold verify
  rw [h]
  split <;> rfl

/-- A block that goes through has its rules applied to it, and nothing else done. -/
theorem runBlock_eq_ok {o : Optimizer σ} {j j' : Job σ} (h : o.runBlock j = .ok () j') :
    applyRules o.rules j = .ok () j' := by
  obtain ⟨_, j₁, hfirst, h⟩ := bind_eq_ok h
  cases verify_eq_ok hfirst
  obtain ⟨_, j₂, hrules, hlast⟩ := bind_eq_ok h
  cases verify_eq_ok hlast
  exact hrules

theorem applyRules_singleton {rule : Rule σ} {j j' : Job σ}
    (h : applyRules [rule] j = .ok () j') :
    ∃ news s, rule.apply j.block.roots { j.toSession with tally := .zero } = .ok news s ∧
      j'.graph = s.graph ∧ j'.block.roots = news := by
  obtain ⟨_, j₁, happly, hnil⟩ := bind_eq_ok h
  cases hnil
  rw [applyRule] at happly
  cases hrun : rule.apply j.block.roots { j.toSession with tally := .zero } with
  | error e s =>
      rw [hrun] at happly
      cases happly
  | ok news s =>
      rw [hrun] at happly
      cases happly
      exact ⟨news, s, rfl, rfl, rfl⟩

variable {o : Optimizer Interpreter} {predicates : Bool}

theorem runBlock_folds (ho : o.rules = [Folding.rule Interpreter.evaluate predicates])
    {j j' : Job Interpreter} (hg : j.graph.Balanced) (hrun : o.runBlock j = .ok () j') :
    ∃ (order : List NodeId) (v : Rewrite), j.graph.postorder j.block.roots = .ok order ∧
      Rewritten j.graph order.reverse v ∧ Folded j.graph predicates order.reverse v ∧
      j'.graph = v.graph ∧ j'.block.roots = j.block.roots.map v.standIn := by
  have hrules := runBlock_eq_ok hrun
  rw [ho] at hrules
  obtain ⟨news, s, happly, hgraph, hroots⟩ := applyRules_singleton hrules
  obtain ⟨order, v, hpost, hrw, hfolded, hs, hnews⟩ := Folding.folded_of_apply hg happly
  exact ⟨order, v, hpost, hrw, hfolded, hgraph.trans hs, hroots.trans hnews⟩

/-- The pass for a block marks what it hands over and what it adds, and takes no
marks off for good. -/
theorem runBlock_marks (ho : o.rules = [Folding.rule Interpreter.evaluate predicates])
    {j j' : Job Interpreter} (hg : j.graph.Balanced) (hrun : o.runBlock j = .ok () j')
    {order : List NodeId} (hpost : j.graph.postorder j.block.roots = .ok order) (id : NodeId)
    (hid : id < j'.graph.size)
    (hcase : id ∈ order ∨ j.graph.size ≤ id ∨ j.graph.visited? id = some true) :
    j'.graph.visited? id = some true := by
  have hrules := runBlock_eq_ok hrun
  rw [ho] at hrules
  obtain ⟨news, s, happly, hgraph, -⟩ := applyRules_singleton hrules
  rw [hgraph] at hid ⊢
  exact Folding.marked_of_apply hg happly hpost hid hcase

/-! ## All blocks -/

/-- The roots of a block after all passes. Those that were folded before the pass
of the block, below the given roots, are the old ones. -/
def Renamed (g : Graph) (predicates : Bool) (earlier : List NodeId) (w : Rewrite)
    (old new : Block) : Prop :=
  ∃ f : NodeId → NodeId, new.roots = old.roots.map f ∧ ∀ r ∈ old.roots,
    (g.FoldedAway predicates earlier r → f r = r) ∧
    (¬ g.FoldedAway predicates earlier r → f r = w.standIn r)

/-- The nodes that were handed over and those that came new are marked. -/
def Marked (g : Graph) (done : List NodeId) (w : Rewrite) : Prop :=
  ∀ id < w.graph.size, id ∈ done ∨ g.size ≤ id → w.graph.visited? id = some true

theorem runBlocks_cons {σ : Type} {o : Optimizer σ} {s s' : Session σ} {b : Block}
    {rest blocks' : List Block} (h : o.runBlocks s (b :: rest) = (.ok (), blocks', s')) :
    ∃ j rest', o.runBlock ⟨s, b⟩ = .ok () j ∧
      o.runBlocks j.toSession rest = (.ok (), rest', s') ∧ blocks' = j.block :: rest' := by
  rw [runBlocks] at h
  split at h
  · cases h
  · rename_i j hblock
    rcases hrest : o.runBlocks j.toSession rest with ⟨outcome, rest', s''⟩
    rw [hrest] at h
    cases h
    exact ⟨j, rest', hblock, hrest, rfl⟩

theorem runBlocks_folds (ho : o.rules = [Folding.rule Interpreter.evaluate predicates])
    {g : Graph} (hg : g.Balanced) {blocks : List Block} :
    ∀ {blocks' : List Block} {s s' : Session Interpreter} {earlier done : List NodeId}
      {w : Rewrite}, FoldedBelow g predicates earlier done w → s.graph = w.graph →
      (∀ b ∈ blocks, ∀ r ∈ b.roots, r < g.size) →
      o.runBlocks s blocks = (.ok (), blocks', s') →
      ∃ (done' : List NodeId) (w' : Rewrite),
        FoldedBelow g predicates (earlier ++ blocks.flatMap Block.roots) done' w' ∧
        s'.graph = w'.graph ∧
        ((∀ id ∈ done, w'.standIn id = w.standIn id) ∧ (Marked g done w → Marked g done' w')) ∧
        ∀ (i : Nat) (b : Block), blocks[i]? = some b → ∃ b', blocks'[i]? = some b' ∧
          Renamed g predicates (earlier ++ (blocks.take i).flatMap Block.roots) w' b b' := by
  induction blocks with
  | nil =>
      intro blocks' s s' earlier done w h hgraph _ hrun
      cases hrun
      exact ⟨done, w, by simpa using h, hgraph, ⟨fun _ _ => rfl, fun hm => hm⟩,
        fun i b hb => by simp at hb⟩
  | cons b rest ih =>
      intro blocks' s s' earlier done w h hgraph hlt hrun
      obtain ⟨j, rest', hblock, hrest, rfl⟩ := runBlocks_cons hrun
      obtain ⟨order, v, hpost, hrw, hfolded, hgraph', hroots⟩ :=
        runBlock_folds ho (hgraph ▸ h.balanced) hblock
      have hmarks := runBlock_marks ho (hgraph ▸ h.balanced) hblock hpost
      simp only [hgraph, hgraph'] at hpost hrw hfolded hmarks
      have hnext := h.andThen hg (hlt b (List.mem_cons_self ..)) hpost hrw hfolded
      obtain ⟨done', w', hall, hfinal, ⟨hstable, hmarked⟩, hrenamed⟩ := ih hnext hgraph'
        (fun c hc => hlt c (List.mem_cons_of_mem _ hc)) hrest
      refine ⟨done', w', by simpa using hall, hfinal, ⟨fun id hid => ?_, fun hm => hmarked ?_⟩,
        fun i c hc => ?_⟩
      · rw [hstable id (mem_handedOver.2 (.inr hid))]
        exact h.toFolded.standIn_stable h.toRewritten hrw hfolded hg hid
      · intro id hid hcase
        refine hmarks id hid ?_
        rcases Nat.lt_or_ge id w.graph.size with hold | hnew
        · rcases hcase with hmem | hge
          · rcases mem_handedOver.1 hmem with ⟨horder, -⟩ | hdone
            · exact .inl (List.mem_reverse.1 horder)
            · exact .inr (.inr (hm id hold (.inl hdone)))
          · exact .inr (.inr (hm id hold (.inr hge)))
        · exact .inr (.inl hnew)
      · cases i with
        | zero =>
            cases hc
            -- This pass renames the roots of the block, and none after it does.
            refine ⟨j.block, rfl, v.standIn, hroots, fun r hr => ?_⟩
            rw [List.take_zero, List.flatMap_nil, List.append_nil, ← h.standIn_ne_iff]
            constructor
            · exact fun hne =>
                (h.toFolded.standIn_of_replaced h.toRewritten hrw hfolded hne).1
            · intro hkept
              have hmem := (hnext.mem_done r).2
                ⟨r, List.mem_append_right _ hr, Relation.ReflTransGen.refl⟩
              rw [hstable r hmem]
              exact congrArg v.standIn (not_not.1 hkept).symm
        | succ i =>
            obtain ⟨c', hc', hren⟩ := hrenamed i c hc
            exact ⟨c', hc', by simpa using hren⟩

theorem runBlocks_of_no_rules {σ : Type} {o : Optimizer σ} (ho : o.rules = [])
    {blocks : List Block} : ∀ {blocks' : List Block} {s s' : Session σ},
      o.runBlocks s blocks = (.ok (), blocks', s') → blocks' = blocks ∧ s' = s := by
  induction blocks with
  | nil =>
      intro blocks' s s' hrun
      cases hrun
      exact ⟨rfl, rfl⟩
  | cons b rest ih =>
      intro blocks' s s' hrun
      obtain ⟨j, rest', hblock, hrest, rfl⟩ := runBlocks_cons hrun
      have hrules := runBlock_eq_ok hblock
      rw [ho] at hrules
      cases hrules
      obtain ⟨rfl, rfl⟩ := ih hrest
      exact ⟨rfl, rfl⟩

end Optimizer

/-- The two ends of every edge agree, and the roots of all blocks are nodes. -/
structure Program.Consistent (p : Program) : Prop where
  graph : p.graph.Consistent
  roots : ∀ b ∈ p.blocks, ∀ r ∈ b.roots, r < p.graph.size

theorem Optimizer.rules_of_new {σ : Type} {settings : Settings} {evaluate : Evaluator σ}
    {o : Optimizer σ} (h : new settings evaluate = .ok o) :
    o.rules = if settings.constantFolding then
      [Folding.rule evaluate settings.foldPredicates] else [] := by
  unfold new at h
  split at h
  · cases h
  · split at h
    · rename_i hfold
      cases h
      rw [if_pos hfold]
    · rename_i hfold
      cases h
      rw [if_neg hfold]

/-- A root of a program keeps its value through constant folding unless it is an
operator that the pass of an earlier block has folded. The earlier pass has taken
its inputs, and its own block goes on naming it. -/
theorem Optimizer.run_keeps_value_iff {settings : Settings} {o : Optimizer Interpreter}
    (hnew : new settings Interpreter.evaluate = .ok o)
    (hpredicates : settings.foldPredicates = false) {program final : Program}
    (hprogram : program.Consistent) {memory memory' : Interpreter} {tally : Tally}
    (hrun : o.run program memory = (.ok tally, final, memory')) {b i : Nat} {block : Block}
    {root : NodeId} (hblock : program.blocks[b]? = some block)
    (hroot : block.roots[i]? = some root) :
    ∃ (block' : Block) (root' : NodeId), final.blocks[b]? = some block' ∧
      block'.roots[i]? = some root' ∧
      (final.graph.execute root' = program.graph.execute root ↔
        ¬ (settings.constantFolding = true ∧ program.graph.FoldedAway false
          ((program.blocks.take b).flatMap Block.roots) root)) := by
  have hrules := rules_of_new hnew
  rw [hpredicates] at hrules
  rcases hblocks : o.runBlocks ⟨program.graph, .zero, memory⟩ program.blocks with
    ⟨outcome, blocks', s⟩
  rw [run, hblocks] at hrun
  cases outcome with
  | error e => cases hrun
  | ok _ =>
      cases hrun
      by_cases hfold : settings.constantFolding = true
      · rw [if_pos hfold] at hrules
        have hg := hprogram.graph.balanced
        obtain ⟨done, w, hbelow, hgraph, -, hrenamed⟩ :=
          runBlocks_folds hrules hg (.start hg false) rfl hprogram.roots hblocks
        obtain ⟨block', hblock', f, hroots, hf⟩ := hrenamed b block hblock
        rw [List.nil_append] at hbelow hf
        have hmem : root ∈ block.roots := List.mem_of_getElem? hroot
        have hlisted : root ∈ program.blocks.flatMap Block.roots :=
          List.mem_flatMap.2 ⟨block, List.mem_of_getElem? hblock, hmem⟩
        refine ⟨block', f root, hblock', by rw [hroots, List.getElem?_map, hroot]; rfl, ?_⟩
        simp only [hfold, true_and]
        rw [hgraph]
        constructor
        · intro heq haway
          rw [(hf root hmem).1 haway] at heq
          have hne := hbelow.standIn_ne_iff.2 (haway.mono fun r hr => by
            obtain ⟨c, hc, hrc⟩ := List.mem_flatMap.1 hr
            exact List.mem_flatMap.2 ⟨c, List.mem_of_mem_take hc, hrc⟩)
          exact hbelow.execute_of_replaced hne heq
        · intro haway
          rw [(hf root hmem).2 haway]
          exact hbelow.execute_standIn_of_root hg hlisted
      · -- There is no rule, and the program is as it was.
        rw [if_neg hfold] at hrules
        obtain ⟨rfl, rfl⟩ := runBlocks_of_no_rules hrules hblocks
        exact ⟨block, root, hblock, hroot, by simp [hfold]⟩

/-- Two blocks with the same root, the sum `2 + 2`. -/
def Program.twice : Program where
  graph := ⟨#[⟨.literal (.int 2), .int, .scalar, [], [1, 1], false⟩,
    ⟨.binary .plus, .int, .scalar, [0, 0], [], false⟩]⟩
  blocks := [⟨"a", [1]⟩, ⟨"b", [1]⟩]

/-- The first block has the value of the sum afterwards, and the second has not. -/
theorem Optimizer.run_keeps_value_iff_twice :
    ∃ (o : Optimizer Interpreter) (tally : Tally) (final : Program) (memory : Interpreter),
      new ⟨true, false, true⟩ Interpreter.evaluate = .ok o ∧ Program.twice.Consistent ∧
      o.run Program.twice .new = (.ok tally, final, memory) ∧
      Program.twice.graph.execute 1 = .ok (.int 4) ∧
      (∃ a root, final.blocks[0]? = some a ∧ a.roots[0]? = some root ∧
        final.graph.execute root = .ok (.int 4)) ∧
      ∃ b root, final.blocks[1]? = some b ∧ b.roots[0]? = some root ∧
        final.graph.execute root ≠ .ok (.int 4) := by
  have hprogram : Program.twice.Consistent := ⟨by decide +kernel, by decide +kernel⟩
  have hvalue : Program.twice.graph.execute 1 = .ok (.int 4) := by decide +kernel
  have hnew : new ⟨true, false, true⟩ Interpreter.evaluate =
      .ok ⟨⟨true, false, true⟩, [Folding.rule Interpreter.evaluate false]⟩ := rfl
  have hok : (run ⟨⟨true, false, true⟩, [Folding.rule Interpreter.evaluate false]⟩
      Program.twice .new).1 = .ok ⟨3, 1, 0, 0, 0⟩ := by decide +kernel
  have hrun := Prod.ext (y := (_, _, _)) hok rfl
  obtain ⟨a, root, ha, hroot, hiff⟩ :=
    run_keeps_value_iff hnew rfl hprogram hrun (b := 0) (i := 0) rfl rfl
  obtain ⟨b, root', hb, hroot', hiff'⟩ :=
    run_keeps_value_iff hnew rfl hprogram hrun (b := 1) (i := 0) rfl rfl
  rw [hvalue] at hiff hiff'
  refine ⟨_, _, _, _, hnew, hprogram, hrun, hvalue, ⟨a, root, ha, hroot, hiff.2 ?_⟩,
    b, root', hb, hroot', fun heq => hiff'.1 heq ?_⟩
  · rintro ⟨-, -, -, r, hr, -⟩
    cases hr
  · have hform : Program.twice.graph.form 1 = .binary .plus 0 0 .int := by decide +kernel
    have hliteral : Program.twice.graph.Settles false 0 (some (.int 2)) :=
      .literal (by decide +kernel)
    have hsum := Graph.Settles.binary hform hliteral hliteral
    have hout : Program.twice.graph.binaryOutcome false .plus .int 0 0 (some (.int 2))
        (some (.int 2)) = some (.int 4) := by decide +kernel
    rw [hout] at hsum
    exact ⟨rfl, by decide +kernel, ⟨_, hsum⟩, 1, by decide, Relation.ReflTransGen.refl⟩

end OpGraph
