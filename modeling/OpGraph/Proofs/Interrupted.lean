import OpGraph.Proofs.Acceptance
import OpGraph.Proofs.Checked

/-!
# Runs that end early

An optimizer stops at the first error. The blocks after the failing one have not
been looked at then, and the failing one keeps its name. Its roots are another
matter: they are replaced after every rule, and no rule is taken back. So they are
the roots that the last rule before the error answered with, and the block's own
only if there was no such rule or it answered with them (`Optimizer.run_error_blocks`).

An optimizer without added rules has at most the folding rule. It fails with the
roots replaced only if folding goes through and the check after it fails. That
never happens: what passes the check before folding passes it afterwards, also if
the graph is broken out of reach of the roots (`Folding.check_of_apply`).
-/

namespace OpGraph

/-! ## Folding and the check -/

section Checked

variable {g : Graph} {ids done : List NodeId} {w : Rewrite} {id : NodeId}

theorem Graph.parentsOf_of_ge (hge : g.size ≤ id) : g.parentsOf id = [] := by
  rw [parentsOf, node?_eq_none hge]

/-- Between nodes that the check has seen no edge is recorded on one side only, and
neither is one that leads to a node yet to come. -/
theorem Graph.Vouched.excess_eq_zero (h : g.Vouched ids) (hid : id ∈ ids) {c : NodeId}
    (hc : c ∈ ids ∨ g.size ≤ c) : g.excess id c = 0 := by
  unfold excess
  rcases hc with hc | hge
  · have hcount := (h.agrees id hid).count_eq (h.agrees c hc)
    omega
  · have hheld : c ∉ g.inputsOf id := fun hmem =>
      absurd (h.lt c (h.closed id hid c hmem)) (Nat.not_lt.2 hge)
    rw [parentsOf_of_ge hge, List.count_nil, List.count_eq_zero.2 hheld]
    rfl

theorem Followed.holds_standIn (h : Followed g done w) (hv : g.Vouched ids) (hid : id ∈ ids)
    {c : NodeId} (hc : w.graph.Holds (w.standIn id) c) : ∃ d ∈ g.inputsOf id, c = w.standIn d := by
  have hc : c ∈ w.graph.inputsOf (w.standIn id) := hc
  by_cases hself : w.standIn id = id
  · rw [hself, h.inputsOf_kept hv hid hself] at hc
    obtain ⟨d, hd, rfl⟩ := List.mem_map.1 hc
    exact ⟨d, hd, rfl⟩
  · rw [h.inputsOf_of_ge (h.replaced id hself).2.1] at hc
    cases hc

/-- What stands in for nodes that the check has seen leads to nothing else. -/
theorem Followed.standIn_of_reaches (h : Followed g done w) (hv : g.Vouched ids) (hid : id ∈ ids)
    {x : NodeId} (hreach : w.graph.Reaches (w.standIn id) x) : ∃ d ∈ ids, x = w.standIn d := by
  induction hreach with
  | refl => exact ⟨id, hid, rfl⟩
  | tail _ hstep ih =>
      obtain ⟨d, hd, rfl⟩ := ih
      obtain ⟨c, hc, rfl⟩ := h.holds_standIn hv hd hstep
      exact ⟨c, hv.closed d hd c hc, rfl⟩

theorem Followed.grounded_standIn (h : Followed g done w) (hv : g.Vouched ids)
    (hground : g.Grounded id) : id ∈ ids → w.graph.Grounded (w.standIn id) := by
  induction hground with
  | intro id _ ih =>
      intro hid
      refine Acc.intro _ fun c hc => ?_
      obtain ⟨d, hd, rfl⟩ := h.holds_standIn hv hid hc
      exact ih d hd (hv.closed id hid d hd)

/-- A parent that a kept node lists holds it. -/
theorem Followed.held_of_kept (h : Followed g done w) (hv : g.Vouched ids)
    (hdone : ∀ j ∈ done, j ∈ ids) (hid : id ∈ ids) (hself : w.standIn id = id) {q : NodeId}
    (hq : q ∈ w.graph.parentsOf id) : id ∈ w.graph.inputsOf q := by
  by_contra hnot
  -- The parent would be in excess, so it was before, and was listed.
  have hlisted := List.count_pos_iff.2 hq
  have hexcess := h.excess q id
  rw [Graph.excess, List.count_eq_zero.2 hnot] at hexcess
  have hbefore : q ∈ g.parentsOf id := by
    rw [← List.count_pos_iff]
    unfold Graph.excess at hexcess
    omega
  have hheld := (hv.agrees id hid).parents q hbefore
  by_cases hkept : w.standIn q = q
  · rw [h.inputsOf_eq (Graph.lt_size_of_mem_inputsOf hheld), if_pos hkept] at hnot
    exact hnot (List.mem_map.2 ⟨id, hheld, by rw [if_pos hbefore, hself]⟩)
  · -- What was replaced has been checked, and there is no excess then.
    have hzero := hv.excess_eq_zero (hdone q (h.replaced q hkept).1) (.inl hid)
    omega

theorem Followed.agreesAt_standIn (h : Followed g done w) (hv : g.Vouched ids)
    (hdone : ∀ j ∈ done, j ∈ ids) (hid : id ∈ ids) : w.graph.AgreesAt (w.standIn id) := by
  by_cases hself : w.standIn id = id
  · rw [hself]
    refine ⟨fun c hc => ?_, fun q hq => h.held_of_kept hv hdone hid hself hq⟩
    rw [h.inputsOf_kept hv hid hself] at hc
    obtain ⟨d, hd, rfl⟩ := List.mem_map.1 hc
    have hseen : w.standIn d ∈ ids ∨ g.size ≤ w.standIn d := by
      by_cases hd' : w.standIn d = d
      · exact .inl (hd'.symm ▸ hv.closed id hid d hd)
      · exact .inr (h.replaced d hd').2.1
    have hexcess := (h.excess id (w.standIn d)).trans (hv.excess_eq_zero hid hseen)
    unfold Graph.excess at hexcess
    omega
  · have hge := (h.replaced id hself).2.1
    constructor
    · intro c hc
      rw [h.inputsOf_of_ge hge] at hc
      cases hc
    · intro q hq
      -- Nothing listed a parent before it was there.
      have hlisted := List.count_pos_iff.2 hq
      have hexcess := h.excess q (w.standIn id)
      rw [Graph.excess, Graph.excess, Graph.parentsOf_of_ge hge, List.count_nil] at hexcess
      rw [← List.count_pos_iff]
      omega

theorem Followed.check_standIn (h : Followed g done w) (hv : g.Vouched ids)
    (hdone : ∀ j ∈ done, j ∈ ids) (hground : ∀ j ∈ ids, g.Grounded j) {roots : List NodeId}
    (hroots : ∀ r ∈ roots, r ∈ ids) : w.graph.check (roots.map w.standIn) = .ok () := by
  have hbelow : ∀ {x}, w.graph.Below (roots.map w.standIn) x → ∃ d ∈ ids, x = w.standIn d := by
    rintro x ⟨r', hr', hreach⟩
    obtain ⟨r, hr, rfl⟩ := List.mem_map.1 hr'
    exact h.standIn_of_reaches hv (hroots r hr) hreach
  have hwalk : w.graph.Walkable (roots.map w.standIn) := by
    constructor
    · intro x hx
      obtain ⟨d, hd, rfl⟩ := hbelow hx
      exact h.standIn_lt (hv.lt d hd)
    · intro x hx
      obtain ⟨d, hd, rfl⟩ := hbelow hx
      exact (h.grounded_standIn hv (hground d hd) hd).not_below_self
  obtain ⟨order, hpost⟩ := Graph.walkable_iff.1 hwalk
  refine Graph.check_eq_ok_iff.2 ⟨order, hpost, fun x hx => ?_⟩
  obtain ⟨d, hd, rfl⟩ := hbelow (((Graph.postorder_spec hpost).2 x).1 hx)
  exact h.agreesAt_standIn hv hdone hd

end Checked

/-- What passes the check before folding passes it afterwards. -/
theorem Folding.check_of_apply {σ : Type} {evaluate : Evaluator σ} {predicates : Bool}
    {roots news : List NodeId} {s s' : Session σ} (hcheck : s.graph.check roots = .ok ())
    (happly : (rule evaluate predicates).apply roots s = .ok news s') :
    s'.graph.check news = .ok () := by
  obtain ⟨p, hpass, rfl⟩ := NodeRule.overRoots_of_applyRoots happly
  obtain ⟨order, hpost, h, rfl⟩ := Pass.followed_of_overRoots (node_neverUses _ _) hpass
  obtain ⟨order', hpost', hv⟩ := Graph.vouched_of_check hcheck
  obtain rfl : order' = order := by
    rw [hpost] at hpost'
    cases hpost'
    rfl
  exact h.check_standIn hv (fun j hj => List.mem_reverse.1 hj)
    (fun j hj => (Graph.postorder_spec hpost).1.grounded (List.mem_reverse.2 hj))
    fun r hr => Graph.mem_postorder_of_root hpost hr

namespace Optimizer

variable {σ : Type} {o : Optimizer σ}

section StopsAfter

variable {start j : Job σ} {done : List (Rule σ)} {e : OptimizeError}

/-- With the folding rule alone, or with no rule, no rule has gone through when there
is an error: the last check does not fail. -/
theorem StopsAfter.block_eq_of_new {settings : Settings} {evaluate : Evaluator σ}
    (hnew : new settings evaluate = .ok o) (h : o.StopsAfter start done e j) :
    j.block = start.block := by
  have hrules := rules_of_new hnew
  cases h with
  | firstCheck => rfl
  | @rule _ rest rule _ j₁ _ _ hsplit hdone herror =>
      have hnil : done = [] := by
        rw [hsplit] at hrules
        split at hrules
        · cases done with
          | nil => rfl
          | cons first more => cases more <;> cases hrules
        · cases done <;> cases hrules
      subst hnil
      cases hdone
      exact applyRule_eq_error herror
  | lastCheck hfirst hdone hlast =>
      have hcheck := check_of_verify (verify_eq_error hlast).2 hfirst
      rw [hrules] at hdone
      split at hdone
      · obtain ⟨news, s, happly, hgraph, hroots⟩ := applyRules_singleton hdone
        have hpasses := Folding.check_of_apply (s := { start.toSession with tally := .zero }) hcheck
          happly
        rw [← hgraph, ← hroots] at hpasses
        rw [verify_of_check hpasses] at hlast
        cases hlast
      · cases hdone
        rfl

end StopsAfter

/-- What a run that ends with an error leaves of the blocks, for any added rules. The
blocks before the failing one are as the rules have made them, and those after it
are as they were. The failing one keeps its name, and has the roots that the last
rule before the error answered with. These are its own if no rule has gone through,
and always if no rules were added. -/
theorem run_error_blocks {settings : Settings} {evaluate : Evaluator σ}
    (hnew : new settings evaluate = .ok o) (appended : List (Rule σ)) {program final : Program}
    {memory memory' : σ} {e : OptimizeError}
    (hrun : (appended.foldl withRule o).run program memory = (.error e, final, memory')) :
    ∃ k b before s done j, program.blocks[k]? = some b ∧
      (appended.foldl withRule o).runBlocks ⟨program.graph, .zero, memory⟩
        (program.blocks.take k) = (.ok (), before, s) ∧
      (appended.foldl withRule o).StopsAfter ⟨s, b⟩ done e j ∧
      before.length = k ∧ done <+: o.rules ++ appended ∧
      final = ⟨j.graph, before ++ j.block :: program.blocks.drop (k + 1)⟩ ∧
      j.block.name = b.name ∧
      (∀ roots, j.block.roots = roots ↔ (done = [] ∧ roots = b.roots) ∨
        LastAnswers ⟨s, b⟩ done roots) ∧
      (appended = [] → j.block = b) := by
  rcases hblocks : (appended.foldl withRule o).runBlocks ⟨program.graph, .zero, memory⟩
    program.blocks with ⟨outcome, blocks, s'⟩
  rw [run, hblocks] at hrun
  cases outcome with
  | ok u => cases hrun
  | error e' =>
      cases hrun
      obtain ⟨k, b, before, s, done, j, hb, hbefore, hlength, hstops, rfl, rfl⟩ :=
        runBlocks_eq_error hblocks
      have hdone := hstops.done_prefix
      rw [foldl_withRule] at hdone
      refine ⟨k, b, before, s, done, j, hb, hbefore, hstops, hlength, hdone, rfl, hstops.name_eq,
        hstops.roots_iff, ?_⟩
      rintro rfl
      exact hstops.block_eq_of_new hnew

/-- The sum `2 + 2`, and a write of a variable that is read. -/
def sumAndWrite : Program :=
  ⟨⟨#[⟨.literal (.int 2), .int, .scalar, [], [1, 1], false⟩,
      ⟨.binary .plus, .int, .scalar, [0, 0], [], false⟩,
      ⟨.data .read "X", .int, .scalar, [], [3], false⟩,
      ⟨.data .write "a", .int, .scalar, [2], [], false⟩]⟩,
    [⟨"b", [1, 3]⟩]⟩

/-- Puts the write in the place of the read below it. -/
def writeForRead : NodeRule Interpreter := fun _ id t m =>
  (.ok (if id = 2 then .use 3 else .keep), t, m)

/-- Folding replaces the first root, and the check after the added rule finds that the
second lies below itself. The block is left with the new root. Without added rules,
a block whose folding fails has its old root. -/
theorem run_error_blocks_sumAndWrite :
    ∃ o, new ⟨true, true, true⟩ Interpreter.evaluate = .ok o ∧
      (∃ final memory, ([writeForRead.toRule "map"].foldl withRule o).run sumAndWrite .new =
          (.error (.malformed "b" (.cycle 3)), final, memory) ∧
        final.blocks = [⟨"b", [4, 3]⟩] ∧
        ∃ (s : Session Interpreter) (done : List (Rule Interpreter)),
          done ≠ [] ∧ LastAnswers ⟨s, ⟨"b", [1, 3]⟩⟩ done [4, 3]) ∧
      ∃ e final memory, ([].foldl withRule o).run ⟨Graph.listedTwice, [⟨"b", [1]⟩]⟩ .new =
          (.error e, final, memory) ∧ final.blocks = [⟨"b", [1]⟩] := by
  have hnew : new ⟨true, true, true⟩ Interpreter.evaluate =
      .ok ⟨⟨true, true, true⟩, [Folding.rule Interpreter.evaluate true]⟩ := rfl
  refine ⟨_, hnew, ?_, ?_⟩
  · rcases hrun : ([writeForRead.toRule "map"].foldl withRule
      ⟨⟨true, true, true⟩, [Folding.rule Interpreter.evaluate true]⟩).run sumAndWrite .new with
      ⟨outcome, final, memory⟩
    have hshape : (match ([writeForRead.toRule "map"].foldl withRule
        ⟨⟨true, true, true⟩, [Folding.rule Interpreter.evaluate true]⟩).run sumAndWrite .new with
      | (outcome, final, _) => (outcome, final.blocks)) =
        (.error (.malformed "b" (.cycle 3)), [⟨"b", [4, 3]⟩]) := by decide +kernel
    rw [hrun] at hshape
    obtain ⟨rfl, hblocks⟩ := Prod.mk.inj hshape
    obtain ⟨k, b, before, s, done, j, hb, -, -, hlength, -, rfl, -, hroots, -⟩ :=
      run_error_blocks hnew [writeForRead.toRule "map"] hrun
    refine ⟨_, memory, rfl, hblocks, s, done, ?_⟩
    cases k with
    | succ k => cases hb
    | zero =>
        cases hb
        cases List.eq_nil_of_length_eq_zero hlength
        have hnews : j.block.roots = [4, 3] := congrArg Block.roots (List.cons.inj hblocks).1
        rcases (hroots [4, 3]).1 hnews with ⟨-, hold⟩ | hlast
        · exact absurd hold (by decide)
        · refine ⟨?_, hlast⟩
          rintro rfl
          obtain ⟨earlier, rule, j, s, hnil, -⟩ := hlast
          exact absurd hnil (by simp)
  · rcases hrun : ([].foldl withRule
      ⟨⟨true, true, true⟩, [Folding.rule Interpreter.evaluate true]⟩).run
        ⟨Graph.listedTwice, [⟨"b", [1]⟩]⟩ .new with ⟨outcome, final, memory⟩
    have hshape : (match ([].foldl withRule
        ⟨⟨true, true, true⟩, [Folding.rule Interpreter.evaluate true]⟩).run
          ⟨Graph.listedTwice, [⟨"b", [1]⟩]⟩ .new with
      | (outcome, _, _) => outcome) =
        .error (.rule "constant_folding" "b" (.unequalCounts 1 2 1 2)) := by decide +kernel
    rw [hrun] at hshape
    cases hshape
    obtain ⟨k, b, before, s, done, j, hb, -, -, hlength, -, rfl, -, -, hkept⟩ :=
      run_error_blocks hnew [] hrun
    refine ⟨_, _, memory, rfl, ?_⟩
    cases k with
    | succ k => cases hb
    | zero =>
        cases hb
        cases List.eq_nil_of_length_eq_zero hlength
        rw [hkept rfl]
        rfl

end Optimizer

end OpGraph
