import OpGraph.Proofs.Settling

/-!
# The order of the roots does not matter

Two passes over the same graph whose roots are the same nodes, in another order
or some of them twice, come to the shared nodes through different parents and
give the literals different numbers. Their counts are equal all the same, and so
is what becomes of each root.

What a node adds to the counts is a matter of the literals that its inputs have
become by the time it is handed over (`Graph.charge`). These are what the inputs
settle to in the graph before the pass, so one table of settled values says what
every node adds, whichever pass it is handed over in (`Pass.tally_of_overRoots`).
The two passes hand over the same nodes, each of them once, and sums do not
depend on the order.
-/

namespace OpGraph

namespace Tally

theorem add_zero (t : Tally) : t.add zero = t := by
  simp [add, zero]

theorem add_assoc (s t u : Tally) : (s.add t).add u = s.add (t.add u) := by
  simp [add, Nat.add_assoc]

theorem add_comm (s t : Tally) : s.add t = t.add s := by
  simp [add, Nat.add_comm]

instance : LeftCommutative add where
  left_comm s t u := by rw [← add_assoc, add_comm s t, add_assoc]

/-- All the counts of a list together. -/
def total (ts : List Tally) : Tally := ts.foldr add zero

theorem total_cons (t : Tally) (ts : List Tally) : total (t :: ts) = t.add (total ts) := rfl

theorem total_perm {ts us : List Tally} (h : ts.Perm us) : total ts = total us := h.foldr_eq zero

/-- What one node counts for that is handed over and left alone. -/
def single : Tally := zero.countVisit

theorem countVisit_eq (t : Tally) : t.countVisit = t.add single := rfl

theorem countFold_add (s t : Tally) (binary : Bool) :
    (s.add t).countFold binary = s.add (t.countFold binary) := by
  cases binary <;> rfl

/-- What a node counts for that was evaluated. -/
def tried (binary : Bool) (o : Option Value) : Tally :=
  if o.isSome then single.countFold binary else single.countFailure

/-- What a node counts for that one operand may have decided. -/
def absorbed (o : Option Value) : Tally := if o.isSome then single.countPredicate else single

end Tally

namespace Graph

/-- What an operator with two inputs counts for, given what they are as literals
and what becomes of it. -/
def binaryCharge (o : Option Value) : Option Value → Option Value → Tally
  | some _, some _ => Tally.tried true o
  | _, _ => Tally.absorbed o

/-- What a node counts for when it is handed over, if `settled` says which of its
inputs are literals by then, and which ones. -/
def charge (g : Graph) (predicates : Bool) (settled : NodeId → Option Value) (id : NodeId) :
    Tally :=
  match g.form id with
  | .cast op x type =>
      if (settled x).isSome then Tally.tried false (g.castOutcome op type x (settled x))
      else .single
  | .binary op l r type =>
      binaryCharge (g.binaryOutcome predicates op type l r (settled l) (settled r)) (settled l)
        (settled r)
  | _ => .single

theorem charge_congr {g : Graph} {predicates : Bool} {o o' : NodeId → Option Value} {id : NodeId}
    (h : ∀ c ∈ g.inputsOf id, o c = o' c) : g.charge predicates o id = g.charge predicates o' id := by
  unfold charge
  cases hform : g.form id with
  | literal v => rfl
  | other => rfl
  | cast op x type =>
      obtain ⟨-, hin, -⟩ := form_eq_cast hform
      simp only [h x (by simp [hin])]
  | binary op l r type =>
      obtain ⟨-, hin, -⟩ := form_eq_binary hform
      simp only [h l (by simp [hin]), h r (by simp [hin])]

end Graph

namespace Folding

variable {σ : Type} {g : Graph} {id : NodeId} {predicates : Bool}

/-- What the rule counts for a candidate, given the literal that the evaluator
finds for each type. -/
def counted (result : ValueType → Except EvalError Value) : Candidate → Tally
  | .leave => .single
  | .absorb _ => Tally.single.countPredicate
  | .evaluate binary type => Tally.tried binary (result type).toOption

theorem tally_of_candidate {c : Candidate} (h : g.candidate predicates id = .ok c)
    (evaluate : Evaluator σ) (t : Tally) (m : σ) :
    (node evaluate predicates g id t.countVisit m).2.1 =
      t.add (counted (fun type => (literal evaluate g id type m).1) c) := by
  unfold node
  rw [h, Tally.countVisit_eq]
  cases c with
  | leave => rfl
  | absorb b => rfl
  | evaluate binary type =>
      simp only [counted]
      rcases literal evaluate g id type m with ⟨result, m'⟩
      cases result with
      | error e => rfl
      | ok v => exact Tally.countFold_add t .single binary

/-- An operator on at most one literal is counted as decided by that literal, or
not at all. -/
theorem counted_absorption (op : BinaryOp) (type : ValueType) (l r : NodeId)
    (result : ValueType → Except EvalError Value)
    (hnot : ¬ ((g.literalAt? l).isSome && (g.literalAt? r).isSome) = true) :
    counted result (if predicates then g.absorption op l r else .leave) =
      Tally.absorbed
        (g.binaryOutcome predicates op type l r (g.literalAt? l) (g.literalAt? r)) := by
  -- Whether there is an outcome can be read off the answer of the rule.
  have hanswer := answer_absorption g predicates op type l r result hnot
  have hcases : (if predicates then g.absorption op l r else .leave) = Candidate.leave ∨
      ∃ b, (if predicates then g.absorption op l r else .leave) = Candidate.absorb b := by
    unfold Graph.absorption
    split
    · split
      · exact .inl rfl
      · split
        · exact .inr ⟨_, rfl⟩
        · exact .inl rfl
    · exact .inl rfl
  rcases hcases with hleave | ⟨b, habsorb⟩
  · rw [hleave] at hanswer ⊢
    cases hout : g.binaryOutcome predicates op type l r (g.literalAt? l) (g.literalAt? r) with
    | none => rfl
    | some v =>
        rw [hout] at hanswer
        cases hanswer
  · rw [habsorb] at hanswer ⊢
    cases hout : g.binaryOutcome predicates op type l r (g.literalAt? l) (g.literalAt? r) with
    | none =>
        rw [hout] at hanswer
        cases hanswer
    | some v => rfl

/-- What the rule counts for a node with the interpreter. -/
theorem node_tally (hg : g.Balanced) (hid : id < g.size) (predicates : Bool) (t : Tally)
    (m : Interpreter) :
    (node Interpreter.evaluate predicates g id t.countVisit m).2.1 =
      t.add (g.charge predicates g.literalAt? id) := by
  rw [tally_of_candidate (Graph.candidate_eq hg hid predicates), Graph.charge]
  cases hform : g.form id with
  | literal v => rfl
  | other => rfl
  | cast op x type =>
      simp only [Graph.formCandidate]
      cases ha : g.literalAt? x with
      | none => rfl
      | some a =>
          rw [← literal_cast hform ha m]
          rfl
  | binary op l r type =>
      simp only [Graph.formCandidate]
      by_cases hboth : ((g.literalAt? l).isSome && (g.literalAt? r).isSome) = true
      · obtain ⟨hl, hr⟩ := Bool.and_eq_true_iff.1 hboth
        obtain ⟨a, ha⟩ := Option.isSome_iff_exists.1 hl
        obtain ⟨b, hb⟩ := Option.isSome_iff_exists.1 hr
        rw [if_pos hboth, ha, hb, ← literal_binary hform ha hb predicates m]
        rfl
      · rw [if_neg hboth, counted_absorption op type l r _ hboth]
        cases ha : g.literalAt? l with
        | none => rfl
        | some a =>
            cases hb : g.literalAt? r with
            | none => rfl
            | some b => simp [ha, hb] at hboth

end Folding

section Folded

variable {g : Graph} {predicates : Bool} {done : List NodeId} {w : Rewrite} {id : NodeId}

/-- What a node counts for by the time that it is handed over is what it counts
for in the graph before the pass. -/
theorem Folded.charge_standIn (hg : g.Balanced) (hrw : Rewritten g done w)
    (h : Folded g predicates done w) (hid : id < g.size) (hself : w.standIn id = id) :
    w.graph.charge predicates w.graph.literalAt? id =
      g.charge predicates (fun c => w.graph.literalAt? (w.standIn c)) id := by
  unfold Graph.charge
  rw [hrw.form_of_kept hid hself]
  cases hform : g.form id with
  | literal v => rfl
  | other => rfl
  | cast op x type =>
      obtain ⟨-, hin, -⟩ := Graph.form_eq_cast hform
      have hx : x ∈ g.inputsOf id := by simp [hin]
      simp only [Form.map, h.castOutcome_standIn hrw (hg.input_lt hx)]
  | binary op l r type =>
      obtain ⟨-, hin, -⟩ := Graph.form_eq_binary hform
      have hl : l ∈ g.inputsOf id := by simp [hin]
      have hr : r ∈ g.inputsOf id := by simp [hin]
      simp only [Form.map, h.binaryOutcome_standIn hrw (hg.input_lt hl) (hg.input_lt hr)
        (fun hn => hn) (fun hn => hn)]

end Folded

namespace Pass

variable {g : Graph} {predicates : Bool} {roots order : List NodeId}

/-- The counts of a pass, from a table of what the nodes below its roots settle
to. -/
theorem tally_of_overRoots (hg : g.Balanced) (hpost : g.postorder roots = .ok order)
    {settled : NodeId → Option Value}
    (hsettled : ∀ id ∈ order, g.Settles predicates id (settled id)) (t : Tally)
    (m : Interpreter) :
    ∃ p, overRoots (Folding.node Interpreter.evaluate predicates) roots ⟨⟨g, t, m⟩, []⟩ =
        .ok (roots.map p.standIn) p ∧
      Rewritten g order.reverse p.rewrite ∧ Folded g predicates order.reverse p.rewrite ∧
      p.tally = t.add (Tally.total (order.reverse.map (g.charge predicates settled))) := by
  refine (overRoots_induct_cleared
    (motive := fun done p => (∀ id ∈ done, id ∈ order) → Folded g predicates done p.rewrite ∧
      p.tally = t.add (Tally.total (done.map (g.charge predicates settled))))
    (Folding.putsLiterals _ _) hg hpost t m ?_ ?_).imp fun p h =>
      ⟨h.1, h.2.1, h.2.2 fun id hid => List.mem_reverse.1 hid⟩
  · intro _
    refine ⟨⟨fun j hj => absurd hj List.not_mem_nil, fun j hne => absurd rfl hne⟩, ?_⟩
    exact (Tally.add_zero t).symm
  · intro done p id p' hrw ih hid hnew hinputs hfinished hsub
    obtain ⟨hfolded, htally⟩ := ih fun j hj => hsub j (List.mem_cons_of_mem _ hj)
    refine ⟨hfolded.step hg hrw hid hnew hinputs hfinished, ?_⟩
    have hlt : id < p.graph.size := Nat.lt_of_lt_of_le hid hrw.size
    have hself : p.standIn id = id := hrw.standIn_eq hnew
    -- The inputs have become what the table says.
    have hcharge : p.graph.charge predicates p.graph.literalAt? id =
        g.charge predicates settled id := by
      rw [hfolded.charge_standIn hg hrw hid hself]
      refine Graph.charge_congr fun c hc => ?_
      have hmem := hinputs c hc
      exact (hfolded.settles c hmem).unique (hsettled c (hsub c (List.mem_cons_of_mem _ hmem)))
    have hcount := Folding.node_tally hrw.balanced hlt predicates p.tally p.memory
    have hafter : p'.tally = p.tally.add (g.charge predicates settled id) := by
      rw [← hcharge, ← hcount]
      cases hfinished with
      | keep hanswer _ _ | literal _ hanswer _ _ => rw [hanswer]
    rw [hafter, htally, List.map_cons, Tally.total_cons, Tally.add_assoc,
      Tally.add_comm (Tally.total _)]

end Pass

/-- The nodes below some roots do not depend on the order of the roots, and
neither does it whether they can be listed. -/
theorem Graph.postorder_perm {g : Graph} {roots roots' order : List NodeId} (hg : g.Balanced)
    (hpost : g.postorder roots = .ok order) (hsame : ∀ r, r ∈ roots ↔ r ∈ roots') :
    ∃ order', g.postorder roots' = .ok order' ∧ order.Perm order' := by
  obtain ⟨hfirst, hmem⟩ := postorder_spec hpost
  have hlisted : ∃ order', g.postorder roots' = .ok order' := exists_postorder
    (fun r hr => lt_of_mem_postorder hpost (mem_postorder_of_root hpost ((hsame r).2 hr)))
    (fun _ _ hc => hg.input_lt hc)
    (fun r hr => grounded_of_postorder hpost ((hsame r).2 hr) Relation.ReflTransGen.refl)
  obtain ⟨order', hpost'⟩ := hlisted
  obtain ⟨hfirst', hmem'⟩ := postorder_spec hpost'
  refine ⟨order', hpost', (List.perm_ext_iff_of_nodup ?_ ?_).2 fun id => ?_⟩
  · exact List.nodup_reverse.1 hfirst.nodup
  · exact List.nodup_reverse.1 hfirst'.nodup
  · rw [hmem, hmem']
    simp only [hsame]

namespace Folding

/-- A pass of constant folding over the same roots in another order, or with other
repetitions, has the same counts, and every root is in both passes the node that
it was, or in both a new literal of the same value and type. -/
theorem apply_order_irrelevant (predicates : Bool) {g : Graph} {roots roots' order : List NodeId}
    (hg : g.Consistent) (hpost : g.postorder roots = .ok order)
    (hsame : ∀ r, r ∈ roots ↔ r ∈ roots') (tally : Tally) (memory memory' : Interpreter) :
    ∃ news s news' s',
      (rule Interpreter.evaluate predicates).apply roots ⟨g, tally, memory⟩ = .ok news s ∧
      (rule Interpreter.evaluate predicates).apply roots' ⟨g, tally, memory'⟩ = .ok news' s' ∧
      s.tally = s'.tally ∧
      ∀ (i i' : Nat) (r : NodeId), roots[i]? = some r → roots'[i']? = some r →
        ∃ n n', news[i]? = some n ∧ news'[i']? = some n' ∧
          ((n = r ∧ n' = r) ∨
            (g.size ≤ n ∧ g.size ≤ n' ∧ ∃ v, s.graph.label? n = some (.literal v) ∧
              s'.graph.label? n' = some (.literal v))) := by
  obtain ⟨order', hpost', hperm⟩ := Graph.postorder_perm hg.balanced hpost hsame
  obtain ⟨p, hrun, hrw, hfolded⟩ := Pass.exists_folded hg.balanced hpost predicates tally memory
  -- The first pass fills the table of settled values that both are counted by.
  have hsettled : ∀ id ∈ order, g.Settles predicates id (p.graph.literalAt? (p.standIn id)) :=
    fun id hid => hfolded.settles id (List.mem_reverse.2 hid)
  obtain ⟨_, hagain, -, -, htally⟩ :=
    Pass.tally_of_overRoots hg.balanced hpost hsettled tally memory
  obtain ⟨-, rfl⟩ := EStateM.Result.ok.inj (hrun.symm.trans hagain)
  obtain ⟨q, hrun', hrw', hfolded', htally'⟩ := Pass.tally_of_overRoots hg.balanced hpost'
    (fun id hid => hsettled id (hperm.mem_iff.2 hid)) tally memory'
  refine ⟨_, _, _, _, NodeRule.applyRoots_of_overRoots hrun,
    NodeRule.applyRoots_of_overRoots hrun', ?_, fun i i' r hr hr' => ?_⟩
  · rw [htally, htally']
    exact congrArg tally.add (Tally.total_perm
      ((((List.reverse_perm _).trans hperm).trans (List.reverse_perm _).symm).map _))
  · refine ⟨p.standIn r, q.standIn r, by rw [List.getElem?_map, hr]; rfl,
      by rw [List.getElem?_map, hr']; rfl, ?_⟩
    have hmem : r ∈ order.reverse :=
      List.mem_reverse.2 (Graph.mem_postorder_of_root hpost (List.mem_of_getElem? hr))
    have hmem' : r ∈ order'.reverse :=
      List.mem_reverse.2 (Graph.mem_postorder_of_root hpost' (List.mem_of_getElem? hr'))
    have hboth : p.standIn r ≠ r ↔ q.standIn r ≠ r :=
      (hfolded.standIn_ne_iff hrw hmem).trans (hfolded'.standIn_ne_iff hrw' hmem').symm
    by_cases hself : p.standIn r = r
    · exact .inl ⟨hself, not_not.1 fun hne => hboth.2 hne hself⟩
    · have hself' : q.standIn r ≠ r := hboth.1 hself
      obtain ⟨-, v, hv⟩ := (hfolded.standIn_ne_iff hrw hmem).1 hself
      exact .inr ⟨(hrw.replaced r hself).2.1, (hrw'.replaced r hself').2.1, v,
        hfolded.label_of_settles hrw hself hv, hfolded'.label_of_settles hrw' hself' hv⟩

/-- The product of a sum `1 + 2` and a literal, and the difference of the same sum
and a variable `n`. -/
def sumInBoth : Graph :=
  ⟨#[⟨.literal (.int 1), .int, .scalar, [], [2], false⟩,
    ⟨.literal (.int 2), .int, .scalar, [], [2, 3], true⟩,
    ⟨.binary .plus, .int, .scalar, [0, 1], [3, 5], false⟩,
    ⟨.binary .times, .int, .scalar, [2, 1], [], false⟩,
    ⟨.data .read "n", .int, .scalar, [], [5], false⟩,
    ⟨.binary .minus, .int, .scalar, [2, 4], [], true⟩]⟩

/-- The sum is reached through the product first, or through the difference. -/
theorem apply_order_irrelevant_sumInBoth :
    sumInBoth.Consistent ∧ sumInBoth.postorder [3, 5, 3] = .ok [0, 1, 2, 3, 4, 5] ∧
      (∀ r, r ∈ [3, 5, 3] ↔ r ∈ [5, 3]) ∧
      ∃ news s news' s',
        (rule Interpreter.evaluate true).apply [3, 5, 3] ⟨sumInBoth, .zero, .new⟩ = .ok news s ∧
        (rule Interpreter.evaluate true).apply [5, 3] ⟨sumInBoth, .zero, .new⟩ = .ok news' s' ∧
        s.tally = s'.tally ∧
        ∀ (i i' : Nat) (r : NodeId), [3, 5, 3][i]? = some r → [5, 3][i']? = some r →
          ∃ n n', news[i]? = some n ∧ news'[i']? = some n' ∧
            ((n = r ∧ n' = r) ∨
              (6 ≤ n ∧ 6 ≤ n' ∧ ∃ v, s.graph.label? n = some (.literal v) ∧
                s'.graph.label? n' = some (.literal v))) := by
  have hg : sumInBoth.Consistent := by decide +kernel
  have hpost : sumInBoth.postorder [3, 5, 3] = .ok [0, 1, 2, 3, 4, 5] := by decide +kernel
  have hsame : ∀ r : NodeId, r ∈ [3, 5, 3] ↔ r ∈ [5, 3] := by
    intro r
    simp only [List.mem_cons, List.not_mem_nil, or_false]
    grind
  exact ⟨hg, hpost, hsame, apply_order_irrelevant true hg hpost hsame .zero .new .new⟩

end Folding

end OpGraph
