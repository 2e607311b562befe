import OpGraph.Proofs.Denotation
import OpGraph.Proofs.Soundness

/-!
# Folding over live variables

The value of a node that reads live variables is not known when constants are
folded, and need not exist: `FALSE & 1 %/% n < 2` fails when `n` is zero. Folding
makes it `FALSE` all the same. So a pass does not keep the errors, and what it
keeps are the values: a node that has one, for some contents of the variables, has
the same one afterwards for the same contents (`Folded.denotes`).

What carries the proof is that a node which settles to a literal has no other
value than that literal, under any variables (`Graph.Settles.eq_of_denotes`).
Where one operand decides an operator, the other one has been left out, and it
may be anything: if the operator has a value at all, it is the truth value that
decides it (`BinaryOp.eq_of_absorbing`). The literal is not converted to the
declared type, which is why conjunctions and disjunctions have to declare to be
truth values or nothing.
-/

namespace OpGraph

theorem Value.onBooleans_eq_ok {f : Bool → Bool → Bool} {x y v : Value}
    (h : onBooleans f x y = .ok v) :
    ∃ a b, x.asBoolean = .ok a ∧ y.asBoolean = .ok b ∧ v = .boolean (f a b) := by
  obtain ⟨a, ha, h⟩ := exists_of_bind_eq_ok h
  obtain ⟨b, hb, h⟩ := exists_of_bind_eq_ok h
  cases h
  exact ⟨a, b, ha, hb, rfl⟩

/-- An operand that decides an operator is its only result, whatever the other
operand is. -/
theorem BinaryOp.eq_of_absorbing {op : BinaryOp} {b : Bool} (h : op.absorbing? = some b)
    {x y v : Value} (hside : x = .boolean b ∨ y = .boolean b)
    (hv : applyBinary op x y = .ok v) : v = .boolean b := by
  cases op with
  | and =>
      cases h
      obtain ⟨c, d, hc, hd, rfl⟩ := Value.onBooleans_eq_ok hv
      rcases hside with rfl | rfl
      · cases hc
        rfl
      · cases hd
        exact congrArg Value.boolean (Bool.and_false c)
  | or =>
      cases h
      obtain ⟨c, d, hc, hd, rfl⟩ := Value.onBooleans_eq_ok hv
      rcases hside with rfl | rfl
      · cases hc
        rfl
      · cases hd
        exact congrArg Value.boolean (Bool.or_true c)
  | plus | minus | times | divide | modulus | intDivide | power | less | lessEqual | greater
  | greaterEqual | equal | notEqual | min | max | log | cbind | rbind => cases h

namespace Graph

/-- Every conjunction and disjunction declares to be a truth value, or nothing. -/
def TruthTyped (g : Graph) : Prop :=
  ∀ n ∈ g.nodes, n.kind = .binary .and ∨ n.kind = .binary .or →
    n.valueType = .boolean ∨ n.valueType = .unknown

instance (g : Graph) : Decidable g.TruthTyped := inferInstanceAs (Decidable (∀ n ∈ g.nodes, _))

/-- No node lies below itself. -/
def Acyclic (g : Graph) : Prop := ∀ id, ¬ Relation.TransGen g.Holds id id

theorem acyclic_of_postorder {g : Graph} {order : List NodeId}
    (h : g.postorder (List.range g.size) = .ok order) : g.Acyclic := by
  intro id hcycle
  obtain ⟨c, hc, -⟩ := Relation.TransGen.head'_iff.1 hcycle
  have hid : id ∈ List.range g.size := List.mem_range.2 (lt_size_of_mem_inputsOf hc)
  exact (grounded_of_postorder h hid Relation.ReflTransGen.refl).not_below_self hcycle

variable {g : Graph} {live : Live} {predicates : Bool} {id : NodeId}

theorem lt_size_of_label? {l : Label} (h : g.label? id = some l) : id < g.size := by
  obtain ⟨n, hn, -⟩ := Option.map_eq_some_iff.1 h
  exact lt_size_of_node? hn

theorem TruthTyped.type_eq (h : g.TruthTyped) {op : BinaryOp} {type : ValueType} {b : Bool}
    (hlabel : g.label? id = some ⟨.binary op, type, .scalar⟩) (hop : op.absorbing? = some b) :
    type = .boolean ∨ type = .unknown := by
  obtain ⟨n, hn, hl⟩ := Option.map_eq_some_iff.1 hlabel
  obtain ⟨hkind, htype, -⟩ := Label.mk.inj hl
  rw [← htype]
  refine h n (Array.mem_of_getElem? hn) ?_
  rw [hkind]
  cases op with
  | and => exact .inl rfl
  | or => exact .inr rfl
  | plus | minus | times | divide | modulus | intDivide | power | less | lessEqual | greater
  | greaterEqual | equal | notEqual | min | max | log | cbind | rbind => cases hop

theorem TruthTyped.eq_of_absorbing (h : g.TruthTyped) {op : BinaryOp} {type : ValueType} {b : Bool}
    (hlabel : g.label? id = some ⟨.binary op, type, .scalar⟩) (hop : op.absorbing? = some b)
    {x y v : Value} (hside : x = .boolean b ∨ y = .boolean b) (hv : op.result type x y = .ok v) :
    v = .boolean b := by
  obtain ⟨w, hw, hv⟩ := exists_of_bind_eq_ok hv
  cases op.eq_of_absorbing hop hside hw
  rcases h.type_eq hlabel hop with rfl | rfl
  · cases hv
    rfl
  · cases hv
    rfl

/-! ## Operators with a value -/

theorem Denotes.unary_ok {op : UnaryOp} {type : ValueType} {x : NodeId} {a v : Value}
    (hl : g.label? id = some ⟨.unary op, type, .scalar⟩) (hin : g.inputsOf id = [x])
    (hx : g.Denotes live x (.ok a)) (hv : op.result type a = .ok v) :
    g.Denotes live id (.ok v) :=
  hv ▸ .unary hl hin hx

theorem Denotes.binary_ok {op : BinaryOp} {type : ValueType} {l r : NodeId} {a b v : Value}
    (hl : g.label? id = some ⟨.binary op, type, .scalar⟩) (hin : g.inputsOf id = [l, r])
    (hx : g.Denotes live l (.ok a)) (hy : g.Denotes live r (.ok b))
    (hv : op.result type a b = .ok v) : g.Denotes live id (.ok v) :=
  hv ▸ .binary hl hin hx hy

theorem Denotes.eq_of_literal {v u : Value} (h : g.Denotes live id (.ok v))
    (hlit : g.literalAt? id = some u) : v = u := by
  generalize ha : Except.ok v = a at h
  cases h with
  | literal hl =>
      rw [literalAt?, hl] at hlit
      cases ha
      cases hlit
      rfl
  | read hl | write hl | unary hl | binary hl =>
      rw [literalAt?, hl] at hlit
      cases hlit

theorem Denotes.of_unary {op : UnaryOp} {type : ValueType} {x : NodeId} {v : Value}
    (h : g.Denotes live id (.ok v)) (hl : g.label? id = some ⟨.unary op, type, .scalar⟩)
    (hin : g.inputsOf id = [x]) : ∃ a, g.Denotes live x (.ok a) ∧ op.result type a = .ok v := by
  generalize ha : Except.ok v = r at h
  cases h with
  | literal hl' | read hl' | write hl' | binary hl' => simp_all
  | unary hl' hin' hx =>
      rw [hl] at hl'
      rw [hin] at hin'
      cases hl'
      cases hin'
      obtain ⟨a, rfl, -⟩ := exists_of_bind_eq_ok ha.symm
      exact ⟨a, hx, rfl⟩

theorem Denotes.of_binary {op : BinaryOp} {type : ValueType} {l r : NodeId} {v : Value}
    (h : g.Denotes live id (.ok v)) (hl : g.label? id = some ⟨.binary op, type, .scalar⟩)
    (hin : g.inputsOf id = [l, r]) :
    ∃ a b, g.Denotes live l (.ok a) ∧ g.Denotes live r (.ok b) ∧ op.result type a b = .ok v := by
  generalize ha : Except.ok v = o at h
  cases h with
  | literal hl' | read hl' | write hl' | unary hl' => simp_all
  | binary hl' hin' hx hy =>
      rw [hl] at hl'
      rw [hin] at hin'
      cases hl'
      cases hin'
      obtain ⟨a, rfl, hv⟩ := exists_of_bind_eq_ok ha.symm
      obtain ⟨b, rfl, -⟩ := exists_of_bind_eq_ok hv
      exact ⟨a, b, hx, hy, rfl⟩

/-! ## Literals that nodes settle to -/

/-- A node has no value but the literal that it settles to. -/
theorem Settles.eq_of_denotes (htyped : g.TruthTyped) {o : Option Value}
    (h : g.Settles predicates id o) : ∀ u v, o = some u → g.Denotes live id (.ok v) → v = u := by
  induction h with
  | literal hform =>
      intro u v ho hd
      cases ho
      exact hd.eq_of_literal (form_eq_literal_iff.1 hform)
  | other hform =>
      intro u v ho
      cases ho
  | cast hform _ ih =>
      intro u v ho hd
      obtain ⟨hl, hin, -⟩ := form_eq_cast hform
      obtain ⟨a, rfl, -, hresult⟩ := castOutcome_eq_some ho
      obtain ⟨a', hx, hv⟩ := hd.of_unary hl hin
      cases ih a a' rfl hx
      exact Except.ok.inj (hv.symm.trans hresult)
  | binary hform _ _ ihl ihr =>
      intro u v ho hd
      obtain ⟨hl, hin, -⟩ := form_eq_binary hform
      obtain ⟨a', b', hx, hy, hv⟩ := hd.of_binary hl hin
      rcases binaryOutcome_eq_some ho with
        ⟨a, b, rfl, rfl, -, -, hresult⟩ | ⟨-, b, hop, rfl, ⟨rfl, -, -⟩ | ⟨-, rfl, -⟩⟩
      · cases ihl a a' rfl hx
        cases ihr b b' rfl hy
        exact Except.ok.inj (hv.symm.trans hresult)
      -- Nothing is known of the operand that was left out, except that it has a value.
      · exact htyped.eq_of_absorbing hl hop (.inl (ihl _ a' rfl hx)) hv
      · exact htyped.eq_of_absorbing hl hop (.inr (ihr _ b' rfl hy)) hv

end Graph

section Folded

variable {g : Graph} {live : Live} {predicates : Bool} {done : List NodeId} {w : Rewrite}
  {id : NodeId}

theorem Rewritten.label_of_label (h : Rewritten g done w) {l : Label}
    (hl : g.label? id = some l) : w.graph.label? id = some l := by
  rw [h.label id (Graph.lt_size_of_label? hl), hl]

theorem Rewritten.inputs_of_label (h : Rewritten g done w) {l : Label}
    (hl : g.label? id = some l) (hself : w.standIn id = id) :
    w.graph.inputsOf id = (g.inputsOf id).map w.standIn :=
  h.kept id (Graph.lt_size_of_label? hl) hself

/-- A node that was replaced has the value that the new literal has, so that it is
enough to look at the nodes that are still there. -/
theorem Folded.denotes_of_kept (htyped : g.TruthTyped) (hrw : Rewritten g done w)
    (h : Folded g predicates done w) {v : Value} (hd : g.Denotes live id (.ok v))
    (hkept : w.standIn id = id → w.graph.Denotes live id (.ok v)) :
    w.graph.Denotes live (w.standIn id) (.ok v) := by
  by_cases hself : w.standIn id = id
  · rw [hself]
    exact hkept hself
  · obtain ⟨u, hlabel⟩ := hrw.label_of_replaced hself
    have hsettles := h.settles id (hrw.replaced id hself).1
    rw [Graph.literalAt?_of_label hlabel] at hsettles
    cases hsettles.eq_of_denotes htyped u v rfl hd
    exact .literal hlabel

/-- What stands in for a node with a value has that value. -/
theorem Folded.denotes (htyped : g.TruthTyped) (hrw : Rewritten g done w)
    (h : Folded g predicates done w) {a : Except EvalError Value} (hd : g.Denotes live id a) :
    ∀ v, a = .ok v → w.graph.Denotes live (w.standIn id) (.ok v) := by
  induction hd with
  | literal hl =>
      intro v hv
      cases hv
      exact h.denotes_of_kept htyped hrw (.literal hl) fun _ => .literal (hrw.label_of_label hl)
  | @read id var type hl =>
      intro v hv
      have hbefore : g.Denotes live id (.ok v) := hv ▸ .read hl
      have hafter : w.graph.Denotes live id (.ok v) := hv ▸ .read (hrw.label_of_label hl)
      exact h.denotes_of_kept htyped hrw hbefore fun _ => hafter
  | @write id x var type a hl hin hx ih =>
      intro v hv
      cases hv
      refine h.denotes_of_kept htyped hrw (.write hl hin hx) fun hself => ?_
      have hin' := hrw.inputs_of_label hl hself
      rw [hin] at hin'
      exact .write (hrw.label_of_label hl) hin' (ih v rfl)
  | @unary id x op type a hl hin hx ih =>
      intro v hv
      refine h.denotes_of_kept htyped hrw (hv ▸ .unary hl hin hx) fun hself => ?_
      obtain ⟨y, rfl, hresult⟩ := exists_of_bind_eq_ok hv
      have hin' := hrw.inputs_of_label hl hself
      rw [hin] at hin'
      exact .unary_ok (hrw.label_of_label hl) hin' (ih y rfl) hresult
  | @binary id l r op type a b hl hin hx hy ihl ihr =>
      intro v hv
      refine h.denotes_of_kept htyped hrw (hv ▸ .binary hl hin hx hy) fun hself => ?_
      obtain ⟨y, rfl, hrest⟩ := exists_of_bind_eq_ok hv
      obtain ⟨z, rfl, hresult⟩ := exists_of_bind_eq_ok hrest
      have hin' := hrw.inputs_of_label hl hself
      rw [hin] at hin'
      exact .binary_ok (hrw.label_of_label hl) hin' (ihl y rfl) (ihr z rfl) hresult

end Folded

namespace Graph

theorem foldConstants_eq_ok {g h : Graph} {roots news : List NodeId} {tally : Tally}
    (hg : g.Balanced) (hrun : foldConstants roots g = .ok (news, tally) h) :
    ∃ order w, g.postorder roots = .ok order ∧ Rewritten g order.reverse w ∧
      Folded g true order.reverse w ∧ h = w.graph ∧ news = roots.map w.standIn := by
  rw [foldConstants] at hrun
  cases happly : (Folding.rule Interpreter.evaluate true).apply roots ⟨g, .zero, .new⟩ with
  | error e s =>
      rw [happly] at hrun
      cases hrun
  | ok news' s =>
      rw [happly] at hrun
      cases hrun
      exact Folding.folded_of_apply hg happly

theorem exists_foldConstants {g : Graph} {roots order : List NodeId} (hg : g.Balanced)
    (hpost : g.postorder roots = .ok order) : ∃ out h, foldConstants roots g = .ok out h := by
  obtain ⟨p, hrun, -⟩ := Pass.exists_folded hg hpost true .zero .new
  have happly : (Folding.rule Interpreter.evaluate true).apply roots ⟨g, .zero, .new⟩ =
      .ok (roots.map p.standIn) p.toSession := NodeRule.applyRoots_of_overRoots hrun
  refine ⟨(roots.map p.standIn, p.tally), p.graph, ?_⟩
  rw [foldConstants, happly]

theorem exists_foldConstants_iff {g : Graph} (hg : g.Balanced) (hacyclic : g.Acyclic)
    {roots : List NodeId} :
    (∃ out h, foldConstants roots g = .ok out h) ↔ ∀ r ∈ roots, r < g.size := by
  constructor
  · rintro ⟨⟨news, tally⟩, h, hrun⟩ r hr
    obtain ⟨order, -, hpost, -⟩ := foldConstants_eq_ok hg hrun
    exact lt_of_mem_postorder hpost
      (((postorder_spec hpost).2 r).2 ⟨r, hr, Relation.ReflTransGen.refl⟩)
  · intro hlt
    obtain ⟨order, hpost⟩ := exists_postorder_of_acyclic hlt (fun _ _ hc => hg.input_lt hc)
      fun _ _ id _ => hacyclic id
    exact exists_foldConstants hg hpost

/-- Folding keeps all values over live variables. It goes through when all roots
are nodes of the graph, and a root that has a value, whatever the variables hold,
has the same value afterwards. -/
theorem foldConstants_denotes {g : Graph} (hg : g.Consistent) (hacyclic : g.Acyclic)
    (htyped : g.TruthTyped) (roots : List NodeId) :
    ((∃ out h, foldConstants roots g = .ok out h) ↔ ∀ r ∈ roots, r < g.size) ∧
      ∀ news tally h, foldConstants roots g = .ok (news, tally) h →
        List.Forall₂ (fun r r' => ∀ (live : Live) (v : Value),
          g.Denotes live r (.ok v) → h.Denotes live r' (.ok v)) roots news := by
  refine ⟨exists_foldConstants_iff hg.balanced hacyclic, fun news tally h hrun => ?_⟩
  obtain ⟨order, w, -, hrw, hfolded, rfl, rfl⟩ := foldConstants_eq_ok hg.balanced hrun
  rw [List.forall₂_map_right_iff, List.forall₂_same]
  exact fun r _ live v hd => hfolded.denotes htyped hrw hd v rfl

/-- A variable `x` that is set to `FALSE & n < 2`, and the product `(2 + 2) * n`. -/
def overN : Graph :=
  ⟨#[⟨.literal (.boolean false), .boolean, .scalar, [], [4], false⟩,
    ⟨.data .read "n", .int, .scalar, [], [3, 7], false⟩,
    ⟨.literal (.int 2), .int, .scalar, [], [3, 6, 6], false⟩,
    ⟨.binary .less, .boolean, .scalar, [1, 2], [4], false⟩,
    ⟨.binary .and, .boolean, .scalar, [0, 3], [5], false⟩,
    ⟨.data .write "x", .boolean, .scalar, [4], [], false⟩,
    ⟨.binary .plus, .int, .scalar, [2, 2], [7], false⟩,
    ⟨.binary .times, .int, .scalar, [6, 1], [], false⟩]⟩

def nIsThree : Live := fun _ _ => .ok (.int 3)

/-- With `3` in `n`, the variable is `FALSE` and the product `12`, before and after. -/
theorem foldConstants_denotes_overN :
    overN.Consistent ∧ overN.Acyclic ∧ overN.TruthTyped ∧
      ∃ x y tally h, foldConstants [5, 7] overN = .ok ([x, y], tally) h ∧
        h.Denotes nIsThree x (.ok (.boolean false)) ∧ h.Denotes nIsThree y (.ok (.int 12)) := by
  have hg : overN.Consistent := by decide +kernel
  have htyped : overN.TruthTyped := by decide +kernel
  have hpost : overN.postorder (List.range 8) = .ok [0, 1, 2, 3, 4, 5, 6, 7] := by
    decide +kernel
  have hacyclic : overN.Acyclic := acyclic_of_postorder hpost
  have hn : overN.Denotes nIsThree 1 (.ok (.int 3)) := .read rfl
  have htwo : overN.Denotes nIsThree 2 (.ok (.int 2)) := .literal rfl
  have hless : overN.Denotes nIsThree 3 (.ok (.boolean false)) :=
    .binary_ok rfl rfl hn htwo (by decide +kernel)
  have hand : overN.Denotes nIsThree 4 (.ok (.boolean false)) :=
    .binary_ok rfl rfl (.literal rfl) hless (by decide +kernel)
  have hfour : overN.Denotes nIsThree 6 (.ok (.int 4)) :=
    .binary_ok rfl rfl htwo htwo (by decide +kernel)
  have hproduct : overN.Denotes nIsThree 7 (.ok (.int 12)) :=
    .binary_ok rfl rfl hfour hn (by decide +kernel)
  obtain ⟨hruns, hkeeps⟩ := foldConstants_denotes hg hacyclic htyped [5, 7]
  obtain ⟨⟨news, tally⟩, h, hrun⟩ := hruns.2 (by decide)
  obtain ⟨x, rest, hx, hrest, rfl⟩ := List.forall₂_cons_left_iff.1 (hkeeps news tally h hrun)
  obtain ⟨y, last, hy, hlast, rfl⟩ := List.forall₂_cons_left_iff.1 hrest
  cases List.forall₂_nil_left_iff.1 hlast
  exact ⟨hg, hacyclic, htyped, x, y, tally, h, hrun, hx _ _ (.write rfl rfl hand), hy _ _ hproduct⟩

end Graph

end OpGraph
