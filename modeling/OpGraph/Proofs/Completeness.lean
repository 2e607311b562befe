import OpGraph.Proofs.Predicates
import OpGraph.Proofs.Denotation

/-!
# Everything that has a value is folded

Soundness says that folding changes no value. It holds as well of a pass that
folds nothing. The other half is about expressions in which folding can evaluate
every operator (`Graph.Foldable`): there, what a node settles to is the value that
it has, and nothing if it has none (`Graph.FoldableBelow.exists_expr`). So one pass
leaves a literal in the place of the root exactly if the root can be executed.

A foldable operator waits for its inputs only. If one of them has no value, it is
no literal when the pass comes to the operator, and the operator is kept; and then
the operator has no value either. If the inputs have values, the operator is
evaluated on the literals that they have become, and a declared type is all that is
needed for turning its value into a literal.

Nothing is assumed about cycles. Nodes on a cycle are no expression, so they have
no value, and a pass refuses them.
-/

namespace OpGraph

namespace Graph

/-- A scalar literal without inputs, or an operator that folding can evaluate and
that declares a type. -/
inductive Foldable (g : Graph) (id : NodeId) : Prop
  | literal {v : Value} : g.form id = .literal v → g.scalarAt id = true → g.inputsOf id = [] →
      Foldable g id
  | cast {op : UnaryOp} {x : NodeId} {type : ValueType} : g.form id = .cast op x type →
      type ≠ .unknown → Foldable g id
  | binary {op : BinaryOp} {l r : NodeId} {type : ValueType} : g.form id = .binary op l r type →
      type ≠ .unknown → Foldable g id

def FoldableBelow (g : Graph) (root : NodeId) : Prop := ∀ id, g.Reaches root id → g.Foldable id

variable {g : Graph} {id : NodeId}

theorem FoldableBelow.self (h : g.FoldableBelow id) : g.Foldable id :=
  h id Relation.ReflTransGen.refl

theorem FoldableBelow.input {c : NodeId} (h : g.FoldableBelow id) (hc : c ∈ g.inputsOf id) :
    g.FoldableBelow c :=
  fun j hreach => h j (Relation.ReflTransGen.head hc hreach)

theorem Foldable.exists_term (h : g.Foldable id) : ∃ t, g.term id = .ok t := by
  cases h with
  | literal hform hscalar _ => exact ⟨_, term_of_scalar_literal hform hscalar⟩
  | cast hform _ => exact ⟨_, term_of_cast hform⟩
  | binary hform _ => exact ⟨_, term_of_binary hform⟩

theorem Foldable.inputs_of_constant (h : g.Foldable id) {v : Value}
    (ht : g.term id = .ok (.constant v)) : g.inputsOf id = [] := by
  cases h with
  | literal _ _ hinputs => exact hinputs
  | cast hform _ =>
      rw [term_of_cast hform] at ht
      cases ht
  | binary hform _ =>
      rw [term_of_binary hform] at ht
      cases ht

theorem Foldable.lt_size (h : g.Foldable id) : id < g.size := by
  obtain ⟨t, hterm⟩ := h.exists_term
  have hscalar : g.scalarAt id = true := scalarAt_of_term hterm
  rw [← label?_isSome_iff]
  cases hl : g.label? id with
  | none =>
      rw [scalarAt, hl] at hscalar
      cases hscalar
  | some l => rfl

/-! ## What foldable nodes settle to -/

theorem castOutcome_toOption {x : NodeId} {type : ValueType} (hx : g.scalarAt x = true)
    (htype : type ≠ .unknown) (op : UnaryOp) (a : Except EvalError Value) :
    g.castOutcome op type x a.toOption = (a.bind (op.result type)).toOption := by
  cases a with
  | error e => rfl
  | ok v =>
      show (if g.scalarAt x then op.folded type v else none) = _
      rw [if_pos hx, UnaryOp.folded, if_neg htype]
      rfl

/-- Where predicates are not folded, an operator waits for both of its inputs. -/
theorem binaryOutcome_toOption {l r : NodeId} {type : ValueType} (hl : g.scalarAt l = true)
    (hr : g.scalarAt r = true) (htype : type ≠ .unknown) (op : BinaryOp)
    (a b : Except EvalError Value) :
    g.binaryOutcome false op type l r a.toOption b.toOption =
      (a.bind fun x => b.bind (op.result type x)).toOption := by
  cases a with
  | error e => cases b <;> rfl
  | ok v =>
      cases b with
      | error e => rfl
      | ok w =>
          show (if g.scalarAt l ∧ g.scalarAt r then op.folded type v w else none) = _
          rw [if_pos ⟨hl, hr⟩, BinaryOp.folded, if_neg htype]
          rfl

/-- A node with foldable nodes at and below it reads as an expression, and settles
to the value of that expression, if there is one. -/
theorem FoldableBelow.exists_expr (hbelow : g.FoldableBelow id) (hground : g.Grounded id) :
    ∃ e, g.Reads id (.ok e) ∧ g.Settles false id e.value.toOption := by
  induction hground with
  | intro id _ ih =>
      have hinput : ∀ c ∈ g.inputsOf id,
          ∃ e, g.Reads c (.ok e) ∧ g.Settles false c e.value.toOption :=
        fun c hc => ih c hc (hbelow.input hc)
      cases hbelow.self with
      | literal hform hscalar _ =>
          exact ⟨_, .constant (term_of_scalar_literal hform hscalar), .literal hform⟩
      | @cast op x type hform htype =>
          have hterm := term_of_cast hform
          have hx : g.Holds id x := holds_of_term hterm (by simp [Application.inputs])
          obtain ⟨e, hreads, hsettles⟩ := hinput x hx
          refine ⟨_, .unary hterm hreads, ?_⟩
          rw [Expr.value, ← castOutcome_toOption hreads.scalarAt htype]
          exact .cast hform hsettles
      | @binary op l r type hform htype =>
          have hterm := term_of_binary hform
          have hl : g.Holds id l := holds_of_term hterm (by simp [Application.inputs])
          have hr : g.Holds id r := holds_of_term hterm (by simp [Application.inputs])
          obtain ⟨el, hreadl, hsettlel⟩ := hinput l hl
          obtain ⟨er, hreadr, hsettler⟩ := hinput r hr
          refine ⟨_, .binary hterm hreadl hreadr, ?_⟩
          rw [Expr.value, ← binaryOutcome_toOption hreadl.scalarAt hreadr.scalarAt htype]
          exact .binary hform hsettlel hsettler

theorem FoldableBelow.settles (hbelow : g.FoldableBelow id) (hground : g.Grounded id) :
    g.Settles false id (g.execute id).toOption := by
  obtain ⟨e, hreads, hsettles⟩ := hbelow.exists_expr hground
  rw [hreads.execute]
  exact hsettles

/-- The value of a foldable operator has the type that the operator declares. -/
theorem FoldableBelow.type_of_execute (hbelow : g.FoldableBelow id) (hground : g.Grounded id)
    {v : Value} (hexecute : g.execute id = .ok v) (hop : g.literalAt? id = none) :
    (g.label? id).map Label.valueType = some v.type := by
  obtain ⟨e, hreads, hvalue⟩ := exists_value_of_execute hground hexecute
  cases hbelow.self with
  | literal hform _ _ =>
      rw [form_eq_literal_iff.1 hform] at hop
      cases hop
  | cast hform htype =>
      obtain ⟨ex, rfl, -⟩ := hreads.of_unary (term_of_cast hform)
      obtain ⟨a, -, hresult⟩ := Expr.value_unary hvalue
      rw [(form_eq_cast hform).1, (UnaryOp.type_of_result hresult).resolve_left htype]
      rfl
  | binary hform htype =>
      obtain ⟨el, er, rfl, -, -⟩ := hreads.of_binary (term_of_binary hform)
      obtain ⟨a, b, -, -, hresult⟩ := Expr.value_binary hvalue
      rw [(form_eq_binary hform).1, (BinaryOp.type_of_result hresult).resolve_left htype]
      rfl

/-! ## Cycles -/

/-- Foldable nodes are computed from all their inputs, so there is no endless way
down from one that reads somehow. -/
theorem Reads.grounded {r : Except EvalError Expr} (h : g.Reads id r)
    (hbelow : g.FoldableBelow id) : g.Grounded id := by
  induction h with
  | fault ht =>
      obtain ⟨t, hterm⟩ := hbelow.self.exists_term
      rw [ht] at hterm
      cases hterm
  | @constant id v ht =>
      refine Acc.intro id fun c (hc : c ∈ g.inputsOf id) => ?_
      rw [hbelow.self.inputs_of_constant ht] at hc
      cases hc
  | @unary id x op type a ht _ ih =>
      refine Acc.intro id fun c (hc : c ∈ g.inputsOf id) => ?_
      have hmem := hc
      rw [← inputs_of_term ht] at hmem
      cases List.mem_singleton.1 hmem
      exact ih (hbelow.input hc)
  | @binary id l r op type a b ht _ _ ihl ihr =>
      refine Acc.intro id fun c (hc : c ∈ g.inputsOf id) => ?_
      have hmem := hc
      rw [← inputs_of_term ht] at hmem
      rcases List.mem_pair.1 hmem with rfl | rfl
      · exact ihl (hbelow.input hc)
      · exact ihr (hbelow.input hc)

theorem compile_of_execute {v : Value} (h : g.execute id = .ok v) :
    ∃ code, g.compile id Interpreter.resultName = .ok code := by
  cases hcode : g.compile id Interpreter.resultName with
  | ok code => exact ⟨code, rfl⟩
  | error e =>
      rw [execute, Interpreter.evaluate, hcode] at h
      cases h

theorem FoldableBelow.grounded_of_execute (hbelow : g.FoldableBelow id) {v : Value}
    (h : g.execute id = .ok v) : g.Grounded id := by
  obtain ⟨code, hcode⟩ := compile_of_execute h
  obtain ⟨e, hreads⟩ := reads_of_compile hcode
  exact hreads.grounded hbelow

theorem FoldableBelow.exists_postorder (hg : g.Balanced) (hbelow : g.FoldableBelow id) {v : Value}
    (h : g.execute id = .ok v) : ∃ order, g.postorder [id] = .ok order := by
  refine Graph.exists_postorder ?_ (fun _ _ hc => hg.input_lt hc) ?_
  · intro r hr
    cases List.mem_singleton.1 hr
    exact hbelow.self.lt_size
  · intro r hr
    cases List.mem_singleton.1 hr
    exact hbelow.grounded_of_execute h

theorem literalValue_of_literalAt? {v : Value} (h : g.literalAt? id = some v) :
    g.literalValue id = .ok v := by
  cases hn : g.node? id with
  | none =>
      rw [literalAt?, label?, hn] at h
      cases h
  | some n =>
      rw [literalAt?_of_node? hn] at h
      rw [literalValue, node_eq_ok_iff.2 hn]
      simp only [h]

end Graph

section Folded

variable {g : Graph} {done : List NodeId} {w : Rewrite} {id : NodeId}

theorem Folded.literalAt?_standIn (h : Folded g false done w) (hid : id ∈ done)
    (hground : g.Grounded id) (hbelow : g.FoldableBelow id) :
    w.graph.literalAt? (w.standIn id) = (g.execute id).toOption :=
  (h.settles id hid).unique (hbelow.settles hground)

theorem Folded.valueType_standIn (hrw : Rewritten g done w) (h : Folded g false done w)
    (hid : id ∈ done) (hground : g.Grounded id) (hbelow : g.FoldableBelow id) {v : Value}
    (hexecute : g.execute id = .ok v) :
    (w.graph.label? (w.standIn id)).map Label.valueType = (g.label? id).map Label.valueType := by
  by_cases hself : w.standIn id = id
  · rw [hself, hrw.label id (hrw.done_lt id hid)]
  · obtain ⟨u, hlabel⟩ := hrw.label_of_replaced hself
    have hu : some u = some v := by
      rw [← Graph.literalAt?_of_label hlabel, h.literalAt?_standIn hid hground hbelow, hexecute]
      rfl
    cases hu
    rw [hlabel, hbelow.type_of_execute hground hexecute (h.operator id hself).1]
    rfl

end Folded

/-- Where folding can evaluate every operator below a root, the root becomes a
literal exactly if it can be executed. The literal is the value of the root and
has its type. A root above a cycle has no value and is refused. -/
theorem Folding.apply_complete {g : Graph} {root : NodeId} (hg : g.Consistent)
    (hbelow : g.FoldableBelow root) (tally : Tally) (memory : Interpreter) :
    (∃ e, g.postorder [root] = .error e ∧
      (rule Interpreter.evaluate false).apply [root] ⟨g, tally, memory⟩ =
        .error e ⟨g, tally, memory⟩ ∧
      ∀ v, g.execute root ≠ .ok v) ∨
    ∃ new s, (rule Interpreter.evaluate false).apply [root] ⟨g, tally, memory⟩ = .ok [new] s ∧
      (s.graph.isLiteral new = true ↔ ∃ v, g.execute root = .ok v) ∧
      ∀ v, g.execute root = .ok v → s.graph.literalValue new = .ok v ∧
        (s.graph.label? new).map Label.valueType = (g.label? root).map Label.valueType := by
  cases hpost : g.postorder [root] with
  | error e =>
      refine .inl ⟨e, rfl, NodeRule.applyRoots_error _ ⟨g, tally, memory⟩ hpost, ?_⟩
      intro v hexecute
      obtain ⟨order, hok⟩ := hbelow.exists_postorder hg.balanced hexecute
      rw [hpost] at hok
      cases hok
  | ok order =>
      obtain ⟨p, hrun, hrw, hfolded⟩ := Pass.exists_folded hg.balanced hpost false tally memory
      have hroot : root ∈ [root] := List.mem_singleton_self root
      have hlisted : root ∈ order.reverse :=
        List.mem_reverse.2 (Graph.mem_postorder_of_root hpost hroot)
      have hground : g.Grounded root :=
        Graph.grounded_of_postorder hpost hroot Relation.ReflTransGen.refl
      have hliteral : p.graph.literalAt? (p.standIn root) = (g.execute root).toOption :=
        hfolded.literalAt?_standIn hlisted hground hbelow
      refine .inr ⟨p.standIn root, p.toSession, NodeRule.applyRoots_of_overRoots hrun, ?_, ?_⟩
      · rw [Graph.isLiteral_eq, hliteral]
        cases g.execute root <;> simp [Except.toOption]
      · intro v hexecute
        rw [hexecute] at hliteral
        exact ⟨Graph.literalValue_of_literalAt? hliteral,
          hfolded.valueType_standIn hrw hlisted hground hbelow hexecute⟩

/-- The sum of `7` and of `0 < 7` as an integer, and this sum divided by zero. -/
def Graph.castComparison : Graph :=
  ⟨#[⟨.literal (.int 7), .int, .scalar, [], [2, 4], false⟩,
    ⟨.literal (.int 0), .int, .scalar, [], [2, 5], false⟩,
    ⟨.binary .less, .boolean, .scalar, [1, 0], [3], false⟩,
    ⟨.unary .asInteger, .int, .scalar, [2], [4], false⟩,
    ⟨.binary .plus, .int, .scalar, [0, 3], [5], false⟩,
    ⟨.binary .intDivide, .int, .scalar, [4, 1], [], false⟩]⟩

theorem Graph.castComparison_foldable : castComparison.FoldableBelow 5 := by
  intro id hreach
  have hpost : castComparison.postorder [5] = .ok [0, 1, 2, 3, 4, 5] := by decide +kernel
  have hid := ((postorder_spec hpost).2 id).2 ⟨5, List.mem_singleton_self 5, hreach⟩
  simp only [List.mem_cons, List.not_mem_nil, or_false] at hid
  rcases hid with rfl | rfl | rfl | rfl | rfl | rfl
  · exact .literal rfl rfl rfl
  · exact .literal rfl rfl rfl
  · exact .binary rfl (by decide)
  · exact .cast rfl (by decide)
  · exact .binary rfl (by decide)
  · exact .binary rfl (by decide)

/-- The sum becomes the literal `8`, and the quotient stays an operator. -/
theorem Folding.apply_complete_castComparison :
    Graph.castComparison.Consistent ∧ Graph.castComparison.FoldableBelow 4 ∧
      Graph.castComparison.FoldableBelow 5 ∧
      (∃ new s, (rule Interpreter.evaluate false).apply [4] ⟨.castComparison, .zero, .new⟩ =
          .ok [new] s ∧
        s.graph.literalValue new = .ok (.int 8) ∧
        (s.graph.label? new).map Label.valueType = some .int) ∧
      ∃ new s, (rule Interpreter.evaluate false).apply [5] ⟨.castComparison, .zero, .new⟩ =
          .ok [new] s ∧ s.graph.isLiteral new = false := by
  have hg : Graph.castComparison.Consistent := by decide +kernel
  have hbelow := Graph.castComparison_foldable
  have hsum : Graph.castComparison.FoldableBelow 4 :=
    hbelow.input (show 4 ∈ Graph.castComparison.inputsOf 5 by decide)
  refine ⟨hg, hsum, hbelow, ?_, ?_⟩
  · have hexecute : Graph.castComparison.execute 4 = .ok (.int 8) := by decide +kernel
    rcases apply_complete hg hsum .zero .new with ⟨e, -, -, hnone⟩ | ⟨new, s, hrun, -, hvalue⟩
    · exact absurd hexecute (hnone _)
    · exact ⟨new, s, hrun, hvalue _ hexecute⟩
  · have hexecute : Graph.castComparison.execute 5 = .error (.divisionByZero .intDivide 8) := by
      decide +kernel
    rcases apply_complete hg hbelow .zero .new with ⟨e, hpost, -, -⟩ | ⟨new, s, hrun, hiff, -⟩
    · have hlisted : Graph.castComparison.postorder [5] = .ok [0, 1, 2, 3, 4, 5] := by
        decide +kernel
      rw [hlisted] at hpost
      cases hpost
    · refine ⟨new, s, hrun, ?_⟩
      rw [hexecute] at hiff
      simpa using hiff

end OpGraph
