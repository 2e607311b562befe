import OpGraph.Proofs.Settling

/-!
# Folding and execution

A node that settles to a value is replaced by a literal, and its expression by a
constant. Where both operands of an operator are literals, that is the value of
the expression. Where one operand decides a conjunction or a disjunction, the
other one is left out: it may have no value, and the literal is of type boolean
whatever type the operator declares.

So the expression to compare with is the one in which decided operators are read
as the truth values that decide them (`Graph.ReadsDecided`). What stands in for
a node has the value or the error of that expression (`Folded.reads`). A pass
that folds no predicates decides nothing, and then it is the expression below
the node itself: for every node of the graph, below the roots or not, executing
what stands in for it gives what executing the node gave.
-/

namespace OpGraph

def Application.map (f : NodeId → NodeId) : Application → Application
  | unary op x => unary op (f x)
  | binary op l r => binary op (f l) (f r)

def Term.map (f : NodeId → NodeId) : Term → Term
  | constant v => constant v
  | apply call type => apply (call.map f) type

theorem NodeKind.term_map (kind : NodeKind) (id : NodeId) (type : ValueType)
    (inputs : List NodeId) (f : NodeId → NodeId) :
    kind.term id type (inputs.map f) = (kind.term id type inputs).map (Term.map f) := by
  cases kind with
  | literal v => rfl
  | data a var => rfl
  | unary op =>
      rcases inputs with _ | ⟨x, _ | ⟨y, rest⟩⟩
      · rfl
      · rfl
      · simp [NodeKind.term, Except.map]
  | binary op =>
      simp only [NodeKind.term]
      split
      · rfl
      · rcases inputs with _ | ⟨x, _ | ⟨y, _ | ⟨z, rest⟩⟩⟩
        · rfl
        · rfl
        · rfl
        · simp [Except.map]

/-- Renaming the inputs of a node renames them in its term, and its faults stay. -/
theorem Graph.term_map {g h : Graph} {id : NodeId} {f : NodeId → NodeId}
    (hlabel : h.label? id = g.label? id) (hinputs : h.inputsOf id = (g.inputsOf id).map f) :
    h.term id = (g.term id).map (Term.map f) := by
  rw [term_eq, term_eq, hlabel, hinputs]
  cases g.label? id with
  | none => rfl
  | some l =>
      simp only []
      split
      · exact NodeKind.term_map ..
      · rfl

namespace Expr

variable {a a' b b' : Except EvalError Expr}

/-- Operators on expressions with the same values have the same values. -/
theorem map_value_unary (h : a'.map value = a.map value) (op : UnaryOp) (type : ValueType) :
    (a'.map fun e => unary op e type).map value = (a.map fun e => unary op e type).map value := by
  cases a <;> cases a' <;> simp_all [Except.map, value]

theorem map_value_binary (ha : a'.map value = a.map value) (hb : b'.map value = b.map value)
    (op : BinaryOp) (type : ValueType) :
    (a'.bind fun x => b'.map fun y => binary op x y type).map value =
      (a.bind fun x => b.map fun y => binary op x y type).map value := by
  cases a <;> cases a' <;> cases b <;> cases b' <;> simp_all [Except.map, Except.bind, value]

theorem bind_value_congr (h : a'.map value = a.map value) : a'.bind value = a.bind value := by
  cases a <;> cases a' <;> simp_all [Except.map, Except.bind]

end Expr

theorem UnaryOp.folded_eq_some {op : UnaryOp} {type : ValueType} {a v : Value}
    (h : op.folded type a = some v) : op.result type a = .ok v := by
  unfold UnaryOp.folded at h
  split at h
  · cases h
  · cases hr : op.result type a with
    | error e =>
        rw [hr] at h
        cases h
    | ok w =>
        rw [hr] at h
        cases h
        rfl

theorem BinaryOp.folded_eq_some {op : BinaryOp} {type : ValueType} {a b v : Value}
    (h : op.folded type a b = some v) : op.result type a b = .ok v := by
  unfold BinaryOp.folded at h
  split at h
  · cases h
  · cases hr : op.result type a b with
    | error e =>
        rw [hr] at h
        cases h
    | ok w =>
        rw [hr] at h
        cases h
        rfl

namespace Graph

theorem castOutcome_eq_some {g : Graph} {op : UnaryOp} {type : ValueType} {x : NodeId}
    {o : Option Value} {v : Value} (h : g.castOutcome op type x o = some v) :
    ∃ a, o = some a ∧ g.scalarAt x = true ∧ op.result type a = .ok v := by
  cases o with
  | none => cases h
  | some a =>
      rw [castOutcome, Option.bind_some] at h
      split at h
      · rename_i hscalar
        exact ⟨a, rfl, hscalar, UnaryOp.folded_eq_some h⟩
      · cases h

/-- A binary operator becomes what it computes on two literals, or what one of
them is when it decides. -/
theorem binaryOutcome_eq_some {g : Graph} {predicates : Bool} {op : BinaryOp} {type : ValueType}
    {l r : NodeId} {o o' : Option Value} {v : Value}
    (h : g.binaryOutcome predicates op type l r o o' = some v) :
    (∃ a b, o = some a ∧ o' = some b ∧ g.scalarAt l = true ∧ g.scalarAt r = true ∧
      op.result type a b = .ok v) ∨
    (predicates = true ∧ ∃ b, op.absorbing? = some b ∧ v = .boolean b ∧
      ((o = some v ∧ o' = none ∧ g.predicateAt r = true) ∨
        (o = none ∧ o' = some v ∧ g.predicateAt l = true))) := by
  cases o with
  | none =>
      cases o' with
      | none => cases h
      | some b =>
          rw [binaryOutcome] at h
          split at h
          · rename_i hcond
            cases h
            obtain ⟨c, hc, rfl⟩ := Option.map_eq_some_iff.1 hcond.2.1
            exact .inr ⟨hcond.1, c, hc, rfl, .inr ⟨rfl, rfl, hcond.2.2⟩⟩
          · cases h
  | some a =>
      cases o' with
      | none =>
          rw [binaryOutcome] at h
          split at h
          · rename_i hcond
            cases h
            obtain ⟨c, hc, rfl⟩ := Option.map_eq_some_iff.1 hcond.2.1
            exact .inr ⟨hcond.1, c, hc, rfl, .inl ⟨rfl, rfl, hcond.2.2⟩⟩
          · cases h
      | some b =>
          rw [binaryOutcome] at h
          split at h
          · rename_i hcond
            exact .inl ⟨a, b, rfl, rfl, hcond.1, hcond.2, BinaryOp.folded_eq_some h⟩
          · cases h

/-- One operand of the node settles to the truth value `b`, which decides it, and
the other one settles to nothing and is declared to be a truth value. The node
itself declares the given type. -/
def Decided (g : Graph) (predicates : Bool) (id : NodeId) (type : ValueType) (b : Bool) : Prop :=
  predicates = true ∧ ∃ op l r, g.form id = .binary op l r type ∧ op.absorbing? = some b ∧
    ((g.Settles predicates l (some (.boolean b)) ∧ g.Settles predicates r none ∧
        g.predicateAt r = true) ∨
      (g.Settles predicates l none ∧ g.Settles predicates r (some (.boolean b)) ∧
        g.predicateAt l = true))

theorem Decided.settles {g : Graph} {predicates : Bool} {id : NodeId} {type : ValueType} {b : Bool}
    (h : g.Decided predicates id type b) : g.Settles predicates id (some (.boolean b)) := by
  obtain ⟨hon, op, l, r, hform, hop, ⟨hl, hr, hpred⟩ | ⟨hl, hr, hpred⟩⟩ := h
  · have hbinary := Settles.binary hform hl hr
    rw [binaryOutcome, if_pos ⟨hon, by rw [hop]; rfl, hpred⟩] at hbinary
    exact hbinary
  · have hbinary := Settles.binary hform hl hr
    rw [binaryOutcome, if_pos ⟨hon, by rw [hop]; rfl, hpred⟩] at hbinary
    exact hbinary

theorem Decided.exists_term {g : Graph} {predicates : Bool} {id : NodeId} {type : ValueType}
    {b : Bool} (h : g.Decided predicates id type b) :
    ∃ op l r, g.term id = .ok (.apply (.binary op l r) type) := by
  obtain ⟨-, op, l, r, hform, -⟩ := h
  exact ⟨op, l, r, term_of_binary hform⟩

/-- The expression below a node, in which every decided operator is a constant. -/
inductive ReadsDecided (g : Graph) (predicates : Bool) : NodeId → Except EvalError Expr → Prop
  | decided {id : NodeId} {type : ValueType} {b : Bool} : g.Decided predicates id type b →
      ReadsDecided g predicates id (.ok (.constant (.boolean b)))
  | fault {id : NodeId} {e : EvalError} :
      g.term id = .error e → ReadsDecided g predicates id (.error e)
  | constant {id : NodeId} {v : Value} :
      g.term id = .ok (.constant v) → ReadsDecided g predicates id (.ok (.constant v))
  | unary {id x : NodeId} {op : UnaryOp} {type : ValueType} {a : Except EvalError Expr} :
      g.term id = .ok (.apply (.unary op x) type) → ReadsDecided g predicates x a →
      ReadsDecided g predicates id (a.map fun e => .unary op e type)
  | binary {id l r : NodeId} {op : BinaryOp} {type : ValueType} {a b : Except EvalError Expr} :
      g.term id = .ok (.apply (.binary op l r) type) →
      (∀ type b, ¬ g.Decided predicates id type b) →
      ReadsDecided g predicates l a → ReadsDecided g predicates r b →
      ReadsDecided g predicates id (a.bind fun x => b.map fun y => .binary op x y type)

section ReadsDecided

variable {g : Graph} {predicates : Bool} {id : NodeId}

theorem ReadsDecided.unique {r r' : Except EvalError Expr} (h : g.ReadsDecided predicates id r)
    (h' : g.ReadsDecided predicates id r') : r = r' := by
  induction h generalizing r' with
  | decided hd =>
      obtain ⟨op, x, y, ht⟩ := hd.exists_term
      cases h' with
      | decided hd' =>
          cases hd.settles.unique hd'.settles
          rfl
      | binary _ hnot _ _ => exact absurd hd (hnot _ _)
      | fault ht' | constant ht' | unary ht' => simp_all
  | fault ht =>
      cases h' with
      | decided hd' =>
          obtain ⟨op, x, y, ht'⟩ := hd'.exists_term
          simp_all
      | fault ht' | constant ht' | unary ht' | binary ht' => simp_all
  | constant ht =>
      cases h' with
      | decided hd' =>
          obtain ⟨op, x, y, ht'⟩ := hd'.exists_term
          simp_all
      | fault ht' | constant ht' | unary ht' | binary ht' => simp_all
  | unary ht _ ih =>
      cases h' with
      | decided hd' =>
          obtain ⟨op, x, y, ht'⟩ := hd'.exists_term
          simp_all
      | fault ht' | constant ht' | binary ht' => simp_all
      | unary ht' hx =>
          rw [ht] at ht'
          cases ht'
          rw [ih hx]
  | binary ht hnot _ _ ihl ihr =>
      cases h' with
      | decided hd' => exact absurd hd' (hnot _ _)
      | fault ht' | constant ht' | unary ht' => simp_all
      | binary ht' _ hl hr =>
          rw [ht] at ht'
          cases ht'
          rw [ihl hl, ihr hr]

theorem Reads.exists_decided (predicates : Bool) {r : Except EvalError Expr} (h : g.Reads id r) :
    ∃ r', g.ReadsDecided predicates id r' := by
  induction h with
  | fault ht => exact ⟨_, .fault ht⟩
  | constant ht => exact ⟨_, .constant ht⟩
  | unary ht _ ih =>
      obtain ⟨a, ha⟩ := ih
      exact ⟨_, .unary ht ha⟩
  | @binary id l r op type a b ht _ _ ihl ihr =>
      by_cases hd : ∃ type b, g.Decided predicates id type b
      · obtain ⟨type', c, hd⟩ := hd
        exact ⟨_, .decided hd⟩
      · obtain ⟨a', ha⟩ := ihl
        obtain ⟨b', hb⟩ := ihr
        exact ⟨_, .binary ht (fun type b hdecided => hd ⟨type, b, hdecided⟩) ha hb⟩

/-- Where predicates are not folded, nothing is decided. -/
theorem readsDecided_false {r : Except EvalError Expr} :
    g.ReadsDecided false id r ↔ g.Reads id r := by
  have hnot : ∀ {id type b}, ¬ g.Decided false id type b := fun hd => Bool.noConfusion hd.1
  constructor
  · intro h
    induction h with
    | decided hd => exact absurd hd hnot
    | fault ht => exact .fault ht
    | constant ht => exact .constant ht
    | unary ht _ ih => exact .unary ht ih
    | binary ht _ _ _ ihl ihr => exact .binary ht ihl ihr
  · intro h
    induction h with
    | fault ht => exact .fault ht
    | constant ht => exact .constant ht
    | unary ht _ ih => exact .unary ht ih
    | binary ht _ _ ihl ihr => exact .binary ht (fun _ _ => hnot) ihl ihr

/-- What a scalar node settles to is the value of that expression. -/
theorem Settles.readsDecided {o : Option Value} (h : g.Settles predicates id o) :
    ∀ v, o = some v → g.scalarAt id = true →
      ∃ e, g.ReadsDecided predicates id (.ok e) ∧ e.value = .ok v := by
  induction h with
  | @literal id w hform =>
      intro v hv hscalar
      cases hv
      exact ⟨_, .constant (term_of_scalar_literal hform hscalar), rfl⟩
  | other _ =>
      intro v hv
      cases hv
  | @cast id x op type o hform _ ih =>
      intro v hv _
      obtain ⟨a, ho, hx, hresult⟩ := castOutcome_eq_some hv
      obtain ⟨e, hreads, hvalue⟩ := ih a ho hx
      refine ⟨_, .unary (term_of_cast hform) hreads, ?_⟩
      rw [Expr.value, hvalue]
      exact hresult
  | @binary id l r op type o o' hform hsl hsr ihl ihr =>
      intro v hv _
      rcases binaryOutcome_eq_some hv with ⟨a, b, rfl, rfl, hl, hr, hresult⟩ |
        ⟨hon, b, hop, rfl, hside⟩
      · obtain ⟨el, hreadl, hvaluel⟩ := ihl a rfl hl
        obtain ⟨er, hreadr, hvaluer⟩ := ihr b rfl hr
        -- Both operands are literals, so neither of them decides the operator alone.
        have hnot : ∀ type b, ¬ g.Decided predicates id type b := by
          rintro type' c ⟨-, op', l', r', hform', -, hside⟩
          rw [hform] at hform'
          cases hform'
          rcases hside with ⟨-, hnone, -⟩ | ⟨hnone, -, -⟩
          · cases hsr.unique hnone
          · cases hsl.unique hnone
        refine ⟨_, .binary (term_of_binary hform) hnot hreadl hreadr, ?_⟩
        rw [Expr.value, hvaluel, hvaluer]
        exact hresult
      · refine ⟨_, .decided ⟨hon, op, l, r, hform, hop, ?_⟩, rfl⟩
        rcases hside with ⟨rfl, rfl, hpred⟩ | ⟨rfl, rfl, hpred⟩
        · exact .inl ⟨hsl, hsr, hpred⟩
        · exact .inr ⟨hsl, hsr, hpred⟩

theorem Settles.eq_value {u v : Value} {e : Expr} (h : g.Settles predicates id (some u))
    (hscalar : g.scalarAt id = true) (hreads : g.ReadsDecided predicates id (.ok e))
    (hvalue : e.value = .ok v) : v = u := by
  obtain ⟨e', hreads', hvalue'⟩ := h.readsDecided u rfl hscalar
  cases hreads.unique hreads'
  rw [hvalue] at hvalue'
  cases hvalue'
  rfl

end ReadsDecided

end Graph

section Folded

variable {g : Graph} {predicates : Bool} {done : List NodeId} {w : Rewrite} {id : NodeId}

theorem Rewritten.term_of_kept (h : Rewritten g done w) (hid : id < g.size)
    (hself : w.standIn id = id) : w.graph.term id = (g.term id).map (Term.map w.standIn) :=
  Graph.term_map (h.label id hid) (h.kept id hid hself)

/-- What stands in for a replaced node is read as the value it settles to. -/
theorem Folded.reads_of_replaced (hrw : Rewritten g done w) (h : Folded g predicates done w)
    (hne : w.standIn id ≠ id) :
    ∃ v, g.Settles predicates id (some v) ∧
      w.graph.Reads (w.standIn id) (.ok (.constant v)) := by
  obtain ⟨v, hlabel⟩ := hrw.label_of_replaced hne
  have hlit := Graph.literalAt?_of_label hlabel
  refine ⟨v, hlit ▸ h.settles id (hrw.replaced id hne).1, .constant ?_⟩
  rw [Graph.term_eq, hlabel]
  rfl

theorem Folded.reads_of_decided (hrw : Rewritten g done w) (h : Folded g predicates done w)
    {type : ValueType} {b : Bool} (hid : id ∈ done) (hdecided : g.Decided predicates id type b) :
    w.graph.Reads (w.standIn id) (.ok (.constant (.boolean b))) := by
  have hlit := (h.settles id hid).unique hdecided.settles
  have hne : w.standIn id ≠ id := by
    intro hself
    obtain ⟨-, op, l, r, hform, -⟩ := hdecided
    obtain ⟨hlabel, -⟩ := Graph.form_eq_binary hform
    rw [hself, Graph.literalAt?, hrw.label id (hrw.done_lt id hid), hlabel] at hlit
    cases hlit
  obtain ⟨v, hsettles, hreads⟩ := h.reads_of_replaced hrw hne
  cases hsettles.unique hdecided.settles
  exact hreads

/-- Below the node that stands in for `id` there is another expression than below
`id`, even with decided operators as constants, but it fails in the same way or
has the same value. -/
theorem Folded.reads (hg : g.Balanced) (hrw : Rewritten g done w)
    (h : Folded g predicates done w) {r : Except EvalError Expr}
    (hr : g.ReadsDecided predicates id r) :
    id < g.size → (∀ j type b, g.Reaches id j → g.Decided predicates j type b → j ∈ done) →
      ∃ r', w.graph.Reads (w.standIn id) r' ∧ r'.map Expr.value = r.map Expr.value := by
  -- A replaced node needs no induction: it settles to its value.
  have replaced : ∀ {id r}, g.ReadsDecided predicates id r → w.standIn id ≠ id →
      ∃ r', w.graph.Reads (w.standIn id) r' ∧ r'.map Expr.value = r.map Expr.value := by
    intro id r hr hne
    obtain ⟨v, hsettles, hreads⟩ := h.reads_of_replaced hrw hne
    obtain ⟨e, he, hvalue⟩ := hsettles.readsDecided v rfl (h.operator id hne).2
    refine ⟨_, hreads, ?_⟩
    rw [hr.unique he, Except.map, Except.map, hvalue]
    rfl
  induction hr with
  | @decided id type b hd =>
      intro _ hdone
      have hmem := hdone id type b Relation.ReflTransGen.refl hd
      exact ⟨_, h.reads_of_decided hrw hmem hd, rfl⟩
  | @fault id e ht =>
      intro hid _
      by_cases hself : w.standIn id = id
      · rw [hself]
        refine ⟨_, .fault ?_, rfl⟩
        rw [hrw.term_of_kept hid hself, ht]
        rfl
      · exact replaced (.fault ht) hself
  | @constant id v ht =>
      intro hid _
      by_cases hself : w.standIn id = id
      · rw [hself]
        refine ⟨_, .constant ?_, rfl⟩
        rw [hrw.term_of_kept hid hself, ht]
        rfl
      · exact replaced (.constant ht) hself
  | @unary id x op type a ht hx ih =>
      intro hid hdone
      by_cases hself : w.standIn id = id
      · rw [hself]
        have hheld : g.Holds id x := Graph.holds_of_term ht (by simp [Application.inputs])
        obtain ⟨a', hx', hvalue⟩ := ih (hg.input_lt hheld) fun j type b hj =>
          hdone j type b (Relation.ReflTransGen.head hheld hj)
        have ht' : w.graph.term id = .ok (.apply (.unary op (w.standIn x)) type) := by
          rw [hrw.term_of_kept hid hself, ht]
          rfl
        refine ⟨_, .unary ht' hx', ?_⟩
        exact Expr.map_value_unary hvalue op type
      · exact replaced (.unary ht hx) hself
  | @binary id l r op type a b ht hnot hl hr ihl ihr =>
      intro hid hdone
      by_cases hself : w.standIn id = id
      · rw [hself]
        have hheldl : g.Holds id l := Graph.holds_of_term ht (by simp [Application.inputs])
        have hheldr : g.Holds id r := Graph.holds_of_term ht (by simp [Application.inputs])
        obtain ⟨a', hl', hvaluel⟩ := ihl (hg.input_lt hheldl) fun j type b hj =>
          hdone j type b (Relation.ReflTransGen.head hheldl hj)
        obtain ⟨b', hr', hvaluer⟩ := ihr (hg.input_lt hheldr) fun j type b hj =>
          hdone j type b (Relation.ReflTransGen.head hheldr hj)
        have ht' : w.graph.term id =
            .ok (.apply (.binary op (w.standIn l) (w.standIn r)) type) := by
          rw [hrw.term_of_kept hid hself, ht]
          rfl
        refine ⟨_, .binary ht' hl' hr', ?_⟩
        exact Expr.map_value_binary hvaluel hvaluer op type
      · exact replaced (.binary ht hnot hl hr) hself

theorem Folded.execute_eq_ok_iff (hg : g.Balanced) (hrw : Rewritten g done w)
    (h : Folded g predicates done w) (hid : id < g.size) (hground : g.Grounded id)
    (hdone : ∀ j type b, g.Reaches id j → g.Decided predicates j type b → j ∈ done) (v : Value) :
    w.graph.execute (w.standIn id) = .ok v ↔
      ∃ e, g.ReadsDecided predicates id (.ok e) ∧ e.value = .ok v := by
  obtain ⟨r₀, hr₀⟩ := Graph.exists_reads hground
  obtain ⟨r, hr⟩ := Graph.Reads.exists_decided predicates hr₀
  obtain ⟨r', hr', hvalue⟩ := h.reads hg hrw hr hid hdone
  rw [hr'.execute, Expr.bind_value_congr hvalue]
  constructor
  · intro hok
    cases r with
    | error err => cases hok
    | ok e => exact ⟨e, hr, hok⟩
  · rintro ⟨e, he, hok⟩
    rw [hr.unique he]
    exact hok

theorem Folded.execute_eq (hg : g.Balanced) (hrw : Rewritten g done w)
    (h : Folded g false done w) (hid : id < g.size) (hground : g.Grounded id) :
    w.graph.execute (w.standIn id) = g.execute id := by
  obtain ⟨r, hr⟩ := Graph.exists_reads hground
  obtain ⟨r', hr', hvalue⟩ := h.reads hg hrw (Graph.readsDecided_false.2 hr) hid
    fun _ _ _ _ hd => Bool.noConfusion hd.1
  rw [hr.execute, hr'.execute, Expr.bind_value_congr hvalue]

end Folded

/-- Folding without predicates changes no result. Every node of the graph is
still there or has become a literal, and executing what stands in for it gives
the value or the error that executing it gave. -/
theorem Folding.execute_standIn {g : Graph} {roots order : List NodeId} (hg : g.Consistent)
    (hpost : g.postorder roots = .ok order) (tally : Tally) (memory : Interpreter) :
    ∃ p : Pass Interpreter,
      Pass.overRoots (node Interpreter.evaluate false) roots ⟨⟨g, tally, memory⟩, []⟩ =
        .ok (roots.map p.standIn) p ∧
      (rule Interpreter.evaluate false).apply roots ⟨g, tally, memory⟩ =
        .ok (roots.map p.standIn) p.toSession ∧
      ∀ id < g.size, (∃ below, g.postorder [id] = .ok below) →
        (p.standIn id = id ∨ g.size ≤ p.standIn id ∧ p.graph.isLiteral (p.standIn id) = true) ∧
          p.graph.execute (p.standIn id) = g.execute id := by
  obtain ⟨p, hrun, hrw, hfolded⟩ := Pass.exists_folded hg.balanced hpost false tally memory
  refine ⟨p, hrun, NodeRule.applyRoots_of_overRoots hrun, ?_⟩
  rintro id hid ⟨below, hbelow⟩
  have hground : g.Grounded id :=
    Graph.grounded_of_postorder hbelow (List.mem_singleton_self id) Relation.ReflTransGen.refl
  refine ⟨?_, hfolded.execute_eq hg.balanced hrw hid hground⟩
  by_cases hself : p.standIn id = id
  · exact .inl hself
  · obtain ⟨v, hlabel⟩ := hrw.label_of_replaced hself
    refine .inr ⟨(hrw.replaced id hself).2.1, ?_⟩
    rw [Graph.isLiteral_eq, Graph.literalAt?_of_label hlabel]
    rfl

/-- The node `(2 + 2) * n`, for a variable `n`, and a quotient `(2 + 2) %/% 0` that
shares its sum. -/
def Graph.sharedSum : Graph :=
  ⟨#[⟨.literal (.int 2), .int, .scalar, [], [1, 1], false⟩,
    ⟨.binary .plus, .int, .scalar, [0, 0], [3, 5], false⟩,
    ⟨.data .read "n", .int, .scalar, [], [3], false⟩,
    ⟨.binary .times, .int, .scalar, [1, 2], [], false⟩,
    ⟨.literal (.int 0), .int, .scalar, [], [5], false⟩,
    ⟨.binary .intDivide, .int, .scalar, [1, 4], [], false⟩]⟩

/-- A pass over the product folds the sum, and the quotient outside of it divides
a literal by zero as it divided a sum before. -/
theorem Folding.execute_standIn_sharedSum :
    Graph.sharedSum.Consistent ∧ Graph.sharedSum.postorder [3] = .ok [0, 1, 2, 3] ∧
      Graph.sharedSum.postorder [1] = .ok [0, 1] ∧
      Graph.sharedSum.postorder [5] = .ok [0, 1, 4, 5] ∧
      ∃ p : Pass Interpreter,
        Pass.overRoots (node Interpreter.evaluate false) [3]
            ⟨⟨Graph.sharedSum, .zero, .new⟩, []⟩ = .ok [p.standIn 3] p ∧
          p.graph.execute (p.standIn 1) = .ok (.int 4) ∧
          p.graph.execute (p.standIn 5) = .error (.divisionByZero .intDivide 4) := by
  have hg : Graph.sharedSum.Consistent := by decide +kernel
  have hpost : Graph.sharedSum.postorder [3] = .ok [0, 1, 2, 3] := by decide +kernel
  have hsum : Graph.sharedSum.postorder [1] = .ok [0, 1] := by decide +kernel
  have hquotient : Graph.sharedSum.postorder [5] = .ok [0, 1, 4, 5] := by decide +kernel
  obtain ⟨p, hrun, -, hall⟩ := Folding.execute_standIn hg hpost .zero .new
  refine ⟨hg, hpost, hsum, hquotient, p, hrun, ?_, ?_⟩
  · rw [(hall 1 (by decide) ⟨_, hsum⟩).2]
    decide +kernel
  · rw [(hall 5 (by decide) ⟨_, hquotient⟩).2]
    decide +kernel

end OpGraph
