import OpGraph.Graph.Term
import OpGraph.Scalar.Eval
import OpGraph.Proofs.Reach

/-!
# The expression below a node

A node that can be computed stands for a tree of operators over constants, in
which a node that is used twice appears twice. `Expr` is the type of these trees
and `Expr.value` computes one by recursion: operands from left to right, then
the operator, then the conversion to the declared type.

`Graph.Reads` ties a node to its tree. A node that cannot be computed, because
of what it is or of what lies below it, has the first fault that is met on the
way down, left operands first. Every node without an endless way down reads as
one or the other, and in one way only.
-/

namespace OpGraph

theorem exists_of_bind_eq_ok {ε α β : Type} {x : Except ε α} {f : α → Except ε β} {b : β}
    (h : x.bind f = .ok b) : ∃ a, x = .ok a ∧ f a = .ok b := by
  cases x with
  | error e => cases h
  | ok a => exact ⟨a, rfl, h⟩

/-- What an operator with a declared type computes. -/
def UnaryOp.result (op : UnaryOp) (type : ValueType) (x : Value) : Except EvalError Value :=
  (applyUnary op x).bind (Value.coerce type)

@[inherit_doc UnaryOp.result]
def BinaryOp.result (op : BinaryOp) (type : ValueType) (l r : Value) : Except EvalError Value :=
  (applyBinary op l r).bind (Value.coerce type)

/-- A scalar expression. The result of an operator has a declared type. -/
inductive Expr where
  | constant (value : Value)
  | unary (op : UnaryOp) (input : Expr) (type : ValueType)
  | binary (op : BinaryOp) (left right : Expr) (type : ValueType)

namespace Expr

/-- The value of an expression, or the first error on the way to it. -/
def value : Expr → Except EvalError Value
  | constant v => .ok v
  | unary op input type => input.value.bind (op.result type)
  | binary op left right type => left.value.bind fun l => right.value.bind (op.result type l)

theorem value_unary {op : UnaryOp} {e : Expr} {type : ValueType} {v : Value}
    (h : (unary op e type).value = .ok v) : ∃ a, e.value = .ok a ∧ op.result type a = .ok v := by
  rw [value] at h
  exact exists_of_bind_eq_ok h

theorem value_binary {op : BinaryOp} {el er : Expr} {type : ValueType} {v : Value}
    (h : (binary op el er type).value = .ok v) :
    ∃ a b, el.value = .ok a ∧ er.value = .ok b ∧ op.result type a b = .ok v := by
  rw [value] at h
  obtain ⟨a, ha, h⟩ := exists_of_bind_eq_ok h
  obtain ⟨b, hb, h⟩ := exists_of_bind_eq_ok h
  exact ⟨a, b, ha, hb, h⟩

end Expr

theorem NodeKind.term_eq_apply {kind : NodeKind} {id : NodeId} {type type' : ValueType}
    {inputs : List NodeId} {call : Application}
    (h : kind.term id type inputs = .ok (.apply call type')) :
    call.inputs = inputs ∧ type' = type ∧ ∀ v, kind ≠ .literal v := by
  cases kind with
  | literal v => cases h
  | data a var => cases h
  | unary op =>
      simp only [NodeKind.term] at h
      split at h
      · cases h
        exact ⟨rfl, rfl, by simp⟩
      · cases h
  | binary op =>
      simp only [NodeKind.term] at h
      split at h
      · cases h
      · split at h
        · cases h
          exact ⟨rfl, rfl, by simp⟩
        · cases h

theorem NodeKind.term_eq_constant {kind : NodeKind} {id : NodeId} {type : ValueType}
    {inputs : List NodeId} {v : Value} (h : kind.term id type inputs = .ok (.constant v)) :
    kind = .literal v := by
  cases kind with
  | literal w =>
      cases h
      rfl
  | data a var => cases h
  | unary op =>
      simp only [NodeKind.term] at h
      split at h <;> cases h
  | binary op =>
      simp only [NodeKind.term] at h
      split at h
      · cases h
      · split at h <;> cases h

namespace Graph

/-- How a node reads as an expression, or why it does not. -/
inductive Reads (g : Graph) : NodeId → Except EvalError Expr → Prop
  | fault {id : NodeId} {e : EvalError} : g.term id = .error e → Reads g id (.error e)
  | constant {id : NodeId} {v : Value} :
      g.term id = .ok (.constant v) → Reads g id (.ok (.constant v))
  | unary {id x : NodeId} {op : UnaryOp} {type : ValueType} {a : Except EvalError Expr} :
      g.term id = .ok (.apply (.unary op x) type) → Reads g x a →
      Reads g id (a.map fun e => .unary op e type)
  | binary {id l r : NodeId} {op : BinaryOp} {type : ValueType} {a b : Except EvalError Expr} :
      g.term id = .ok (.apply (.binary op l r) type) → Reads g l a → Reads g r b →
      Reads g id (a.bind fun x => b.map fun y => .binary op x y type)

/-- The reading of a node, in terms of its label and its inputs. -/
theorem term_eq (g : Graph) (id : NodeId) :
    g.term id = match g.label? id with
      | none => .error (.graph (.unknownNode id))
      | some l =>
          if l.dataType = .scalar then l.kind.term id l.valueType (g.inputsOf id)
          else .error (.compile id (.shape l.dataType)) := by
  cases hn : g.node? id with
  | none => simp [term, node, label?, hn]
  | some n =>
      simp [term, label?, Node.label, node_eq_ok_iff.2 hn, hn, inputsOf_of_node? hn, Node.isScalar]

theorem exists_label_of_term {g : Graph} {id : NodeId} {t : Term} (h : g.term id = .ok t) :
    ∃ l, g.label? id = some l ∧ l.kind.term id l.valueType (g.inputsOf id) = .ok t := by
  rw [term_eq] at h
  split at h
  · cases h
  · rename_i l hl
    split at h
    · exact ⟨l, hl, h⟩
    · cases h

theorem inputs_of_term {g : Graph} {id : NodeId} {call : Application} {type : ValueType}
    (h : g.term id = .ok (.apply call type)) : call.inputs = g.inputsOf id := by
  obtain ⟨l, -, ht⟩ := exists_label_of_term h
  exact (NodeKind.term_eq_apply ht).1

theorem holds_of_term {g : Graph} {id c : NodeId} {call : Application} {type : ValueType}
    (h : g.term id = .ok (.apply call type)) (hc : c ∈ call.inputs) : g.Holds id c := by
  show c ∈ g.inputsOf id
  rw [← inputs_of_term h]
  exact hc

theorem Reads.unique {g : Graph} {id : NodeId} {r r' : Except EvalError Expr}
    (h : g.Reads id r) (h' : g.Reads id r') : r = r' := by
  induction h generalizing r' with
  | fault ht =>
      cases h' with
      | fault ht' | constant ht' | unary ht' | binary ht' => simp_all
  | constant ht =>
      cases h' with
      | fault ht' | constant ht' | unary ht' | binary ht' => simp_all
  | unary ht _ ih =>
      cases h' with
      | fault ht' | constant ht' | binary ht' => simp_all
      | unary ht' hx =>
          rw [ht] at ht'
          cases ht'
          rw [ih hx]
  | binary ht _ _ ihl ihr =>
      cases h' with
      | fault ht' | constant ht' | unary ht' => simp_all
      | binary ht' hl hr =>
          rw [ht] at ht'
          cases ht'
          rw [ihl hl, ihr hr]

theorem Reads.exists_term {g : Graph} {id : NodeId} {e : Expr} (h : g.Reads id (.ok e)) :
    ∃ t, g.term id = .ok t := by
  cases ht : g.term id with
  | error err => cases h.unique (.fault ht)
  | ok t => exact ⟨t, rfl⟩

theorem Reads.of_unary {g : Graph} {id x : NodeId} {op : UnaryOp} {type : ValueType} {e : Expr}
    (h : g.Reads id (.ok e)) (ht : g.term id = .ok (.apply (.unary op x) type)) :
    ∃ ex, e = .unary op ex type ∧ g.Reads x (.ok ex) := by
  generalize hr : (Except.ok e : Except EvalError Expr) = r at h
  cases h with
  | fault ht' | constant ht' | binary ht' => simp_all
  | @unary _ x' op' type' a ht' hx =>
      rw [ht] at ht'
      cases ht'
      cases a with
      | error err => cases hr
      | ok ex =>
          cases hr
          exact ⟨ex, rfl, hx⟩

theorem Reads.of_binary {g : Graph} {id l r : NodeId} {op : BinaryOp} {type : ValueType} {e : Expr}
    (h : g.Reads id (.ok e)) (ht : g.term id = .ok (.apply (.binary op l r) type)) :
    ∃ el er, e = .binary op el er type ∧ g.Reads l (.ok el) ∧ g.Reads r (.ok er) := by
  generalize hr : (Except.ok e : Except EvalError Expr) = r at h
  cases h with
  | fault ht' | constant ht' | unary ht' => simp_all
  | @binary _ l' r' op' type' a b ht' hl' hr' =>
      rw [ht] at ht'
      cases ht'
      cases a with
      | error err => cases hr
      | ok el =>
          cases b with
          | error err => cases hr
          | ok er =>
              cases hr
              exact ⟨el, er, rfl, hl', hr'⟩

theorem exists_reads {g : Graph} {id : NodeId} (h : g.Grounded id) : ∃ r, g.Reads id r := by
  induction h with
  | intro id _ ih =>
      cases ht : g.term id with
      | error e => exact ⟨_, .fault ht⟩
      | ok t =>
          cases t with
          | constant v => exact ⟨_, .constant ht⟩
          | apply call type =>
              have hin : ∀ x ∈ call.inputs, ∃ r, g.Reads x r := fun x hx =>
                ih x (holds_of_term ht hx)
              cases call with
              | unary op x =>
                  obtain ⟨a, ha⟩ := hin x (by simp [Application.inputs])
                  exact ⟨_, .unary ht ha⟩
              | binary op l r =>
                  obtain ⟨a, ha⟩ := hin l (by simp [Application.inputs])
                  obtain ⟨b, hb⟩ := hin r (by simp [Application.inputs])
                  exact ⟨_, .binary ht ha hb⟩

/-- The value of one node needs the value of another one. -/
def Needs (g : Graph) (id x : NodeId) : Prop :=
  ∃ call type, g.term id = .ok (.apply call type) ∧ x ∈ call.inputs

/-- A node that reads somehow does not need itself. -/
theorem Reads.not_needs_self {g : Graph} {id : NodeId} {r : Except EvalError Expr}
    (h : g.Reads id r) : ¬ Relation.TransGen g.Needs id id := by
  have step : ∀ {id : NodeId}, (∀ x, g.Needs id x → ¬ Relation.TransGen g.Needs x x) →
      ¬ Relation.TransGen g.Needs id id := by
    intro id hin hcycle
    obtain ⟨x, hx, hback⟩ := Relation.TransGen.head'_iff.1 hcycle
    exact hin x hx (Relation.TransGen.trans_right hback (Relation.TransGen.single hx))
  induction h with
  | fault ht | constant ht =>
      refine step ?_
      rintro x ⟨call, type, ht', _⟩
      rw [ht] at ht'
      cases ht'
  | unary ht _ ih =>
      refine step ?_
      rintro x ⟨call, type, ht', hx⟩
      rw [ht] at ht'
      cases ht'
      simp only [Application.inputs, List.mem_singleton] at hx
      exact hx ▸ ih
  | binary ht _ _ ihl ihr =>
      refine step ?_
      rintro x ⟨call, type, ht', hx⟩
      rw [ht] at ht'
      cases ht'
      simp only [Application.inputs, List.mem_cons, List.not_mem_nil, or_false] at hx
      rcases hx with rfl | rfl
      · exact ihl
      · exact ihr

end Graph

end OpGraph
