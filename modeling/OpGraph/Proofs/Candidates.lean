import OpGraph.Pass.Folding
import OpGraph.Proofs.Execute
import OpGraph.Proofs.Substitution

/-!
# What constant folding says about one node

Constant folding looks at a node as a literal, as a cast of a value, as a scalar
operator with two inputs, or as nothing that it could fold (`Form`). What it says
about the node is a matter of its form and of the literals among its inputs
(`Graph.outcome`): the evaluator is asked about a node whose inputs are all
literals, and the interpreter then finds what the operator computes on them,
converted to the declared type. `Folding.node_verdict` puts this together.

Converting the result once more, as folding does when it makes the literal,
changes nothing. An operator that declares no type is not folded.
-/

namespace OpGraph

/-- What folding sees of a node. -/
inductive Form where
  | literal (value : Value)
  | cast (op : UnaryOp) (input : NodeId) (type : ValueType)
  | binary (op : BinaryOp) (left right : NodeId) (type : ValueType)
  | other
deriving DecidableEq

namespace Label

/-- The form of a node, from its label and its inputs. -/
def form (l : Label) (inputs : List NodeId) : Form :=
  match l.kind with
  | .literal v => .literal v
  | .unary op =>
      match inputs with
      | [x] => if l.dataType = .scalar ∧ op.isValueCast then .cast op x l.valueType else .other
      | _ => .other
  | .binary op =>
      match inputs with
      | [x, y] =>
          if l.dataType = .scalar ∧ ¬ op.isStructural then .binary op x y l.valueType else .other
      | _ => .other
  | .data _ _ => .other

/-- The value of a literal, whatever its shape. -/
def literal? (l : Label) : Option Value :=
  match l.kind with
  | .literal v => some v
  | _ => none

theorem form_eq_literal_iff {l : Label} {inputs : List NodeId} {v : Value} :
    l.form inputs = .literal v ↔ l.literal? = some v := by
  unfold form literal?
  cases l.kind with
  | literal w => simp
  | data a var => simp
  | unary op =>
      simp only [reduceCtorEq, iff_false]
      repeat' split
      all_goals simp
  | binary op =>
      simp only [reduceCtorEq, iff_false]
      repeat' split
      all_goals simp

theorem form_eq_cast {l : Label} {inputs : List NodeId} {op : UnaryOp} {x : NodeId}
    {type : ValueType} (h : l.form inputs = .cast op x type) :
    l = ⟨.unary op, type, .scalar⟩ ∧ inputs = [x] ∧ op.isValueCast = true := by
  rcases l with ⟨kind, valueType, dataType⟩
  cases kind with
  | literal v => cases h
  | data a var => cases h
  | unary op' =>
      simp only [form] at h
      split at h
      · split at h
        · rename_i hcast
          cases h
          exact ⟨by rw [hcast.1], rfl, hcast.2⟩
        · cases h
      · cases h
  | binary op' =>
      simp only [form] at h
      split at h
      · split at h <;> cases h
      · cases h

theorem form_eq_binary {l : Label} {inputs : List NodeId} {op : BinaryOp} {x y : NodeId}
    {type : ValueType} (h : l.form inputs = .binary op x y type) :
    l = ⟨.binary op, type, .scalar⟩ ∧ inputs = [x, y] ∧ op.isStructural = false := by
  rcases l with ⟨kind, valueType, dataType⟩
  cases kind with
  | literal v => cases h
  | data a var => cases h
  | unary op' =>
      simp only [form] at h
      split at h
      · split at h <;> cases h
      · cases h
  | binary op' =>
      simp only [form] at h
      split at h
      · split at h
        · rename_i hop
          cases h
          exact ⟨by rw [hop.1], rfl, by simpa using hop.2⟩
        · cases h
      · cases h

end Label

def Form.map (f : NodeId → NodeId) : Form → Form
  | literal v => literal v
  | cast op x type => cast op (f x) type
  | binary op l r type => binary op (f l) (f r) type
  | other => other

theorem Label.form_map (l : Label) (inputs : List NodeId) (f : NodeId → NodeId) :
    l.form (inputs.map f) = (l.form inputs).map f := by
  unfold Label.form
  cases l.kind with
  | literal v => rfl
  | data a var => rfl
  | unary op =>
      rcases inputs with _ | ⟨x, _ | ⟨y, rest⟩⟩
      · rfl
      · simp only [List.map_cons, List.map_nil]
        split <;> rfl
      · rfl
  | binary op =>
      rcases inputs with _ | ⟨x, _ | ⟨y, _ | ⟨z, rest⟩⟩⟩
      · rfl
      · rfl
      · simp only [List.map_cons, List.map_nil]
        split <;> rfl
      · rfl

namespace Graph

def form (g : Graph) (id : NodeId) : Form :=
  match g.label? id with
  | some l => l.form (g.inputsOf id)
  | none => .other

@[inherit_doc Label.literal?]
def literalAt? (g : Graph) (id : NodeId) : Option Value := (g.label? id).bind Label.literal?

def scalarAt (g : Graph) (id : NodeId) : Bool := (g.label? id).any fun l => l.dataType == .scalar

/-- Whether a node is declared to be a truth value. -/
def predicateAt (g : Graph) (id : NodeId) : Bool :=
  (g.label? id).any fun l => l.dataType == .scalar && l.valueType == .boolean

theorem form_eq_literal_iff {g : Graph} {id : NodeId} {v : Value} :
    g.form id = .literal v ↔ g.literalAt? id = some v := by
  unfold form literalAt?
  cases g.label? id with
  | none => simp
  | some l => exact Label.form_eq_literal_iff

theorem literalAt?_eq_none {g : Graph} {id : NodeId} (h : ∀ v, g.form id ≠ .literal v) :
    g.literalAt? id = none := by
  cases hlit : g.literalAt? id with
  | none => rfl
  | some v => exact absurd (form_eq_literal_iff.2 hlit) (h v)

theorem literalAt?_of_label {g : Graph} {id : NodeId} {v : Value}
    (h : g.label? id = some (.literal v)) : g.literalAt? id = some v := by
  rw [literalAt?, h]
  rfl

theorem literalAt?_of_node? {g : Graph} {id : NodeId} {n : Node} (hn : g.node? id = some n) :
    g.literalAt? id = n.literal? := by
  rw [literalAt?, label?_of_node? hn]
  rfl

theorem isLiteral_eq (g : Graph) (id : NodeId) : g.isLiteral id = (g.literalAt? id).isSome := by
  unfold isLiteral
  cases hn : g.node? id with
  | none => simp [literalAt?, label?, hn]
  | some n =>
      rw [literalAt?_of_node? hn]
      rfl

theorem form_eq_cast {g : Graph} {id x : NodeId} {op : UnaryOp} {type : ValueType}
    (h : g.form id = .cast op x type) :
    g.label? id = some ⟨.unary op, type, .scalar⟩ ∧ g.inputsOf id = [x] ∧
      op.isValueCast = true := by
  unfold form at h
  split at h
  · rename_i l hl
    obtain ⟨rfl, hinputs, hcast⟩ := Label.form_eq_cast h
    exact ⟨hl, hinputs, hcast⟩
  · cases h

theorem form_eq_binary {g : Graph} {id l r : NodeId} {op : BinaryOp} {type : ValueType}
    (h : g.form id = .binary op l r type) :
    g.label? id = some ⟨.binary op, type, .scalar⟩ ∧ g.inputsOf id = [l, r] ∧
      op.isStructural = false := by
  unfold form at h
  split at h
  · rename_i l hl
    obtain ⟨rfl, hinputs, hop⟩ := Label.form_eq_binary h
    exact ⟨hl, hinputs, hop⟩
  · cases h

theorem term_of_cast {g : Graph} {id x : NodeId} {op : UnaryOp} {type : ValueType}
    (h : g.form id = .cast op x type) : g.term id = .ok (.apply (.unary op x) type) := by
  obtain ⟨hlabel, hinputs, -⟩ := form_eq_cast h
  rw [term_eq, hlabel, hinputs]
  rfl

theorem term_of_binary {g : Graph} {id l r : NodeId} {op : BinaryOp} {type : ValueType}
    (h : g.form id = .binary op l r type) : g.term id = .ok (.apply (.binary op l r) type) := by
  obtain ⟨hlabel, hinputs, hop⟩ := form_eq_binary h
  rw [term_eq, hlabel, hinputs]
  simp [NodeKind.term, hop]

theorem scalarAt_of_term {g : Graph} {id : NodeId} {t : Term} (h : g.term id = .ok t) :
    g.scalarAt id = true := by
  rw [term_eq] at h
  split at h
  · cases h
  · rename_i l hl
    split at h
    · rename_i hscalar
      simp [scalarAt, hl, hscalar]
    · cases h

theorem Reads.scalarAt {g : Graph} {id : NodeId} {e : Expr} (h : g.Reads id (.ok e)) :
    g.scalarAt id = true := by
  obtain ⟨t, ht⟩ := h.exists_term
  exact scalarAt_of_term ht

/-- A literal is read as its value if it is a scalar. -/
theorem term_of_literal {g : Graph} {id : NodeId} {v : Value} (h : g.literalAt? id = some v) :
    (g.scalarAt id = true ∧ g.term id = .ok (.constant v)) ∨
      (g.scalarAt id = false ∧ ∃ e, g.term id = .error e) := by
  unfold literalAt? at h
  rw [term_eq, scalarAt]
  cases hl : g.label? id with
  | none => simp [hl] at h
  | some l =>
      rcases l with ⟨kind, valueType, dataType⟩
      rw [hl, Option.bind_some] at h
      cases kind with
      | unary op | binary op | data a var => cases h
      | literal w =>
          cases h
          by_cases hscalar : dataType = .scalar
          · refine .inl ⟨by simp [hscalar], ?_⟩
            simp [hscalar, NodeKind.term]
          · exact .inr ⟨by simp [hscalar], _, if_neg hscalar⟩

theorem term_of_scalar_literal {g : Graph} {id : NodeId} {v : Value}
    (hform : g.form id = .literal v) (hscalar : g.scalarAt id = true) :
    g.term id = .ok (.constant v) := by
  rcases term_of_literal (form_eq_literal_iff.1 hform) with ⟨-, hterm⟩ | ⟨hnot, -⟩
  · exact hterm
  · rw [hscalar] at hnot
    cases hnot

theorem exists_reads_literal {g : Graph} {id : NodeId} {v : Value}
    (h : g.literalAt? id = some v) : ∃ r, g.Reads id r := by
  rcases term_of_literal h with ⟨-, hterm⟩ | ⟨-, e, hterm⟩
  · exact ⟨_, .constant hterm⟩
  · exact ⟨_, .fault hterm⟩

/-! ## Candidates -/

/-- Whether one operand decides an operator, given what the two operands are as
literals. -/
def absorption (g : Graph) (op : BinaryOp) (l r : NodeId) : Candidate :=
  match op.absorbing? with
  | none => .leave
  | some b =>
      if (g.literalAt? l = some (.boolean b) ∧ g.predicateAt r) ∨
          (g.literalAt? r = some (.boolean b) ∧ g.predicateAt l) then .absorb b
      else .leave

theorem isBoolean_iff {g : Graph} {id : NodeId} {n : Node} (hn : g.node? id = some n) (b : Bool) :
    n.isBoolean b = true ↔ g.literalAt? id = some (.boolean b) := by
  rw [literalAt?_of_node? hn, Node.isBoolean, beq_iff_eq]
  cases n.literal? with
  | none => simp
  | some v => cases v <;> simp [Value.boolean?]

theorem isPredicate_eq {g : Graph} {id : NodeId} {n : Node} (hn : g.node? id = some n) :
    n.isPredicate = g.predicateAt id := by
  rw [predicateAt, label?_of_node? hn]
  rfl

theorem absorbed_eq {g : Graph} {op : BinaryOp} {l r : NodeId} (hl : l < g.size) (hr : r < g.size) :
    g.absorbed op l r = .ok (g.absorption op l r) := by
  obtain ⟨x, hx⟩ := exists_node? hl
  obtain ⟨y, hy⟩ := exists_node? hr
  unfold absorbed absorption
  cases op.absorbing? with
  | none => rfl
  | some b =>
      have hcond : (x.isBoolean b && y.isPredicate || y.isBoolean b && x.isPredicate) = true ↔
          (g.literalAt? l = some (.boolean b) ∧ g.predicateAt r) ∨
            (g.literalAt? r = some (.boolean b) ∧ g.predicateAt l) := by
        rw [Bool.or_eq_true, Bool.and_eq_true, Bool.and_eq_true, isBoolean_iff hx, isBoolean_iff hy,
          isPredicate_eq hx, isPredicate_eq hy]
      simp only [node_eq_ok_iff.2 hx, node_eq_ok_iff.2 hy]
      change (if _ then _ else _) = _
      simp only [hcond]
      split <;> rfl

theorem bothLiteral_eq {g : Graph} {l r : NodeId} (hl : l < g.size) (hr : r < g.size) :
    g.bothLiteral l r = .ok ((g.literalAt? l).isSome && (g.literalAt? r).isSome) := by
  obtain ⟨x, hx⟩ := exists_node? hl
  obtain ⟨y, hy⟩ := exists_node? hr
  unfold bothLiteral
  rw [node_eq_ok_iff.2 hx, node_eq_ok_iff.2 hy, literalAt?_of_node? hx, literalAt?_of_node? hy]
  change (if x.isLiteral then _ else _) = _
  unfold Node.isLiteral
  cases x.literal? <;> rfl

def formCandidate (g : Graph) (predicates : Bool) : Form → Candidate
  | .cast _ x type => if (g.literalAt? x).isSome then .evaluate false type else .leave
  | .binary op l r type =>
      if (g.literalAt? l).isSome && (g.literalAt? r).isSome then .evaluate true type
      else if predicates then g.absorption op l r
      else .leave
  | _ => .leave

theorem unaryCandidate_eq {g : Graph} {op : UnaryOp} {type : ValueType} {x : NodeId}
    (hx : x < g.size) (predicates : Bool) : g.unaryCandidate op type x =
      .ok (if op.isValueCast then g.formCandidate predicates (.cast op x type) else .leave) := by
  obtain ⟨n, hn⟩ := exists_node? hx
  rw [unaryCandidate, formCandidate, node_eq_ok_iff.2 hn, literalAt?_of_node? hn]
  cases op.isValueCast with
  | false => rfl
  | true =>
      change (if n.isLiteral then _ else _) = _
      unfold Node.isLiteral
      cases n.literal? <;> rfl

theorem binaryCandidate_eq {g : Graph} {predicates : Bool} {op : BinaryOp} {type : ValueType}
    {l r : NodeId} (hl : l < g.size) (hr : r < g.size) :
    g.binaryCandidate predicates op type l r =
      .ok (if op.isStructural then .leave else g.formCandidate predicates (.binary op l r type)) := by
  rw [binaryCandidate, formCandidate, bothLiteral_eq hl hr, absorbed_eq hl hr]
  cases op.isStructural with
  | true => rfl
  | false =>
      cases (g.literalAt? l).isSome && (g.literalAt? r).isSome with
      | true => rfl
      | false => cases predicates <;> rfl

/-- Only missing nodes are found wrong. -/
theorem candidate_of_inputs {g : Graph} {id : NodeId} (hid : id < g.size)
    (hinputs : ∀ c ∈ g.inputsOf id, c < g.size) (predicates : Bool) :
    g.candidate predicates id = .ok (g.formCandidate predicates (g.form id)) := by
  obtain ⟨n, hn⟩ := exists_node? hid
  rw [inputsOf_of_node? hn] at hinputs
  unfold candidate form
  rw [node_eq_ok_iff.2 hn, label?_of_node? hn, inputsOf_of_node? hn]
  rcases n with ⟨kind, valueType, dataType, inputs, parents, visited⟩
  simp only at hinputs
  by_cases hscalar : dataType = .scalar
  · subst hscalar
    cases kind with
    | literal v => rfl
    | data a var => rfl
    | unary op =>
        rcases inputs with _ | ⟨x, _ | ⟨y, rest⟩⟩
        · rfl
        · change g.unaryCandidate op valueType x = _
          rw [unaryCandidate_eq (hinputs x (by simp)) predicates]
          cases hop : op.isValueCast <;> simp [Node.label, Label.form, hop, formCandidate]
        · rfl
    | binary op =>
        rcases inputs with _ | ⟨l, _ | ⟨r, _ | ⟨z, rest⟩⟩⟩
        · rfl
        · rfl
        · change g.binaryCandidate predicates op valueType l r = _
          rw [binaryCandidate_eq (hinputs l (by simp)) (hinputs r (by simp))]
          cases hop : op.isStructural <;> simp [Node.label, Label.form, hop, formCandidate]
        · rfl
  · -- A node that is no scalar is left alone, literal or not.
    have hleave : g.formCandidate predicates (Label.form ⟨kind, valueType, dataType⟩ inputs) =
        .leave := by
      cases hform : Label.form ⟨kind, valueType, dataType⟩ inputs with
      | literal v => rfl
      | other => rfl
      | cast op x type =>
          obtain ⟨hlabel, -⟩ := Label.form_eq_cast hform
          exact absurd (congrArg Label.dataType hlabel) hscalar
      | binary op l r type =>
          obtain ⟨hlabel, -⟩ := Label.form_eq_binary hform
          exact absurd (congrArg Label.dataType hlabel) hscalar
    have hnot : (Node.mk kind valueType dataType inputs parents visited).isScalar = false := by
      simp [Node.isScalar, hscalar]
    change (if _ then _ else _) = Except.ok (g.formCandidate predicates (Label.form _ inputs))
    rw [Node.label, hleave, hnot]
    rfl

theorem candidate_eq {g : Graph} (hg : g.Balanced) {id : NodeId} (hid : id < g.size)
    (predicates : Bool) :
    g.candidate predicates id = .ok (g.formCandidate predicates (g.form id)) :=
  candidate_of_inputs hid (fun _ hc => hg.input_lt hc) predicates

end Graph

/-! ## Outcomes -/

/-- A value that has the declared type already is converted to itself. -/
theorem Value.coerce_idem {type : ValueType} {v w : Value} (h : v.coerce type = .ok w) :
    w.coerce type = .ok w := by
  cases type with
  | double | int | boolean =>
      simp only [Value.coerce, Except.map] at h
      split at h
      · cases h
      · cases h
        rfl
  | string =>
      cases h
      rfl
  | unknown => rfl

/-- The literal that a cast with a declared type folds to on a value. -/
def UnaryOp.folded (op : UnaryOp) (type : ValueType) (a : Value) : Option Value :=
  if type = .unknown then none else (op.result type a).toOption

/-- The literal that an operator with a declared type folds to on two values. -/
def BinaryOp.folded (op : BinaryOp) (type : ValueType) (a b : Value) : Option Value :=
  if type = .unknown then none else (op.result type a b).toOption

/-- Making a literal of a converted value does nothing but ask for a type. -/
theorem toOption_bind_toLiteral {type : ValueType} (x : Except EvalError Value) :
    ((x.bind (Value.coerce type)).bind (Value.toLiteral type)).toOption =
      if type = .unknown then none else (x.bind (Value.coerce type)).toOption := by
  cases hx : x.bind (Value.coerce type) with
  | error e =>
      split <;> rfl
  | ok w =>
      have hw : w.coerce type = .ok w := by
        cases x with
        | error e => cases hx
        | ok v => exact Value.coerce_idem hx
      change (Value.toLiteral type w).toOption = _
      unfold Value.toLiteral
      split
      · rfl
      · rw [hw]

namespace Graph

/-- What a cast becomes, if its input is or becomes the given literal. -/
def castOutcome (g : Graph) (op : UnaryOp) (type : ValueType) (x : NodeId) (o : Option Value) :
    Option Value :=
  o.bind fun a => if g.scalarAt x then op.folded type a else none

/-- What an operator becomes, if its inputs are or become the given literals. An
input that is no literal counts when the other one decides the operator. -/
def binaryOutcome (g : Graph) (predicates : Bool) (op : BinaryOp) (type : ValueType)
    (l r : NodeId) : Option Value → Option Value → Option Value
  | some a, some b => if g.scalarAt l ∧ g.scalarAt r then op.folded type a b else none
  | some a, none =>
      if predicates ∧ op.absorbing?.map .boolean = some a ∧ g.predicateAt r then some a else none
  | none, some b =>
      if predicates ∧ op.absorbing?.map .boolean = some b ∧ g.predicateAt l then some b else none
  | none, none => none

/-- What folding makes of a node as the graph is. -/
def outcome (g : Graph) (predicates : Bool) (id : NodeId) : Option Value :=
  match g.form id with
  | .cast op x type => g.castOutcome op type x (g.literalAt? x)
  | .binary op l r type =>
      g.binaryOutcome predicates op type l r (g.literalAt? l) (g.literalAt? r)
  | _ => none

end Graph

namespace Folding

variable {σ : Type} {g : Graph} {id : NodeId}

/-- What the rule answers about a candidate, given the literal that the evaluator
finds for each type. -/
def answer (result : ValueType → Except EvalError Value) : Candidate → Verdict
  | .leave => .keep
  | .absorb b => .literal (.boolean b)
  | .evaluate _ type => (result type).toOption.elim .keep .literal

theorem node_of_candidate {predicates : Bool} {c : Candidate}
    (h : g.candidate predicates id = .ok c) (evaluate : Evaluator σ) (t : Tally) (m : σ) :
    (node evaluate predicates g id t m).1 =
      .ok (answer (fun type => (literal evaluate g id type m).1) c) := by
  unfold node
  rw [h]
  cases c with
  | leave => rfl
  | absorb b => rfl
  | evaluate b type =>
      simp only [answer]
      rcases literal evaluate g id type m with ⟨result, m'⟩
      cases result <;> rfl

/-- On balanced edges the rule never finds anything wrong. -/
theorem putsLiterals (evaluate : Evaluator σ) (predicates : Bool) :
    Pass.PutsLiterals (node evaluate predicates) := by
  intro g id t m hg hid
  rw [node_of_candidate (Graph.candidate_eq hg hid predicates)]
  cases g.formCandidate predicates (g.form id) with
  | leave => exact .inl rfl
  | absorb b => exact .inr ⟨_, rfl⟩
  | evaluate b type =>
      simp only [answer]
      cases (literal evaluate g id type m).1 with
      | error e => exact .inl rfl
      | ok v => exact .inr ⟨v, rfl⟩

theorem literal_fst {r : Except EvalError Expr} (h : g.Reads id r) (type : ValueType)
    (m : Interpreter) : (literal Interpreter.evaluate g id type m).1 =
      (r.bind Expr.value).bind (Value.toLiteral type) := by
  rw [← h.evaluate m]
  unfold literal
  rcases Interpreter.evaluate g id m with ⟨result, m'⟩
  cases result <;> rfl

/-- The interpreter finds for a cast of a literal what the cast folds to. -/
theorem literal_cast {op : UnaryOp} {x : NodeId} {type : ValueType} {a : Value}
    (hform : g.form id = .cast op x type) (ha : g.literalAt? x = some a) (m : Interpreter) :
    (literal Interpreter.evaluate g id type m).1.toOption = g.castOutcome op type x (some a) := by
  have hterm := Graph.term_of_cast hform
  rcases Graph.term_of_literal ha with ⟨hscalar, hx⟩ | ⟨hscalar, e, hx⟩
  · rw [literal_fst (.unary hterm (.constant hx)), Graph.castOutcome, Option.bind_some,
      if_pos hscalar]
    exact toOption_bind_toLiteral (applyUnary op a)
  · rw [literal_fst (.unary hterm (.fault hx)), Graph.castOutcome, Option.bind_some,
      if_neg (by simp [hscalar])]
    rfl

theorem literal_binary {op : BinaryOp} {l r : NodeId} {type : ValueType} {a b : Value}
    (hform : g.form id = .binary op l r type) (ha : g.literalAt? l = some a)
    (hb : g.literalAt? r = some b) (predicates : Bool) (m : Interpreter) :
    (literal Interpreter.evaluate g id type m).1.toOption =
      g.binaryOutcome predicates op type l r (some a) (some b) := by
  have hterm := Graph.term_of_binary hform
  rw [Graph.binaryOutcome]
  rcases Graph.term_of_literal ha with ⟨hl, hreadl⟩ | ⟨hl, e, hreadl⟩
  · rcases Graph.term_of_literal hb with ⟨hr, hreadr⟩ | ⟨hr, e, hreadr⟩
    · rw [literal_fst (.binary hterm (.constant hreadl) (.constant hreadr)), if_pos ⟨hl, hr⟩]
      exact toOption_bind_toLiteral (applyBinary op a b)
    · rw [literal_fst (.binary hterm (.constant hreadl) (.fault hreadr)), if_neg (by simp [hr])]
      rfl
  · obtain ⟨x, hx⟩ := Graph.exists_reads_literal hb
    rw [literal_fst (.binary hterm (.fault hreadl) hx), if_neg (by simp [hl])]
    rfl

/-- An operator on at most one literal is decided by that literal or left. -/
theorem answer_absorption (g : Graph) (predicates : Bool) (op : BinaryOp) (type : ValueType)
    (l r : NodeId) (result : ValueType → Except EvalError Value)
    (hnot : ¬ ((g.literalAt? l).isSome && (g.literalAt? r).isSome) = true) :
    answer result (if predicates then g.absorption op l r else .leave) =
      (g.binaryOutcome predicates op type l r (g.literalAt? l) (g.literalAt? r)).elim .keep
        .literal := by
  cases predicates with
  | false =>
      cases ha : g.literalAt? l <;> cases hb : g.literalAt? r <;>
        simp_all [Graph.binaryOutcome, answer]
  | true =>
      rw [if_pos rfl, Graph.absorption]
      cases hop : op.absorbing? with
      | none =>
          cases ha : g.literalAt? l <;> cases hb : g.literalAt? r <;>
            simp_all [Graph.binaryOutcome, answer]
      | some b =>
          cases ha : g.literalAt? l with
          | none =>
              cases hb : g.literalAt? r with
              | none => simp [Graph.binaryOutcome, answer]
              | some w =>
                  simp only [reduceCtorEq, false_and, false_or, Option.some.injEq, hop,
                    Graph.binaryOutcome, Option.map_some, true_and, eq_comm (a := w)]
                  split
                  · rename_i h
                    rw [← h.1]
                    rfl
                  · rfl
          | some v =>
              cases hb : g.literalAt? r with
              | some w => simp [ha, hb] at hnot
              | none =>
                  simp only [reduceCtorEq, false_and, or_false, Option.some.injEq, hop,
                    Graph.binaryOutcome, Option.map_some, true_and, eq_comm (a := v)]
                  split
                  · rename_i h
                    rw [← h.1]
                    rfl
                  · rfl

/-- What the rule says about a node with the interpreter. -/
theorem node_verdict_of_inputs (hid : id < g.size) (hinputs : ∀ c ∈ g.inputsOf id, c < g.size)
    (predicates : Bool) (t : Tally) (m : Interpreter) :
    (node Interpreter.evaluate predicates g id t m).1 =
      .ok ((g.outcome predicates id).elim .keep .literal) := by
  rw [node_of_candidate (Graph.candidate_of_inputs hid hinputs predicates), Graph.outcome]
  cases hform : g.form id with
  | literal v => rfl
  | other => rfl
  | cast op x type =>
      simp only [Graph.formCandidate]
      cases ha : g.literalAt? x with
      | none => rfl
      | some a =>
          rw [← literal_cast hform ha m]
          rfl
  | binary op l r type =>
      simp only [Graph.formCandidate]
      by_cases hboth : ((g.literalAt? l).isSome && (g.literalAt? r).isSome) = true
      · rw [if_pos hboth]
        obtain ⟨hl, hr⟩ := Bool.and_eq_true_iff.1 hboth
        obtain ⟨a, ha⟩ := Option.isSome_iff_exists.1 hl
        obtain ⟨b, hb⟩ := Option.isSome_iff_exists.1 hr
        rw [ha, hb, ← literal_binary hform ha hb predicates m]
        rfl
      · rw [if_neg hboth, answer_absorption g predicates op type l r _ hboth]

theorem node_verdict (hg : g.Balanced) (hid : id < g.size) (predicates : Bool) (t : Tally)
    (m : Interpreter) : (node Interpreter.evaluate predicates g id t m).1 =
      .ok ((g.outcome predicates id).elim .keep .literal) :=
  node_verdict_of_inputs hid (fun _ hc => hg.input_lt hc) predicates t m

end Folding

end OpGraph
