import OpGraph.Proofs.Execute

/-!
# The value of a node

`Graph.Denotes` gives the value of a scalar node by recursion on the graph, with
no compiler and no machine: a literal is its value, a read of a live variable is
what the variable holds, a write is its input, and an operator is applied to the
values of its inputs, the left one first, and its result converted to the declared
type. Errors are passed on. What the live variables hold is a parameter.

The second half compares this with an interpreter. Code is made only of nodes
that lie above nothing but literals (`Graph.reads_of_compile`), so for a node that
compiles the parameter does not matter: the node has one value or one error, and
that is what an interpreter answers, whatever it was asked before
(`Interpreter.evaluate_denotes`). The only trace of earlier requests is their
number.
-/

namespace OpGraph

/-- What a read of a live variable gives, by the name of the variable and the type
that the read declares. -/
abbrev Live := String → ValueType → Except EvalError Value

namespace Graph

/-- The value of a scalar node, or the first error on the way to it. A node of
another shape, or with the wrong number of inputs, has neither. -/
inductive Denotes (g : Graph) (live : Live) : NodeId → Except EvalError Value → Prop
  | literal {id : NodeId} {v : Value} {type : ValueType} :
      g.label? id = some ⟨.literal v, type, .scalar⟩ → Denotes g live id (.ok v)
  | read {id : NodeId} {var : String} {type : ValueType} :
      g.label? id = some ⟨.data .read var, type, .scalar⟩ → Denotes g live id (live var type)
  | write {id x : NodeId} {var : String} {type : ValueType} {a : Except EvalError Value} :
      g.label? id = some ⟨.data .write var, type, .scalar⟩ → g.inputsOf id = [x] →
      Denotes g live x a → Denotes g live id a
  | unary {id x : NodeId} {op : UnaryOp} {type : ValueType} {a : Except EvalError Value} :
      g.label? id = some ⟨.unary op, type, .scalar⟩ → g.inputsOf id = [x] →
      Denotes g live x a → Denotes g live id (a.bind (op.result type))
  | binary {id l r : NodeId} {op : BinaryOp} {type : ValueType} {a b : Except EvalError Value} :
      g.label? id = some ⟨.binary op, type, .scalar⟩ → g.inputsOf id = [l, r] →
      Denotes g live l a → Denotes g live r b →
      Denotes g live id (a.bind fun x => b.bind (op.result type x))

variable {g : Graph} {live : Live} {id : NodeId}

theorem Denotes.unique {a b : Except EvalError Value} (h : g.Denotes live id a)
    (h' : g.Denotes live id b) : a = b := by
  induction h generalizing b with
  | literal hl =>
      cases h' with
      | literal hl' | read hl' | write hl' | unary hl' | binary hl' => simp_all
  | read hl =>
      cases h' with
      | literal hl' | read hl' | write hl' | unary hl' | binary hl' => simp_all
  | write hl hin _ ih =>
      cases h' with
      | literal hl' | read hl' | unary hl' | binary hl' => simp_all
      | write hl' hin' hx =>
          rw [hin] at hin'
          cases hin'
          exact ih hx
  | unary hl hin _ ih =>
      cases h' with
      | literal hl' | read hl' | write hl' | binary hl' => simp_all
      | unary hl' hin' hx =>
          rw [hl] at hl'
          rw [hin] at hin'
          cases hl'
          cases hin'
          rw [ih hx]
  | binary hl hin _ _ ihl ihr =>
      cases h' with
      | literal hl' | read hl' | write hl' | unary hl' => simp_all
      | binary hl' hin' hx hy =>
          rw [hl] at hl'
          rw [hin] at hin'
          cases hl'
          cases hin'
          rw [ihl hx, ihr hy]

end Graph

/-! ## Nodes that compile -/

def Application.kind : Application → NodeKind
  | unary op _ => .unary op
  | binary op _ _ => .binary op

theorem NodeKind.eq_of_term {kind : NodeKind} {id : NodeId} {type type' : ValueType}
    {inputs : List NodeId} {call : Application}
    (h : kind.term id type inputs = .ok (.apply call type')) : kind = call.kind := by
  cases kind with
  | literal v => cases h
  | data a var => cases h
  | unary op =>
      simp only [NodeKind.term] at h
      split at h
      · cases h
        rfl
      · cases h
  | binary op =>
      simp only [NodeKind.term] at h
      split at h
      · cases h
      · split at h
        · cases h
          rfl
        · cases h

namespace Graph

variable {g : Graph} {live : Live} {id : NodeId}

theorem scalar_of_term {t : Term} (h : g.term id = .ok t) :
    ∃ kind type, g.label? id = some ⟨kind, type, .scalar⟩ ∧
      kind.term id type (g.inputsOf id) = .ok t := by
  rw [term_eq] at h
  split at h
  · cases h
  · next l hl =>
      split at h
      · next hscalar => exact ⟨l.kind, l.valueType, by rw [hl, ← hscalar], h⟩
      · cases h

theorem label_of_constant {v : Value} (h : g.term id = .ok (.constant v)) :
    ∃ type, g.label? id = some ⟨.literal v, type, .scalar⟩ := by
  obtain ⟨kind, type, hl, hkind⟩ := scalar_of_term h
  exact ⟨type, NodeKind.term_eq_constant hkind ▸ hl⟩

theorem label_of_apply {call : Application} {type : ValueType}
    (h : g.term id = .ok (.apply call type)) :
    g.label? id = some ⟨call.kind, type, .scalar⟩ ∧ g.inputsOf id = call.inputs := by
  obtain ⟨kind, type', hl, hkind⟩ := scalar_of_term h
  obtain ⟨hinputs, rfl, -⟩ := NodeKind.term_eq_apply hkind
  exact ⟨NodeKind.eq_of_term hkind ▸ hl, hinputs.symm⟩

/-- The value of an expression is the value of the node that reads as it, and the
live variables play no part. -/
theorem Reads.denotes {r : Except EvalError Expr} (h : g.Reads id r) (live : Live) :
    ∀ e, r = .ok e → g.Denotes live id e.value := by
  induction h with
  | fault ht =>
      intro e he
      cases he
  | constant ht =>
      intro e he
      cases he
      obtain ⟨type, hl⟩ := label_of_constant ht
      exact .literal hl
  | @unary id x op type a ht _ ih =>
      intro e he
      obtain ⟨hl, hin⟩ := label_of_apply ht
      cases a with
      | error err => cases he
      | ok ex =>
          cases he
          exact .unary hl hin (ih ex rfl)
  | @binary id l r op type a b ht _ _ ihl ihr =>
      intro e he
      obtain ⟨hl, hin⟩ := label_of_apply ht
      cases a with
      | error err => cases he
      | ok el =>
          cases b with
          | error err => cases he
          | ok er =>
              cases he
              exact .binary hl hin (ihl el rfl) (ihr er rfl)

theorem exists_reads_of_inputs {call : Application} {type : ValueType}
    (ht : g.term id = .ok (.apply call type))
    (hin : ∀ x ∈ call.inputs, ∃ e, g.Reads x (.ok e)) : ∃ e, g.Reads id (.ok e) := by
  cases call with
  | unary op x =>
      obtain ⟨e, hx⟩ := hin x (by simp [Application.inputs])
      exact ⟨_, .unary ht hx⟩
  | binary op l r =>
      obtain ⟨el, hl⟩ := hin l (by simp [Application.inputs])
      obtain ⟨er, hr⟩ := hin r (by simp [Application.inputs])
      exact ⟨_, .binary ht hl hr⟩

end Graph

namespace Assembly

variable {g : Graph} {a b : Assembly} {id x : NodeId} {call : Application} {type : ValueType}

theorem operand_eq_ok {o : Operand} (h : a.operand id x = .ok o) : a.operand? x = some o := by
  unfold operand at h
  split at h
  · next o' ho =>
      cases h
      exact ho
  · cases h

/-- An instruction is written only when all inputs have operands. -/
theorem operands_of_instruction {out : String} {i : Instruction}
    (h : a.instruction id call type out = .ok i) :
    ∀ x ∈ call.inputs, ∃ o, a.operand? x = some o := by
  cases call with
  | unary op x =>
      obtain ⟨o, ho, -⟩ := exists_of_bind_eq_ok h
      simpa [Application.inputs] using ⟨o, operand_eq_ok ho⟩
  | binary op l r =>
      obtain ⟨o, ho, h⟩ := exists_of_bind_eq_ok h
      obtain ⟨o', ho', -⟩ := exists_of_bind_eq_ok h
      simpa [Application.inputs] using And.intro ⟨o, operand_eq_ok ho⟩ ⟨o', operand_eq_ok ho'⟩

theorem Readable.emit (h : a.Readable g) (ht : g.term id = .ok (.apply call type))
    (hemit : a.emit id call type = .ok b) : b.Readable g := by
  obtain ⟨i, hi, rfl⟩ := emitted_of_emit hemit
  refine h.emitted (Graph.exists_reads_of_inputs ht fun x hx => ?_)
  obtain ⟨o, ho⟩ := operands_of_instruction hi x hx
  exact h x o ho

end Assembly

namespace Graph

variable {g : Graph} {id : NodeId}

/-- Tasks that write an instruction are about operators. -/
def Emits (g : Graph) (tasks : List Task) : Prop :=
  ∀ id call type, Task.emit id call type ∈ tasks → g.term id = .ok (.apply call type)

theorem Emits.tail {t : Task} {rest : List Task} (h : g.Emits (t :: rest)) : g.Emits rest :=
  fun j call type hmem => h j call type (.tail _ hmem)

theorem Emits.expansion {tasks : List Task} {a : Assembly} {call : Application}
    {type : ValueType} (h : g.Emits tasks) (ht : g.term id = .ok (.apply call type)) :
    g.Emits (expansion a id call type ++ tasks) := by
  intro j call' type' hmem
  rw [Graph.expansion, List.append_assoc, List.mem_append, List.mem_append] at hmem
  rcases hmem with hvisit | hself | hrest
  · obtain ⟨x, -, hx⟩ := List.mem_map.1 hvisit
    cases hx
  · rw [List.mem_singleton] at hself
    cases hself
    exact ht
  · exact h j call' type' hrest

theorem assemble_readable {tasks : List Task} {a b : Assembly} (htasks : g.Emits tasks)
    (ha : a.Readable g) (hrun : g.assemble tasks a = .ok b) : b.Readable g := by
  fun_induction g.assemble tasks a with
  | case1 a =>
      cases hrun
      exact ha
  | case2 a id rest ho ih => exact ih htasks.tail ha hrun
  | case3 a id rest ho e ht => cases hrun
  | case4 a id rest ho v ht ih =>
      exact ih htasks.tail (ha.define ⟨_, .constant ht⟩) hrun
  | case5 a id rest ho call type ht hmet => cases hrun
  | case6 a id rest ho call type ht hmet ih =>
      exact ih (htasks.tail.expansion ht) (ha.start (by simpa using ho)) hrun
  | case7 a id call type rest e hemit => cases hrun
  | case8 a id call type rest b hemit ih =>
      have ht := htasks id call type (.head _)
      exact ih htasks.tail (ha.emit ht hemit) hrun

theorem emits_visit (g : Graph) (id : NodeId) : g.Emits [.visit id] := by
  intro j call type hmem
  cases List.mem_singleton.1 hmem

/-- Code comes from an assembly that has an operand for the node. -/
theorem of_compile {out : String} {code : List Instruction} (h : g.compile id out = .ok code) :
    ∃ a o, g.assemble [.visit id] .empty = .ok a ∧ a.operand? id = some o ∧
      code = a.code.toList ++
        .assign o out :: ((List.range a.code.size).map tempName).map .remove := by
  obtain ⟨a, ha, h⟩ := exists_of_bind_eq_ok h
  obtain ⟨o, ho, h⟩ := exists_of_bind_eq_ok h
  cases h
  exact ⟨a, o, ha, Assembly.operand_eq_ok ho, rfl⟩

/-- Code is made only of nodes that read as expressions. -/
theorem reads_of_compile {out : String} {code : List Instruction}
    (h : g.compile id out = .ok code) : ∃ e, g.Reads id (.ok e) := by
  obtain ⟨a, o, ha, ho, -⟩ := of_compile h
  exact assemble_readable (g.emits_visit id) (Assembly.readable_empty g) ha id o ho

/-- Whether a node compiles does not depend on where its value is to go. -/
theorem compile_eq_error {out : String} {e : EvalError} (h : g.compile id out = .error e)
    (out' : String) : g.compile id out' = .error e := by
  rw [Graph.compile] at h ⊢
  cases ha : g.assemble [.visit id] .empty with
  | error e' =>
      rw [ha] at h
      cases h
      rfl
  | ok a =>
      rw [ha] at h
      change (a.operand id id).bind _ = _ at h
      change (a.operand id id).bind _ = _
      cases ho : a.operand id id with
      | error e' =>
          rw [ho] at h
          cases h
          rfl
      | ok o =>
          rw [ho] at h
          cases h

end Graph

namespace Interpreter

/-- An interpreter that was asked about some nodes, one after the other, each of
them in a graph of its own. -/
def after (earlier : List (Graph × NodeId)) : Interpreter :=
  earlier.foldl (fun m q => (evaluate q.1 q.2 m).2) .new

theorem isClean_evaluate {m : Interpreter} (hm : m.isClean = true) (g : Graph) (id : NodeId) :
    (evaluate g id m).2.isClean = true := by
  unfold evaluate
  split
  · exact hm
  · simp [isClean, clear, Env.isEmpty, Env.empty]

theorem evaluations_execute (m : Interpreter) : m.execute.2.evaluations = m.evaluations := by
  unfold execute
  split <;> rfl

theorem evaluations_evaluate (m : Interpreter) (g : Graph) (id : NodeId) :
    (evaluate g id m).2.evaluations = m.evaluations + 1 := by
  unfold evaluate
  split
  · rfl
  · next code hcode => exact evaluations_execute _

theorem isClean_foldl (earlier : List (Graph × NodeId)) {m : Interpreter}
    (hm : m.isClean = true) :
    (earlier.foldl (fun m q => (evaluate q.1 q.2 m).2) m).isClean = true := by
  induction earlier generalizing m with
  | nil => exact hm
  | cons q rest ih => exact ih (isClean_evaluate hm q.1 q.2)

theorem isClean_after (earlier : List (Graph × NodeId)) : (after earlier).isClean = true :=
  isClean_foldl earlier (by simp [isClean, new, Env.isEmpty, Env.empty])

/-- An interpreter answers with the value of the node or with the error on the way
to it, if the node compiles, and otherwise with the reason why it does not. It
holds nothing afterwards, and has counted the request. -/
theorem evaluate_denotes (earlier : List (Graph × NodeId)) (g : Graph) (id : NodeId)
    (out : String) :
    (∀ code, g.compile id out = .ok code →
        ∀ live r, g.Denotes live id r ↔ r = (evaluate g id (after earlier)).1) ∧
      (∀ e, g.compile id out = .error e → (evaluate g id (after earlier)).1 = .error e) ∧
      (evaluate g id (after earlier)).2.isClean = true ∧
      (evaluate g id (after earlier)).2.evaluations = (after earlier).evaluations + 1 := by
  refine ⟨fun code hcode live r => ?_, fun e he => ?_, ?_, ?_⟩
  · obtain ⟨x, hx⟩ := Graph.reads_of_compile hcode
    have hvalue : (evaluate g id (after earlier)).1 = x.value := hx.evaluate (after earlier)
    have hden : g.Denotes live id x.value := hx.denotes live x rfl
    rw [hvalue]
    exact ⟨fun h => h.unique hden, fun h => h ▸ hden⟩
  · rw [evaluate, Graph.compile_eq_error he resultName]
  · exact isClean_evaluate (isClean_after earlier) g id
  · exact evaluations_evaluate (after earlier) g id

/-- The square of `7 + 7`, a quotient `7 %/% 0`, and a variable `n`. -/
def squareAndQuotient : Graph :=
  ⟨#[⟨.literal (.int 7), .int, .scalar, [], [1, 1, 4], false⟩,
    ⟨.binary .plus, .int, .scalar, [0, 0], [2, 2], false⟩,
    ⟨.binary .times, .int, .scalar, [1, 1], [], false⟩,
    ⟨.literal (.int 0), .int, .scalar, [], [4], false⟩,
    ⟨.binary .intDivide, .int, .scalar, [0, 3], [], false⟩,
    ⟨.data .read "n", .int, .scalar, [], [], false⟩]⟩

/-- The square has its value after the variable did not compile and the quotient
failed, and is the third request. -/
theorem evaluate_denotes_squareAndQuotient :
    ∃ code, squareAndQuotient.compile 2 "square" = .ok code ∧
      squareAndQuotient.compile 5 "n" = .error (.compile 5 (.liveVariable "n")) ∧
      (evaluate squareAndQuotient 5 (after [])).1 = .error (.compile 5 (.liveVariable "n")) ∧
      (∀ live r, squareAndQuotient.Denotes live 2 r ↔ r = .ok (.int 196)) ∧
      (evaluate squareAndQuotient 2
        (after [(squareAndQuotient, 5), (squareAndQuotient, 4)])).2.isClean = true ∧
      (evaluate squareAndQuotient 2
        (after [(squareAndQuotient, 5), (squareAndQuotient, 4)])).2.evaluations = 3 := by
  have hn : squareAndQuotient.compile 5 "n" = .error (.compile 5 (.liveVariable "n")) := by
    decide +kernel
  have hvalue : (evaluate squareAndQuotient 2
      (after [(squareAndQuotient, 5), (squareAndQuotient, 4)])).1 = .ok (.int 196) := by
    decide +kernel
  obtain ⟨hdenotes, -, hclean, hcount⟩ := evaluate_denotes
    [(squareAndQuotient, 5), (squareAndQuotient, 4)] squareAndQuotient 2 "square"
  cases hcode : squareAndQuotient.compile 2 "square" with
  | error e =>
      have hok : (squareAndQuotient.compile 2 "square").isOk = true := by decide +kernel
      rw [hcode] at hok
      cases hok
  | ok code =>
      refine ⟨code, rfl, hn, (evaluate_denotes [] squareAndQuotient 5 "n").2.1 _ hn, ?_,
        hclean, hcount.trans ?_⟩
      · rw [← hvalue]
        exact hdenotes code hcode
      · decide +kernel

end Interpreter

end OpGraph
