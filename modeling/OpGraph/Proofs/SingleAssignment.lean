import OpGraph.Proofs.Compilable

/-!
# Code in single-assignment form

The code of a node is fixed by the graph (`Graph.compile_single_assignment`). It has
one instruction for each operator at or below the node, however many ways lead to it,
and the operators come in the order in which a depth-first walk from left to right
finishes them. The `n`-th instruction sets the variable `_Var{n}`, and nothing else
does. Its operands are the values of literals and the variables of instructions
before it. At the end the result is assigned, and the variables are removed in the
order in which they were set.

`Graph.Finishes` is the walk, as it is usually defined: it skips what is finished,
goes through the inputs of an operator and then finishes the operator itself. It has
no stack. `Graph.assemble` has one, on which a node may stand many times, and on which
the walks of several operators are under way at once. `Graph.Completes` is the walk
with such a stack, and `Graph.assemble_completes` follows the one along the other. The
invariant, `Graph.Midway`, is that the code written so far is the code of the operators
finished so far, and that the operators whose instructions are still on the stack all
wait, each with one instruction. So no operator is finished twice.
-/

namespace OpGraph

/-- The variable that an instruction sets or removes. -/
def Instruction.target : Instruction → String
  | unary _ _ out _ => out
  | binary _ _ _ out _ => out
  | assign _ out => out
  | remove name => name

namespace Graph

variable {g : Graph} {id x root : NodeId} {xs done mid order : List NodeId}

/-! ## The order of the operators -/

/-- The number names an operator. -/
def IsOperator (g : Graph) (id : NodeId) : Prop :=
  ∃ l, g.label? id = some l ∧ l.kind.isOperator = true

/-- A depth-first walk from left to right to some nodes, one after the other. The
operators in `done` are finished before it, and those in `order` after it, in the order
in which they were finished. -/
inductive Finishes (g : Graph) : List NodeId → List NodeId → List NodeId → Prop
  | nil {done : List NodeId} : Finishes g [] done done
  | skip {x : NodeId} {xs done order : List NodeId} : x ∈ done ∨ ¬ g.IsOperator x →
      Finishes g xs done order → Finishes g (x :: xs) done order
  | operator {x : NodeId} {xs done mid order : List NodeId} : x ∉ done → g.IsOperator x →
      Finishes g (g.inputsOf x) done mid → Finishes g xs (mid ++ [x]) order →
      Finishes g (x :: xs) done order

theorem Finishes.unique {order' : List NodeId} (h : g.Finishes xs done order)
    (h' : g.Finishes xs done order') : order' = order := by
  induction h generalizing order' with
  | nil =>
      cases h'
      rfl
  | skip hx _ ih =>
      cases h' with
      | skip _ hxs => exact ih hxs
      | operator hnew hop _ _ => exact absurd hx (not_or.2 ⟨hnew, not_not.2 hop⟩)
  | operator hnew hop _ _ ihin ihxs =>
      cases h' with
      | skip hx _ => exact absurd hx (not_or.2 ⟨hnew, not_not.2 hop⟩)
      | operator _ _ hin hxs =>
          rw [ihin hin] at hxs
          exact ihxs hxs

/-- What is finished stays finished. -/
theorem Finishes.subset (h : g.Finishes xs done order) : done ⊆ order := by
  induction h with
  | nil => exact List.Subset.refl _
  | skip _ _ ih => exact ih
  | operator _ _ _ _ ihin ihxs =>
      exact fun y hy => ihxs (List.mem_append_left _ (ihin hy))

theorem Finishes.mem (h : g.Finishes xs done order) (hx : x ∈ xs) (hop : g.IsOperator x) :
    x ∈ order := by
  induction h with
  | nil => cases hx
  | skip hseen hxs ih =>
      rcases List.mem_cons.1 hx with rfl | hx
      · exact hxs.subset (hseen.resolve_right (not_not.2 hop))
      · exact ih hx
  | operator _ _ _ hxs _ ih =>
      rcases List.mem_cons.1 hx with rfl | hx
      · exact hxs.subset (List.mem_append_right _ (List.mem_singleton_self _))
      · exact ih hx

/-- The walk finishes operators only, and finishes them after their inputs. -/
theorem Finishes.closed (h : g.Finishes xs done order) (hx : x ∈ order) :
    x ∈ done ∨ g.IsOperator x ∧ ∀ c ∈ g.inputsOf x, g.IsOperator c → c ∈ order := by
  induction h with
  | nil => exact .inl hx
  | skip _ _ ih => exact ih hx
  | operator _ hop hin hxs ihin ihxs =>
      have hlater := hxs.subset
      rcases ihxs hx with hmid | hnew
      · rcases List.mem_append.1 hmid with hmid | hself
        · exact (ihin hmid).imp_right fun hnew => ⟨hnew.1, fun c hc hcop =>
            hlater (List.mem_append_left _ (hnew.2 c hc hcop))⟩
        · rw [List.mem_singleton.1 hself]
          exact .inr ⟨hop, fun c hc hcop => hlater (List.mem_append_left _ (hin.mem hc hcop))⟩
      · exact .inr hnew

/-- The walk comes only to what is taken, through operators, by where it started. -/
theorem Finishes.taken (h : g.Finishes xs done order) (hx : x ∈ order) :
    x ∈ done ∨ ∃ y ∈ xs, Relation.ReflTransGen g.Takes y x := by
  induction h with
  | nil => exact .inl hx
  | skip _ _ ih =>
      refine (ih hx).imp_right ?_
      rintro ⟨y, hy, hbelow⟩
      exact ⟨y, .tail _ hy, hbelow⟩
  | @operator p _ _ _ _ _ hop _ _ ihin ihxs =>
      rcases ihxs hx with hmid | ⟨y, hy, hbelow⟩
      · rcases List.mem_append.1 hmid with hmid | hself
        · refine (ihin hmid).imp_right ?_
          rintro ⟨c, hc, hbelow⟩
          exact ⟨p, .head _, .head ⟨hop, hc⟩ hbelow⟩
        · rw [List.mem_singleton.1 hself]
          exact .inr ⟨p, .head _, .refl⟩
      · exact .inr ⟨y, .tail _ hy, hbelow⟩

/-- A walk from one node finishes exactly the operators that it takes. -/
theorem Finishes.mem_iff (h : g.Finishes [root] [] order) :
    id ∈ order ↔ Relation.ReflTransGen g.Takes root id ∧ g.IsOperator id := by
  constructor
  · intro hid
    refine ⟨?_, ((h.closed hid).resolve_left List.not_mem_nil).1⟩
    obtain ⟨y, hy, hbelow⟩ := (h.taken hid).resolve_left List.not_mem_nil
    exact List.mem_singleton.1 hy ▸ hbelow
  · rintro ⟨hbelow, hop⟩
    induction hbelow with
    | refl => exact h.mem (.head _) hop
    | tail _ htakes ih =>
        have hp := (h.closed (ih htakes.1)).resolve_left List.not_mem_nil
        exact hp.2 _ htakes.2 hop

theorem Finishes.cons (h : g.Finishes [x] done mid) (h' : g.Finishes xs mid order) :
    g.Finishes (x :: xs) done order := by
  cases h with
  | skip hx hnil =>
      cases hnil
      exact .skip hx h'
  | operator hnew hop hin hnil =>
      cases hnil
      exact .operator hnew hop hin h'

/-- Nodes at which the walk has nothing to do may be left out. -/
theorem Finishes.of_filter {p : NodeId → Bool} (hskip : ∀ x, p x = false → x ∈ done ∨
    ¬ g.IsOperator x) (h : g.Finishes (xs.filter p) done order) : g.Finishes xs done order := by
  induction xs generalizing done with
  | nil => exact h
  | cons y ys ih =>
      cases hy : p y with
      | false =>
          rw [List.filter_cons_of_neg (by simp [hy])] at h
          exact .skip (hskip y hy) (ih hskip h)
      | true =>
          rw [List.filter_cons_of_pos hy] at h
          cases h with
          | skip hseen hrest => exact .skip hseen (ih hskip hrest)
          | operator hnew hop hin hrest =>
              refine .operator hnew hop hin (ih (fun x hx => ?_) hrest)
              exact (hskip x hx).imp_left fun hdone =>
                List.mem_append_left _ (hin.subset hdone)

/-! ## The code of the operators -/

/-- What stands for a node in code that has the instructions of some operators. -/
inductive OperandOf (g : Graph) (order : List NodeId) (x : NodeId) : Operand → Prop
  | literal {v : Value} {type : ValueType} :
      g.label? x = some ⟨.literal v, type, .scalar⟩ → OperandOf g order x (.literal v)
  | var {n : Nat} : order[n]? = some x → OperandOf g order x (.var (tempName n))

/-- The instruction of an operator that comes after some others. -/
inductive InstructionOf (g : Graph) (earlier : List NodeId) (id : NodeId) : Instruction → Prop
  | unary {op : UnaryOp} {type : ValueType} {x : NodeId} {o : Operand} :
      g.label? id = some ⟨.unary op, type, .scalar⟩ → g.inputsOf id = [x] →
      g.OperandOf earlier x o →
      InstructionOf g earlier id (.unary op o (tempName earlier.length) type)
  | binary {op : BinaryOp} {type : ValueType} {l r : NodeId} {ol or : Operand} :
      g.label? id = some ⟨.binary op, type, .scalar⟩ → g.inputsOf id = [l, r] →
      g.OperandOf earlier l ol → g.OperandOf earlier r or →
      InstructionOf g earlier id (.binary op ol or (tempName earlier.length) type)

/-- The instructions of some operators, in order. -/
inductive Transcribes (g : Graph) : List NodeId → List Instruction → Prop
  | nil : Transcribes g [] []
  | snoc {order : List NodeId} {ops : List Instruction} {id : NodeId} {i : Instruction} :
      Transcribes g order ops → g.InstructionOf order id i →
      Transcribes g (order ++ [id]) (ops ++ [i])

theorem OperandOf.append {o : Operand} (h : g.OperandOf order x o) (later : List NodeId) :
    g.OperandOf (order ++ later) x o := by
  cases h with
  | literal hl => exact .literal hl
  | var hn =>
      refine .var ?_
      rw [List.getElem?_append_left (List.getElem?_eq_some_iff.1 hn).1]
      exact hn

/-- A node with an operand has nothing to be done any more. -/
theorem OperandOf.mem_or {o : Operand} (h : g.OperandOf order x o) :
    x ∈ order ∨ ¬ g.IsOperator x := by
  cases h with
  | literal hl =>
      refine .inr ?_
      rintro ⟨l, hl', hop⟩
      rw [hl] at hl'
      cases hl'
      cases hop
  | var hn => exact .inl (List.mem_of_getElem? hn)

theorem InstructionOf.target_eq {i : Instruction} (h : g.InstructionOf order id i) :
    i.target = tempName order.length := by
  cases h <;> rfl

/-- The variables are numbered from zero on. -/
theorem Transcribes.targets {ops : List Instruction} (h : g.Transcribes order ops) :
    ops.map Instruction.target = (List.range order.length).map tempName := by
  induction h with
  | nil => rfl
  | snoc _ hi ih =>
      rw [List.map_append, ih, List.length_append, List.length_singleton, List.range_succ,
        List.map_append, List.map_singleton, List.map_singleton, hi.target_eq]

theorem Transcribes.length_eq {ops : List Instruction} (h : g.Transcribes order ops) :
    ops.length = order.length := by
  simpa using congrArg List.length h.targets

theorem nodup_tempNames (n : Nat) : ((List.range n).map tempName).Nodup :=
  List.nodup_range.map fun _ _ => tempName_injective

end Graph

namespace Assembly

variable {g : Graph} {a : Assembly} {id : NodeId} {order : List NodeId} {call : Application}
  {type : ValueType}

/-- The code so far is that of the given operators, which are known, and apart from them
only literals are. -/
structure Records (g : Graph) (a : Assembly) (order : List NodeId) : Prop where
  code : g.Transcribes order a.code.toList
  operand : ∀ x o, a.operand? x = some o → g.OperandOf order x o
  known : ∀ x ∈ order, a.Known x
  nodup : order.Nodup

theorem records_empty (g : Graph) : Assembly.empty.Records g [] where
  code := .nil
  operand x o hx := by simp [operand?, empty] at hx
  known x hx := absurd hx List.not_mem_nil
  nodup := List.nodup_nil

theorem Records.length_eq (h : a.Records g order) : order.length = a.code.size := by
  rw [← h.code.length_eq, Array.length_toList]

theorem Records.mem_or (h : a.Records g order) (hid : a.Known id) :
    id ∈ order ∨ ¬ g.IsOperator id := by
  obtain ⟨o, ho⟩ := Option.isSome_iff_exists.1 hid
  exact (h.operand id o ho).mem_or

theorem Records.define {v : Value} (h : a.Records g order)
    (ht : g.term id = .ok (.constant v)) : (a.define id (.literal v)).Records g order where
  code := h.code
  operand x o hx := by
    rw [operand?_define] at hx
    by_cases heq : id = x
    · rw [if_pos heq] at hx
      cases hx
      obtain ⟨type, hl⟩ := Graph.label_of_constant ht
      exact .literal (heq ▸ hl)
    · rw [if_neg heq] at hx
      exact h.operand x o hx
  known x hx := known_define.2 (.inl (h.known x hx))
  nodup := h.nodup

theorem Records.start (h : a.Records g order) (hid : ¬ a.Known id) :
    (a.start id).Records g order where
  code := h.code
  operand x o hx := by
    rw [operand?_start (by simpa [Known] using hid)] at hx
    exact h.operand x o hx
  known x hx := (known_start hid).2 (h.known x hx)
  nodup := h.nodup

/-- An instruction that can be written is the instruction of its operator. -/
theorem Records.instructionOf {i : Instruction} (h : a.Records g order)
    (ht : g.term id = .ok (.apply call type))
    (hi : a.instruction id call type (tempName a.code.size) = .ok i) :
    g.InstructionOf order id i := by
  obtain ⟨hl, hinputs⟩ := Graph.label_of_apply ht
  rw [← h.length_eq] at hi
  cases call with
  | unary op x =>
      obtain ⟨o, ho, hi⟩ := exists_of_bind_eq_ok hi
      cases hi
      exact .unary hl hinputs (h.operand x o (operand_eq_ok ho))
  | binary op l r =>
      obtain ⟨ol, hol, hi⟩ := exists_of_bind_eq_ok hi
      obtain ⟨or, hor, hi⟩ := exists_of_bind_eq_ok hi
      cases hi
      exact .binary hl hinputs (h.operand l ol (operand_eq_ok hol))
        (h.operand r or (operand_eq_ok hor))

/-- The instruction of an operator that was not known is written. -/
theorem Records.emitted {i : Instruction} (h : a.Records g order) (hid : ¬ a.Known id)
    (hi : g.InstructionOf order id i) : (a.emitted id i).Records g (order ++ [id]) where
  code := by
    show g.Transcribes _ (a.code.push i).toList
    rw [Array.toList_push]
    exact h.code.snoc hi
  operand x o hx := by
    rw [operand?_emitted] at hx
    by_cases heq : id = x
    · rw [if_pos heq] at hx
      cases hx
      rw [← h.length_eq]
      exact .var (by rw [List.getElem?_concat_length, heq])
    · rw [if_neg heq] at hx
      exact (h.operand x o hx).append [id]
  known x hx := by
    rw [List.mem_append, List.mem_singleton] at hx
    exact known_emitted.2 (hx.imp_left (h.known x))
  nodup := by
    rw [← List.concat_eq_append]
    exact h.nodup.concat fun hmem => hid (h.known id hmem)

end Assembly

/-! ## The stack -/

/-- The operator whose instruction a task writes. -/
def Task.writes? : Task → Option NodeId
  | visit _ => none
  | emit id _ _ => some id

namespace Graph

variable {g : Graph} {a b : Assembly} {id root : NodeId} {call : Application} {type : ValueType}
  {tasks rest : List Task} {xs done order : List NodeId}

/-- The walk with a stack of tasks. -/
inductive Completes (g : Graph) : List Task → List NodeId → List NodeId → Prop
  | nil {done : List NodeId} : Completes g [] done done
  | visit {id : NodeId} {rest : List Task} {done mid order : List NodeId} :
      g.Finishes [id] done mid → Completes g rest mid order →
      Completes g (.visit id :: rest) done order
  | emit {id : NodeId} {call : Application} {type : ValueType} {rest : List Task}
      {done order : List NodeId} : Completes g rest (done ++ [id]) order →
      Completes g (.emit id call type :: rest) done order

/-- Visits that end with an instruction are a walk through the inputs of its operator. -/
theorem Completes.of_visits
    (h : g.Completes (xs.map .visit ++ .emit id call type :: rest) done order) :
    ∃ mid, g.Finishes xs done mid ∧ g.Completes rest (mid ++ [id]) order := by
  induction xs generalizing done with
  | nil =>
      cases h with
      | emit hrest => exact ⟨done, .nil, hrest⟩
  | cons x xs ih =>
      cases h with
      | visit hx hxs =>
          obtain ⟨mid, hmid, hrest⟩ := ih hxs
          exact ⟨mid, hx.cons hmid, hrest⟩

/-- What holds between two tasks when the operators in `done` have their instructions. -/
structure Midway (g : Graph) (a : Assembly) (tasks : List Task) (done : List NodeId) : Prop where
  emits : g.Emits tasks
  nodup : (tasks.filterMap Task.writes?).Nodup
  begun : ∀ p ∈ tasks.filterMap Task.writes?, a.Begun p
  records : a.Records g done

theorem Midway.start (g : Graph) (root : NodeId) : g.Midway .empty [.visit root] [] where
  emits := g.emits_visit root
  nodup := List.nodup_nil
  begun _ hp := absurd hp List.not_mem_nil
  records := Assembly.records_empty g

theorem Midway.skip (h : g.Midway a (.visit id :: rest) done) : g.Midway a rest done where
  emits := h.emits.tail
  nodup := h.nodup
  begun := h.begun
  records := h.records

theorem Midway.constant {v : Value} (h : g.Midway a (.visit id :: rest) done)
    (ht : g.term id = .ok (.constant v)) :
    g.Midway (a.define id (.literal v)) rest done where
  emits := h.emits.tail
  nodup := h.nodup
  begun p hp := by
    refine Assembly.begun_define.2 ⟨?_, h.begun p hp⟩
    -- What waits is an operator, and so no literal.
    rintro rfl
    obtain ⟨t, hmem, hwrites⟩ := List.mem_filterMap.1 hp
    cases t with
    | visit x => cases hwrites
    | emit x c ty =>
        cases hwrites
        have happly := h.emits.tail id c ty hmem
        rw [ht] at happly
        cases happly
  records := h.records.define ht

theorem filterMap_writes_expansion :
    (expansion a id call type ++ rest).filterMap Task.writes? =
      id :: rest.filterMap Task.writes? := by
  rw [expansion_append, List.filterMap_append, List.filterMap_cons]
  simp [Task.writes?, List.filterMap_map, Function.comp_def]

theorem Midway.expand (h : g.Midway a (.visit id :: rest) done) (hid : ¬ a.Known id)
    (hbegun : ¬ a.Begun id) (ht : g.term id = .ok (.apply call type)) :
    g.Midway (a.start id) (expansion a id call type ++ rest) done where
  emits := h.emits.tail.expansion ht
  nodup := by
    rw [filterMap_writes_expansion]
    exact List.nodup_cons.2 ⟨fun hmem => hbegun (h.begun id hmem), h.nodup⟩
  begun p hp := by
    rw [filterMap_writes_expansion] at hp
    exact Assembly.begun_start.2 ((List.mem_cons.1 hp).imp Eq.symm (h.begun p))
  records := h.records.start hid

theorem Midway.emitted {i : Instruction} (h : g.Midway a (.emit id call type :: rest) done)
    (hi : a.instruction id call type (tempName a.code.size) = .ok i) :
    g.Midway (a.emitted id i) rest (done ++ [id]) := by
  obtain ⟨hother, hnodup⟩ := List.nodup_cons.1 h.nodup
  have hid : ¬ a.Known id := (h.begun id (.head _)).not_known
  have ht : g.term id = .ok (.apply call type) := h.emits id call type (.head _)
  refine ⟨h.emits.tail, hnodup, fun p hp => ?_,
    h.records.emitted hid (h.records.instructionOf ht hi)⟩
  refine Assembly.begun_emitted.2 ⟨?_, h.begun p (.tail _ hp)⟩
  rintro rfl
  exact hother hp

/-- The stack goes through the operators in the order of the walk. -/
theorem assemble_completes (h : g.Midway a tasks done) (hrun : g.assemble tasks a = .ok b) :
    ∃ order, g.Completes tasks done order ∧ b.Records g order := by
  fun_induction g.assemble tasks a generalizing done with
  | case1 a =>
      cases hrun
      exact ⟨done, .nil, h.records⟩
  | case2 a id rest ho ih =>
      obtain ⟨order, hrest, hb⟩ := ih h.skip hrun
      exact ⟨order, .visit (.skip (h.records.mem_or ho) .nil) hrest, hb⟩
  | case3 a id rest ho e ht => cases hrun
  | case4 a id rest ho v ht ih =>
      obtain ⟨order, hrest, hb⟩ := ih (h.constant ht) hrun
      have hdone := (h.records.define ht).mem_or (Assembly.known_define.2 (.inr rfl))
      exact ⟨order, .visit (.skip hdone .nil) hrest, hb⟩
  | case5 a id rest ho call type ht hmet => cases hrun
  | case6 a id rest ho call type ht hmet ih =>
      have hbegun : ¬ a.Begun id := fun hid => hmet hid.contains
      obtain ⟨order, hall, hb⟩ := ih (h.expand ho hbegun ht) hrun
      rw [expansion_append] at hall
      obtain ⟨mid, hin, hrest⟩ := hall.of_visits
      -- The inputs that have operands are not on the stack; the walk skips them.
      have hinputs : g.Finishes call.inputs done mid := hin.of_filter fun x hx =>
        h.records.mem_or (by simpa [Assembly.Known, Option.isSome_iff_ne_none] using hx)
      obtain ⟨hl, hheld⟩ := label_of_apply ht
      have hop : g.IsOperator id := ⟨_, hl, by cases call <;> rfl⟩
      have hnew : id ∉ done := fun hmem => ho (h.records.known id hmem)
      exact ⟨order, .visit (.operator hnew hop (hheld ▸ hinputs) .nil) hrest, hb⟩
  | case7 a id call type rest e hemit => cases hrun
  | case8 a id call type rest b' hemit ih =>
      obtain ⟨i, hi, rfl⟩ := Assembly.emitted_of_emit hemit
      obtain ⟨order, hrest, hb⟩ := ih (h.emitted hi) hrun
      exact ⟨order, .emit hrest, hb⟩

theorem records_of_assemble (h : g.assemble [.visit root] .empty = .ok a) :
    ∃ order, g.Finishes [root] [] order ∧ a.Records g order := by
  obtain ⟨order, hcompletes, ha⟩ := assemble_completes (Midway.start g root) h
  cases hcompletes with
  | visit hroot hnil =>
      cases hnil
      exact ⟨order, hroot, ha⟩

/-- The code of a node has one instruction for each operator that the node takes, in the
order of a depth-first walk from left to right. Each sets a variable of its own, from
literals and from variables that were set before. Then the value of the node is
assigned, and the variables are removed in the order in which they were set. -/
theorem compile_single_assignment {out : String} {code : List Instruction}
    (h : g.compile root out = .ok code) :
    ∃ order ops o, code = ops ++ .assign o out :: ops.map (fun i => .remove i.target) ∧
      (∀ order', g.Finishes [root] [] order' ↔ order' = order) ∧
      order.Nodup ∧
      (∀ id, id ∈ order ↔ Relation.ReflTransGen g.Takes root id ∧ g.IsOperator id) ∧
      g.Transcribes order ops ∧
      ops.map Instruction.target = (List.range order.length).map tempName ∧
      (ops.map Instruction.target).Nodup ∧
      g.OperandOf order root o := by
  obtain ⟨a, o, hrun, ho, rfl⟩ := of_compile h
  obtain ⟨order, hwalk, ha⟩ := records_of_assemble hrun
  have htargets := ha.code.targets
  refine ⟨order, a.code.toList, o, ?_, fun order' => ?_, ha.nodup, fun id => hwalk.mem_iff,
    ha.code, htargets, ?_, ha.operand root o ho⟩
  · rw [← ha.length_eq, ← htargets, List.map_map]
    rfl
  · exact ⟨fun h' => hwalk.unique h', fun heq => heq ▸ hwalk⟩
  · rw [htargets]
    exact nodup_tempNames _

/-- The square of a sum, less the sum, and an operator that is no part of this. -/
def squareLessSum : Graph :=
  ⟨#[⟨.literal (.int 3), .int, .scalar, [], [2, 2], false⟩,
    ⟨.binary .times, .int, .scalar, [2, 2], [3], false⟩,
    ⟨.binary .plus, .int, .scalar, [0, 0], [1, 1, 3], false⟩,
    ⟨.binary .minus, .int, .scalar, [1, 2], [4], false⟩,
    ⟨.unary .abs, .int, .scalar, [3], [], false⟩]⟩

/-- The sum is computed once, before the square, and the operator above is left out. -/
theorem compile_single_assignment_squareLessSum :
    squareLessSum.compile 3 "x" = .ok
        [.binary .plus (.literal (.int 3)) (.literal (.int 3)) "_Var0" .int,
          .binary .times (.var "_Var0") (.var "_Var0") "_Var1" .int,
          .binary .minus (.var "_Var1") (.var "_Var0") "_Var2" .int,
          .assign (.var "_Var2") "x", .remove "_Var0", .remove "_Var1", .remove "_Var2"] ∧
      squareLessSum.Finishes [3] [] [2, 1, 3] ∧
      (∀ id, id ∈ [2, 1, 3] ↔
        Relation.ReflTransGen squareLessSum.Takes 3 id ∧ squareLessSum.IsOperator id) ∧
      ∃ ops o, squareLessSum.Transcribes [2, 1, 3] ops ∧ squareLessSum.OperandOf [2, 1, 3] 3 o := by
  have hcode : squareLessSum.compile 3 "x" = .ok
      [.binary .plus (.literal (.int 3)) (.literal (.int 3)) "_Var0" .int,
        .binary .times (.var "_Var0") (.var "_Var0") "_Var1" .int,
        .binary .minus (.var "_Var1") (.var "_Var0") "_Var2" .int,
        .assign (.var "_Var2") "x", .remove "_Var0", .remove "_Var1", .remove "_Var2"] := by
    decide +kernel
  have hleaf : ¬ squareLessSum.IsOperator 0 := by
    rintro ⟨l, hl, hop⟩
    cases hl
    cases hop
  have hwalk : squareLessSum.Finishes [3] [] [2, 1, 3] := by
    have hsum : squareLessSum.Finishes [2, 2] [] [2] :=
      .operator (by decide) ⟨_, rfl, rfl⟩ (.skip (.inr hleaf) (.skip (.inr hleaf) .nil))
        (.skip (.inl (by decide)) .nil)
    have hdifference : squareLessSum.Finishes [1, 2] [] [2, 1] :=
      .operator (by decide) ⟨_, rfl, rfl⟩ hsum (.skip (.inl (by decide)) .nil)
    exact .operator (by decide) ⟨_, rfl, rfl⟩ hdifference .nil
  obtain ⟨order, ops, o, -, horder, -, hmem, hops, -, -, ho⟩ := compile_single_assignment hcode
  cases (horder _).1 hwalk
  exact ⟨hcode, hwalk, hmem, ops, o, hops, ho⟩

end Graph

end OpGraph
