import OpGraph.Code.Interpreter
import OpGraph.Proofs.Expression
import Std.Data.String.ToNat

/-!
# Executing a node computes its expression

Code is made on a stack of tasks and shares the work of a node between all its
uses, while `Expr.value` walks a tree in which nothing is shared. This file
shows that the two agree: whatever an interpreter holds when it is asked, its
answer for a node that reads as `r` is the value of `r`, or the fault that `r`
is (`Graph.Reads.evaluate`, `Graph.Reads.execute`).

The argument is an induction on the reading of the node. Its statement,
`Graph.Visits`, is about any stack of tasks below the visit and any code made
before it: the visit either stops at the fault, or comes back with an operand
for the node and a segment of code that computes it from what was there. What
was there is `Assembly.Agrees`: the variables hold the values of all nodes that
have an operand. A node with an operand is therefore never computed again, and
its second use costs no code.

The graph is not assumed to be free of cycles. A node that reads somehow does
not need itself, and the nodes that wait for their inputs all need the node
being visited, so no wait is ever for itself.
-/

namespace OpGraph

theorem tempName_injective {i j : Nat} (h : tempName i = tempName j) : i = j :=
  Nat.repr_injective ((String.append_right_inj _).1 h)

theorem tempName_ne_resultName (i : Nat) : tempName i ≠ Interpreter.resultName := by
  intro h
  have hchars := congrArg String.toList h
  simp [tempName, Interpreter.resultName] at hchars

namespace Instruction

theorem effect_unary (op : UnaryOp) (input : Operand) (out : String) (type : ValueType)
    (env : Env) : (unary op input out type).effect env =
      ((input.value env).bind (op.result type)).map (env.set out) := by
  rw [effect]
  cases input.value env with
  | error e => rfl
  | ok x =>
      change (applyUnary op x).bind _ = ((applyUnary op x).bind (Value.coerce type)).map _
      cases applyUnary op x <;> rfl

theorem effect_binary (op : BinaryOp) (left right : Operand) (out : String) (type : ValueType)
    (env : Env) : (binary op left right out type).effect env =
      ((left.value env).bind fun l => (right.value env).bind (op.result type l)).map
        (env.set out) := by
  rw [effect]
  cases left.value env with
  | error e => rfl
  | ok l =>
      cases right.value env with
      | error e => rfl
      | ok r =>
          change (applyBinary op l r).bind _ = ((applyBinary op l r).bind (Value.coerce type)).map _
          cases applyBinary op l r <;> rfl

theorem runAll_cons {i : Instruction} {rest : List Instruction} {env env' : Env}
    (h : i.effect env = .ok env') : runAll (i :: rest) env = runAll rest env' := by
  have hrun : i.run env = .ok () env' := by rw [run, h]
  exact bind_ok hrun

theorem runAll_cons_error {i : Instruction} {rest : List Instruction} {env : Env} {e : EvalError}
    (h : i.effect env = .error e) : runAll (i :: rest) env = .error e env := by
  have hrun : i.run env = .error e env := by rw [run, h]
  exact bind_error hrun

theorem runAll_append {xs ys : List Instruction} {env env' : Env}
    (h : runAll xs env = .ok () env') : runAll (xs ++ ys) env = runAll ys env' := by
  induction xs generalizing env with
  | nil =>
      cases h
      rfl
  | cons i xs ih =>
      cases hi : i.effect env with
      | ok mid =>
          rw [runAll_cons hi] at h
          rw [List.cons_append, runAll_cons hi]
          exact ih h
      | error e =>
          rw [runAll_cons_error hi] at h
          cases h

theorem runAll_append_error {xs ys : List Instruction} {env env' : Env} {e : EvalError}
    (h : runAll xs env = .error e env') : runAll (xs ++ ys) env = .error e env' := by
  induction xs generalizing env with
  | nil => cases h
  | cons i xs ih =>
      cases hi : i.effect env with
      | ok mid =>
          rw [runAll_cons hi] at h
          rw [List.cons_append, runAll_cons hi]
          exact ih h
      | error e' =>
          rw [runAll_cons_error hi] at h
          rw [List.cons_append, runAll_cons_error hi]
          exact h

/-- Removing variables leaves the others as they are. -/
theorem runAll_remove (names : List String) (env : Env) :
    ∃ env', runAll (names.map .remove) env = .ok () env' ∧
      ∀ x, env'.get? x = if x ∈ names then none else env.get? x := by
  induction names generalizing env with
  | nil => exact ⟨env, rfl, fun x => by simp⟩
  | cons name names ih =>
      obtain ⟨env', hrun, hget⟩ := ih (env.erase name)
      have hname : (Instruction.remove name).effect env = .ok (env.erase name) := rfl
      refine ⟨env', ?_, fun x => ?_⟩
      · rw [List.map_cons, runAll_cons hname]
        exact hrun
      · rw [hget, Env.get?_erase]
        by_cases hx : name = x
        · simp [hx]
        · simp [hx, Ne.symm hx]

/-- The end of compiled code: a value is assigned, and variables are removed. -/
theorem runAll_assign_remove {ops : List Instruction} {o : Operand} {env mid : Env} {v : Value}
    (hops : runAll ops env = .ok () mid) (ho : o.value mid = .ok v) (out : String)
    (names : List String) :
    ∃ env', runAll (ops ++ .assign o out :: names.map .remove) env = .ok () env' ∧
      ∀ x, env'.get? x = if x ∈ names then none else (mid.set out v).get? x := by
  have hassign : (Instruction.assign o out).effect mid = .ok (mid.set out v) := by
    rw [effect, ho]
    rfl
  obtain ⟨env', hremove, hget⟩ := runAll_remove names (mid.set out v)
  exact ⟨env', by rw [runAll_append hops, runAll_cons hassign, hremove], hget⟩

end Instruction

namespace Assembly

/-- The inputs of the node are being compiled. -/
def Begun (a : Assembly) (id : NodeId) : Prop := a.stages[id]? = some .begun

def emitted (a : Assembly) (id : NodeId) (i : Instruction) : Assembly :=
  ⟨a.stages.insert id (.done (.var (tempName a.code.size))), a.code.push i⟩

variable {a : Assembly} {id x : NodeId} {o : Operand}

theorem getElem?_insert_stage (stages : Std.TreeMap NodeId Stage) (id x : NodeId) (s : Stage) :
    (stages.insert id s)[x]? = if id = x then some s else stages[x]? := by
  rw [Std.TreeMap.getElem?_insert]
  simp only [Std.LawfulEqCmp.compare_eq_iff_eq]

theorem operand?_define : (a.define id o).operand? x = if id = x then some o else a.operand? x := by
  simp only [operand?, define, getElem?_insert_stage]
  by_cases h : id = x <;> simp [h]

theorem operand?_start (hid : a.operand? id = none) : (a.start id).operand? x = a.operand? x := by
  by_cases h : id = x
  · subst h
    rw [hid]
    simp [operand?, start]
  · simp [operand?, start, getElem?_insert_stage, h]

theorem operand?_emitted {i : Instruction} :
    (a.emitted id i).operand? x =
      if id = x then some (.var (tempName a.code.size)) else a.operand? x := by
  simp only [operand?, emitted, getElem?_insert_stage]
  by_cases h : id = x <;> simp [h]

theorem begun_define : (a.define id o).Begun x ↔ id ≠ x ∧ a.Begun x := by
  simp only [Begun, define, getElem?_insert_stage]
  by_cases h : id = x <;> simp [h]

theorem begun_start : (a.start id).Begun x ↔ id = x ∨ a.Begun x := by
  simp only [Begun, start, getElem?_insert_stage]
  by_cases h : id = x <;> simp [h]

theorem begun_emitted {i : Instruction} : (a.emitted id i).Begun x ↔ id ≠ x ∧ a.Begun x := by
  simp only [Begun, emitted, getElem?_insert_stage]
  by_cases h : id = x <;> simp [h]

/-- A node without an operand that was met before waits for its inputs. -/
theorem begun_of_contains (hid : a.operand? id = none) (hmet : a.stages.contains id = true) :
    a.Begun id := by
  rw [Std.TreeMap.contains_eq_isSome_getElem?, Option.isSome_iff_exists] at hmet
  obtain ⟨s, hs⟩ := hmet
  cases s with
  | begun => exact hs
  | done o => simp [operand?, hs] at hid

theorem Begun.contains (h : a.Begun id) : a.stages.contains id = true := by
  rw [Std.TreeMap.contains_eq_isSome_getElem?, h]
  rfl

theorem emitted_of_emit {b : Assembly} {call : Application} {type : ValueType}
    (h : a.emit id call type = .ok b) :
    ∃ i, a.instruction id call type (tempName a.code.size) = .ok i ∧ b = a.emitted id i := by
  unfold emit at h
  split at h
  · cases h
  · next i hi =>
      cases h
      exact ⟨i, hi, rfl⟩

end Assembly

namespace Graph

section Tasks

variable {g : Graph} {a b : Assembly} {id x : NodeId} {call : Application} {type : ValueType}
  {rest : List Task}

theorem assemble_nil : g.assemble [] a = .ok a := by
  rw [assemble]

theorem assemble_skip {o : Operand} (h : a.operand? id = some o) :
    g.assemble (.visit id :: rest) a = g.assemble rest a := by
  rw [assemble, if_pos (by simp [h])]

theorem assemble_fault {e : EvalError} (hnew : a.operand? id = none) (ht : g.term id = .error e) :
    g.assemble (.visit id :: rest) a = .error e := by
  rw [assemble, if_neg (by simp [hnew])]
  split <;> simp_all

theorem assemble_constant {v : Value} (hnew : a.operand? id = none)
    (ht : g.term id = .ok (.constant v)) :
    g.assemble (.visit id :: rest) a = g.assemble rest (a.define id (.literal v)) := by
  rw [assemble, if_neg (by simp [hnew])]
  split <;> simp_all

theorem assemble_expand (hnew : a.operand? id = none) (hbegun : ¬ a.Begun id)
    (ht : g.term id = .ok (.apply call type)) :
    g.assemble (.visit id :: rest) a =
      g.assemble (expansion a id call type ++ rest) (a.start id) := by
  have hmet : ¬ a.stages.contains id = true := fun h => hbegun (Assembly.begun_of_contains hnew h)
  rw [assemble, if_neg (by simp [hnew])]
  split <;> simp_all

theorem assemble_emit {i : Instruction}
    (hi : a.instruction id call type (tempName a.code.size) = .ok i) :
    g.assemble (.emit id call type :: rest) a = g.assemble rest (a.emitted id i) := by
  have hemit : a.emit id call type = .ok (a.emitted id i) := by
    rw [Assembly.emit, hi, Assembly.emitted]
  rw [assemble]
  split <;> simp_all

/-- The task of an input of an operator that is expanded. -/
def pending (a : Assembly) (x : NodeId) : List Task :=
  if (a.operand? x).isNone then [.visit x] else []

theorem expansion_unary (op : UnaryOp) :
    expansion a id (.unary op x) type = pending a x ++ [.emit id (.unary op x) type] := by
  cases h : a.operand? x <;> simp [expansion, pending, Application.inputs, h]

theorem expansion_binary (op : BinaryOp) (l r : NodeId) :
    expansion a id (.binary op l r) type =
      pending a l ++ (pending a r ++ [.emit id (.binary op l r) type]) := by
  cases hl : a.operand? l <;> cases hr : a.operand? r <;>
    simp [expansion, pending, Application.inputs, hl, hr]

/-- Leaving out the visit of an input that has an operand makes no difference. -/
theorem assemble_pending (hkept : ∀ o, a.operand? x = some o → b.operand? x = some o) :
    g.assemble (pending a x ++ rest) b = g.assemble (.visit x :: rest) b := by
  cases h : a.operand? x with
  | none => simp [pending, h]
  | some o => simp [pending, h, assemble_skip (hkept o h)]

end Tasks

end Graph

namespace Assembly

section Readable

variable {g : Graph} {a : Assembly} {id : NodeId}

/-- Every node that has an operand reads as an expression. -/
def Readable (g : Graph) (a : Assembly) : Prop :=
  ∀ x o, a.operand? x = some o → ∃ e, g.Reads x (.ok e)

theorem readable_empty (g : Graph) : Assembly.empty.Readable g := by
  intro x o hx
  simp [operand?, empty] at hx

theorem Readable.define {o : Operand} (h : a.Readable g) (hid : ∃ e, g.Reads id (.ok e)) :
    (a.define id o).Readable g := by
  intro x o' hx
  rw [operand?_define] at hx
  by_cases heq : id = x
  · exact heq ▸ hid
  · rw [if_neg heq] at hx
    exact h x o' hx

theorem Readable.start (h : a.Readable g) (hid : a.operand? id = none) :
    (a.start id).Readable g := by
  intro x o hx
  rw [operand?_start hid] at hx
  exact h x o hx

theorem Readable.emitted {i : Instruction} (h : a.Readable g) (hid : ∃ e, g.Reads id (.ok e)) :
    (a.emitted id i).Readable g :=
  Readable.define (a := ⟨a.stages, a.code.push i⟩) h hid

end Readable

end Assembly

/-- Operands are literals or variables of instructions that were written, and
every node with an operand can be computed. -/
structure Assembly.Legible (g : Graph) (a : Assembly) : Prop where
  var : ∀ {x name}, a.operand? x = some (.var name) → ∃ k < a.code.size, name = tempName k
  readable : a.Readable g

/-- The variables hold the values of all nodes with an operand. -/
def Assembly.Agrees (g : Graph) (a : Assembly) (env : Env) : Prop :=
  ∀ {x o e}, a.operand? x = some o → g.Reads x (.ok e) →
    ∃ v, e.value = .ok v ∧ o.value env = .ok v

/-- Running a piece of code has the given outcome. -/
def Assembly.Runs (g : Graph) (a b : Assembly) (code : List Instruction) :
    Except EvalError Unit → Prop
  | .ok _ => ∀ env, a.Agrees g env →
      ∃ env', Instruction.runAll code env = .ok () env' ∧ b.Agrees g env'
  | .error e => ∀ env, a.Agrees g env → ∃ env', Instruction.runAll code env = .error e env'

/-- The assembly grows from `a` to `b`, by code with the given outcome. -/
structure Assembly.Grows (g : Graph) (a b : Assembly) (outcome : Except EvalError Unit) : Prop where
  legible : b.Legible g
  kept : ∀ {x o}, a.operand? x = some o → b.operand? x = some o
  code : ∃ segment, b.code.toList = a.code.toList ++ segment ∧ a.Runs g b segment outcome

/-- The expression has a value, or the error that stops it. -/
def Expr.outcome (e : Expr) : Except EvalError Unit := e.value.map fun _ => ()

/-- Between `a` and `b`, a node got its operand. -/
structure Assembly.Compiled (g : Graph) (a b : Assembly) (id : NodeId) (e : Expr) : Prop
    extends a.Grows g b e.outcome where
  operand : ∃ o, b.operand? id = some o
  begun : ∀ x, b.Begun x ↔ a.Begun x

namespace Assembly

variable {g : Graph} {a b c : Assembly} {id x : NodeId}

theorem Grows.trans {r s : Except EvalError Unit} (h : a.Grows g b r) (h' : b.Grows g c s) :
    a.Grows g c (r.bind fun _ => s) := by
  obtain ⟨p, hp, hrun⟩ := h.code
  obtain ⟨q, hq, hrun'⟩ := h'.code
  refine ⟨h'.legible, fun hx => h'.kept (h.kept hx), p ++ q, ?_, ?_⟩
  · rw [hq, hp, List.append_assoc]
  · cases r with
    | error e =>
        intro env henv
        obtain ⟨env', he⟩ := hrun env henv
        exact ⟨env', Instruction.runAll_append_error he⟩
    | ok u =>
        cases s with
        | error e =>
            intro env henv
            obtain ⟨mid, hmid, hagrees⟩ := hrun env henv
            rw [Instruction.runAll_append hmid]
            exact hrun' mid hagrees
        | ok u' =>
            intro env henv
            obtain ⟨mid, hmid, hagrees⟩ := hrun env henv
            rw [Instruction.runAll_append hmid]
            exact hrun' mid hagrees

theorem Legible.start (h : a.Legible g) (hid : a.operand? id = none) : (a.start id).Legible g where
  var hx := h.var (operand?_start hid ▸ hx)
  readable := h.readable.start hid

/-- What grows from a node that waits grows from before the wait. -/
theorem Grows.of_start {r : Except EvalError Unit} (hid : a.operand? id = none)
    (h : (a.start id).Grows g b r) : a.Grows g b r := by
  obtain ⟨segment, hcode, hrun⟩ := h.code
  have hagrees : ∀ env, a.Agrees g env → (a.start id).Agrees g env := by
    intro env henv x o e ho he
    exact henv (operand?_start hid ▸ ho) he
  refine ⟨h.legible, fun hx => h.kept ((operand?_start hid).trans hx), segment, hcode, ?_⟩
  cases r with
  | ok u => exact fun env henv => hrun env (hagrees env henv)
  | error e => exact fun env henv => hrun env (hagrees env henv)

/-- The value of an input can be taken from its operand. -/
theorem Agrees.operand_eq {env : Env} {o : Operand} {e : Expr} (h : a.Agrees g env)
    (ho : a.operand? x = some o) (he : g.Reads x (.ok e)) : o.value env = e.value := by
  obtain ⟨v, hv, hov⟩ := h ho he
  rw [hov, hv]

/-- A new variable does not touch the values that are there. -/
theorem Agrees.set {env : Env} (h : a.Agrees g env) (hleg : a.Legible g) (v : Value) :
    a.Agrees g (env.set (tempName a.code.size) v) := by
  intro x o e ho he
  obtain ⟨w, hw, how⟩ := h ho he
  refine ⟨w, hw, ?_⟩
  cases o with
  | literal u => exact how
  | var name =>
      -- Variables are numbered by their instructions, and this one is not written yet.
      obtain ⟨k, hk, rfl⟩ := hleg.var ho
      have hne : tempName a.code.size ≠ tempName k := fun heq =>
        Nat.ne_of_gt hk (tempName_injective heq)
      simpa [Operand.value, Env.get, Env.get?_set, hne] using how

theorem Legible.emitted {i : Instruction} {e : Expr} (h : a.Legible g) (he : g.Reads id (.ok e)) :
    (a.emitted id i).Legible g := by
  have hsize : (a.emitted id i).code.size = a.code.size + 1 := Array.size_push i
  refine ⟨?_, h.readable.emitted ⟨e, he⟩⟩
  intro x name hx
  rw [operand?_emitted] at hx
  rw [hsize]
  by_cases hid : id = x
  · rw [if_pos hid] at hx
    cases hx
    exact ⟨_, Nat.lt_succ_self _, rfl⟩
  · rw [if_neg hid] at hx
    obtain ⟨k, hk, hname⟩ := h.var hx
    exact ⟨k, Nat.lt_succ_of_lt hk, hname⟩

/-- An instruction that computes an expression into its own variable. -/
theorem grows_emitted {i : Instruction} {e : Expr} (hleg : a.Legible g)
    (hnew : a.operand? id = none) (he : g.Reads id (.ok e))
    (hi : ∀ env, a.Agrees g env → i.effect env = e.value.map (env.set (tempName a.code.size))) :
    a.Grows g (a.emitted id i) e.outcome := by
  refine ⟨hleg.emitted he, ?_, [i], Array.toList_push, ?_⟩
  · intro x o hx
    have hne : id ≠ x := by
      rintro rfl
      rw [hnew] at hx
      cases hx
    rw [operand?_emitted, if_neg hne, hx]
  · unfold Expr.outcome
    cases hv : e.value with
    | error err =>
        intro env henv
        have heff : i.effect env = .error err := by rw [hi env henv, hv]; rfl
        exact ⟨env, Instruction.runAll_cons_error heff⟩
    | ok v =>
        intro env henv
        have heff : i.effect env = .ok (env.set (tempName a.code.size) v) := by
          rw [hi env henv, hv]; rfl
        refine ⟨_, Instruction.runAll_cons heff, ?_⟩
        intro x o e' hx he'
        rw [operand?_emitted] at hx
        by_cases hid : id = x
        · subst hid
          rw [if_pos rfl] at hx
          cases hx
          cases he.unique he'
          exact ⟨v, hv, by simp [Operand.value, Env.get, Env.get?_set]⟩
        · rw [if_neg hid] at hx
          exact henv.set hleg v hx he'

/-- A node that has its operand already needs no code. -/
theorem compiled_skip {o : Operand} {e : Expr} (hleg : a.Legible g) (ho : a.operand? id = some o)
    (he : g.Reads id (.ok e)) : a.Compiled g a id e := by
  refine ⟨⟨hleg, fun hx => hx, [], (List.append_nil _).symm, ?_⟩, ⟨o, ho⟩, fun _ => Iff.rfl⟩
  unfold Expr.outcome
  cases hv : e.value with
  | ok v => exact fun env henv => ⟨env, rfl, henv⟩
  | error err =>
      intro env henv
      -- The code of a node that fails was not run to its end.
      obtain ⟨v, hok, _⟩ := henv ho he
      rw [hv] at hok
      cases hok

/-- A literal needs no code, since its value is its operand. -/
theorem compiled_constant {v : Value} (hleg : a.Legible g) (hnew : a.operand? id = none)
    (hbegun : ¬ a.Begun id) (he : g.Reads id (.ok (.constant v))) :
    a.Compiled g (a.define id (.literal v)) id (.constant v) := by
  have hkept : ∀ {x o}, a.operand? x = some o →
      id ≠ x ∧ (a.define id (.literal v)).operand? x = some o := by
    intro x o hx
    have hne : id ≠ x := by
      rintro rfl
      rw [hnew] at hx
      cases hx
    exact ⟨hne, by rw [operand?_define, if_neg hne, hx]⟩
  have hcase : ∀ {x o}, (a.define id (.literal v)).operand? x = some o →
      (id = x ∧ o = .literal v) ∨ a.operand? x = some o := by
    intro x o hx
    rw [operand?_define] at hx
    by_cases hid : id = x
    · rw [if_pos hid] at hx
      cases hx
      exact .inl ⟨hid, rfl⟩
    · rw [if_neg hid] at hx
      exact .inr hx
  refine ⟨⟨⟨?_, hleg.readable.define ⟨_, he⟩⟩, fun hx => (hkept hx).2, [],
    (List.append_nil _).symm, ?_⟩, ⟨_, by rw [operand?_define, if_pos rfl]⟩, ?_⟩
  · intro x name hx
    rcases hcase hx with ⟨_, hlit⟩ | hx
    · cases hlit
    · exact hleg.var hx
  · intro env henv
    refine ⟨env, rfl, ?_⟩
    intro x o e hx he'
    rcases hcase hx with ⟨rfl, rfl⟩ | hx
    · cases he.unique he'
      exact ⟨v, rfl, rfl⟩
    · exact henv hx he'
  · intro x
    rw [begun_define]
    refine ⟨And.right, fun hx => ⟨?_, hx⟩⟩
    rintro rfl
    exact hbegun hx

theorem operand_of_operand? {o : Operand} (h : a.operand? x = some o) : a.operand id x = .ok o := by
  rw [operand, h]

theorem Begun.operand? (h : a.Begun id) : a.operand? id = none := by
  unfold Begun at h
  simp [Assembly.operand?, h]

/-- Writing the instruction of a node ends its wait. -/
theorem compiled_of_start {i : Instruction} {e : Expr} (hnew : a.operand? id = none)
    (hbegun : ¬ a.Begun id) (hsame : ∀ x, b.Begun x ↔ (a.start id).Begun x)
    (h : (a.start id).Grows g (b.emitted id i) e.outcome) :
    a.Compiled g (b.emitted id i) id e := by
  refine ⟨h.of_start hnew, ⟨_, by rw [operand?_emitted, if_pos rfl]⟩, ?_⟩
  intro x
  rw [begun_emitted, hsame, begun_start]
  constructor
  · rintro ⟨hne, heq | hx⟩
    · exact absurd heq hne
    · exact hx
  · intro hx
    refine ⟨?_, .inr hx⟩
    rintro rfl
    exact hbegun hx

theorem compiled_unary {op : UnaryOp} {type : ValueType} {e : Expr} (hnew : a.operand? id = none)
    (hbegun : ¬ a.Begun id) (hx : (a.start id).Compiled g b x e) (hreads : g.Reads x (.ok e))
    (hid : g.Reads id (.ok (.unary op e type))) :
    ∃ i, b.instruction id (.unary op x) type (tempName b.code.size) = .ok i ∧
      a.Compiled g (b.emitted id i) id (.unary op e type) := by
  obtain ⟨o, ho⟩ := hx.operand
  refine ⟨.unary op o (tempName b.code.size) type, ?_, compiled_of_start hnew hbegun hx.begun ?_⟩
  · rw [instruction, operand_of_operand? ho]
    rfl
  have hwait : b.operand? id = none := ((hx.begun id).2 (begun_start.2 (.inl rfl))).operand?
  have hemit := grows_emitted (i := .unary op o (tempName b.code.size) type) hx.legible hwait hid
    fun env henv => by rw [Instruction.effect_unary, henv.operand_eq ho hreads, Expr.value]
  have hall := hx.toGrows.trans hemit
  have hout : (e.outcome.bind fun _ => (Expr.unary op e type).outcome) =
      (Expr.unary op e type).outcome := by
    simp only [Expr.outcome, Expr.value]
    cases e.value <;> rfl
  rwa [hout] at hall

theorem compiled_binary {op : BinaryOp} {type : ValueType} {l r : NodeId} {el er : Expr}
    (hnew : a.operand? id = none) (hbegun : ¬ a.Begun id)
    (hl : (a.start id).Compiled g b l el) (hreadl : g.Reads l (.ok el))
    (hr : b.Compiled g c r er) (hreadr : g.Reads r (.ok er))
    (hid : g.Reads id (.ok (.binary op el er type))) :
    ∃ i, c.instruction id (.binary op l r) type (tempName c.code.size) = .ok i ∧
      a.Compiled g (c.emitted id i) id (.binary op el er type) := by
  obtain ⟨ol, hol⟩ := hl.operand
  obtain ⟨or, hor⟩ := hr.operand
  have hkept := hr.kept hol
  have hsame : ∀ x, c.Begun x ↔ (a.start id).Begun x := fun x => (hr.begun x).trans (hl.begun x)
  refine ⟨.binary op ol or (tempName c.code.size) type, ?_, compiled_of_start hnew hbegun hsame ?_⟩
  · rw [instruction, operand_of_operand? hkept, operand_of_operand? hor]
    rfl
  have hwait : c.operand? id = none := ((hsame id).2 (begun_start.2 (.inl rfl))).operand?
  have hemit := grows_emitted (i := .binary op ol or (tempName c.code.size) type) hr.legible hwait
    hid fun env henv => by
      rw [Instruction.effect_binary, henv.operand_eq hkept hreadl, henv.operand_eq hor hreadr,
        Expr.value]
  have hall := (hl.toGrows.trans hr.toGrows).trans hemit
  have hout : ((el.outcome.bind fun _ => er.outcome).bind fun _ =>
      (Expr.binary op el er type).outcome) = (Expr.binary op el er type).outcome := by
    simp only [Expr.outcome, Expr.value]
    cases el.value with
    | error err => rfl
    | ok v => cases er.value <;> rfl
  rwa [hout] at hall

end Assembly

namespace Graph

variable {g : Graph} {a : Assembly} {id : NodeId}

/-- What visiting a node comes to, whatever is left to do after it. -/
def Visits (g : Graph) (a : Assembly) (id : NodeId) : Except EvalError Expr → Prop
  | .error e => ∀ rest, g.assemble (.visit id :: rest) a = .error e
  | .ok e => ∃ b : Assembly, (∀ rest, g.assemble (.visit id :: rest) a = g.assemble rest b) ∧
      a.Compiled g b id e

/-- The nodes that wait all need the given node. -/
def Awaited (g : Graph) (a : Assembly) (id : NodeId) : Prop :=
  ∀ q, a.Begun q → Relation.TransGen g.Needs q id

theorem visits_skip {r : Except EvalError Expr} {o : Operand} (hr : g.Reads id r)
    (hleg : a.Legible g) (ho : a.operand? id = some o) : g.Visits a id r := by
  obtain ⟨e, he⟩ := hleg.readable id o ho
  rw [hr.unique he]
  exact ⟨a, fun rest => assemble_skip ho, Assembly.compiled_skip hleg ho he⟩

/-- An operator is visited by visiting its inputs. -/
theorem Awaited.start {x : NodeId} (h : g.Awaited a id) (hx : g.Needs id x) :
    g.Awaited (a.start id) x := by
  intro q hq
  rcases Assembly.begun_start.1 hq with rfl | hq
  · exact .single hx
  · exact (h q hq).tail hx

theorem visits_unary {x : NodeId} {op : UnaryOp} {type : ValueType} {r : Except EvalError Expr}
    (hnew : a.operand? id = none) (hbegun : ¬ a.Begun id)
    (ht : g.term id = .ok (.apply (.unary op x) type)) (hx : g.Reads x r)
    (hv : g.Visits (a.start id) x r) : g.Visits a id (r.map fun e => .unary op e type) := by
  have hstep : ∀ rest, g.assemble (.visit id :: rest) a =
      g.assemble (.visit x :: .emit id (.unary op x) type :: rest) (a.start id) := by
    intro rest
    rw [assemble_expand hnew hbegun ht, expansion_unary, List.append_assoc]
    exact assemble_pending fun o ho => (Assembly.operand?_start hnew).trans ho
  cases r with
  | error e =>
      intro rest
      rw [hstep]
      exact hv _
  | ok e =>
      obtain ⟨b, hb, hc⟩ := hv
      obtain ⟨i, hi, hdone⟩ := Assembly.compiled_unary hnew hbegun hc hx (.unary ht hx)
      refine ⟨b.emitted id i, fun rest => ?_, hdone⟩
      rw [hstep, hb, assemble_emit hi]

theorem visits_binary {l r : NodeId} {op : BinaryOp} {type : ValueType}
    {rl rr : Except EvalError Expr} (hnew : a.operand? id = none) (hbegun : ¬ a.Begun id)
    (ht : g.term id = .ok (.apply (.binary op l r) type)) (hl : g.Reads l rl)
    (hr : g.Reads r rr) (hvl : g.Visits (a.start id) l rl)
    (hvr : ∀ b e, (a.start id).Compiled g b l e → g.Visits b r rr) :
    g.Visits a id (rl.bind fun x => rr.map fun y => .binary op x y type) := by
  have hkept : ∀ {x o}, a.operand? x = some o → (a.start id).operand? x = some o :=
    fun ho => (Assembly.operand?_start hnew).trans ho
  have hstep : ∀ rest, g.assemble (.visit id :: rest) a =
      g.assemble (.visit l :: (pending a r ++ .emit id (.binary op l r) type :: rest))
        (a.start id) := by
    intro rest
    rw [assemble_expand hnew hbegun ht, expansion_binary, List.append_assoc, List.append_assoc]
    exact assemble_pending fun o ho => hkept ho
  cases rl with
  | error e =>
      intro rest
      rw [hstep]
      exact hvl _
  | ok el =>
      obtain ⟨b, hb, hcl⟩ := hvl
      -- The left operand may have compiled the right one, as a node below it.
      have hstep' : ∀ rest, g.assemble (.visit id :: rest) a =
          g.assemble (.visit r :: .emit id (.binary op l r) type :: rest) b := by
        intro rest
        rw [hstep, hb]
        exact assemble_pending fun o ho => hcl.kept (hkept ho)
      have hv := hvr b el hcl
      cases rr with
      | error e =>
          intro rest
          rw [hstep']
          exact hv _
      | ok er =>
          obtain ⟨c, hc, hcr⟩ := hv
          obtain ⟨i, hi, hdone⟩ :=
            Assembly.compiled_binary hnew hbegun hcl hl hcr hr (.binary ht hl hr)
          refine ⟨c.emitted id i, fun rest => ?_, hdone⟩
          rw [hstep', hc, assemble_emit hi]

theorem Reads.visits {r : Except EvalError Expr} (h : g.Reads id r) :
    ∀ a : Assembly, a.Legible g → g.Awaited a id → g.Visits a id r := by
  -- The nodes that wait need `id`, so `id` is not among them: it does not need itself.
  have fresh : ∀ {id r} {a : Assembly}, g.Reads id r → g.Awaited a id → ¬ a.Begun id :=
    fun hr ha hb => hr.not_needs_self (ha _ hb)
  induction h with
  | @fault id e ht =>
      intro a hleg ha
      cases ho : a.operand? id with
      | some o => exact visits_skip (.fault ht) hleg ho
      | none => exact fun rest => assemble_fault ho ht
  | @constant id v ht =>
      intro a hleg ha
      have hr := Reads.constant ht
      cases ho : a.operand? id with
      | some o => exact visits_skip hr hleg ho
      | none =>
          exact ⟨_, fun rest => assemble_constant ho ht,
            Assembly.compiled_constant hleg ho (fresh hr ha) hr⟩
  | @unary id x op type ax ht hx ih =>
      intro a hleg ha
      have hr := Reads.unary ht hx
      cases ho : a.operand? id with
      | some o => exact visits_skip hr hleg ho
      | none =>
          have hneed : g.Needs id x := ⟨_, _, ht, by simp [Application.inputs]⟩
          exact visits_unary ho (fresh hr ha) ht hx
            (ih _ (hleg.start ho) (ha.start hneed))
  | @binary id l r op type al ar ht hl hr ihl ihr =>
      intro a hleg ha
      have hid := Reads.binary ht hl hr
      cases ho : a.operand? id with
      | some o => exact visits_skip hid hleg ho
      | none =>
          have hneedl : g.Needs id l := ⟨_, _, ht, by simp [Application.inputs]⟩
          have hneedr : g.Needs id r := ⟨_, _, ht, by simp [Application.inputs]⟩
          refine visits_binary ho (fresh hid ha) ht hl hr
            (ihl _ (hleg.start ho) (ha.start hneedl)) fun b e hb => ?_
          exact ihr b hb.legible fun q hq => (ha.start hneedr) q ((hb.begun q).1 hq)

/-- The first visit, before anything was met. -/
theorem Reads.visits_empty {r : Except EvalError Expr} (h : g.Reads id r) :
    g.Visits .empty id r := by
  refine h.visits _ ⟨?_, Assembly.readable_empty g⟩ ?_
  · intro x name hx
    simp [Assembly.operand?, Assembly.empty] at hx
  · intro q hq
    simp [Assembly.Begun, Assembly.empty] at hq

theorem Reads.compile_fault {e : EvalError} (h : g.Reads id (.error e)) (out : String) :
    g.compile id out = .error e := by
  rw [Graph.compile, h.visits_empty]
  rfl

/-- The instructions of a node that reads as an expression compute it, into the operand
of the node. -/
theorem Reads.assemble {e : Expr} (h : g.Reads id (.ok e)) :
    ∃ a o, g.assemble [.visit id] .empty = .ok a ∧ a.operand? id = some o ∧
      ∀ env, match e.value with
        | .ok v => ∃ mid, Instruction.runAll a.code.toList env = .ok () mid ∧ o.value mid = .ok v
        | .error err => ∃ env', Instruction.runAll a.code.toList env = .error err env' := by
  obtain ⟨a, ha, hc⟩ := h.visits_empty
  obtain ⟨o, ho⟩ := hc.operand
  obtain ⟨segment, hcode, hrun⟩ := hc.code
  have hsegment : a.code.toList = segment := by rw [hcode]; rfl
  have hagrees : ∀ env, Assembly.empty.Agrees g env := by
    intro env x o e hx
    simp [Assembly.operand?, Assembly.empty] at hx
  refine ⟨a, o, by rw [ha, assemble_nil], ho, fun env => ?_⟩
  rw [hsegment]
  unfold Expr.outcome at hrun
  cases hv : e.value with
  | error err =>
      rw [hv] at hrun
      exact hrun env (hagrees env)
  | ok v =>
      rw [hv] at hrun
      obtain ⟨mid, hmid, hmidagrees⟩ := hrun env (hagrees env)
      exact ⟨mid, hmid, by rw [hmidagrees.operand_eq ho h, hv]⟩

/-- The code of a node that reads as an expression computes it. -/
theorem Reads.compile {e : Expr} (h : g.Reads id (.ok e)) {out : String}
    (hout : ∀ i, tempName i ≠ out) :
    ∃ code, g.compile id out = .ok code ∧ ∀ env, match e.value with
      | .ok v => ∃ env', Instruction.runAll code env = .ok () env' ∧ env'.get? out = some v
      | .error err => ∃ env', Instruction.runAll code env = .error err env' := by
  obtain ⟨a, o, ha, ho, hrun⟩ := h.assemble
  refine ⟨a.code.toList ++ .assign o out :: ((List.range a.code.size).map tempName).map .remove,
    ?_, ?_⟩
  · rw [Graph.compile, ha]
    change (a.operand id id).bind _ = _
    rw [Assembly.operand_of_operand? ho]
    rfl
  intro env
  have hrun := hrun env
  cases hv : e.value with
  | error err =>
      rw [hv] at hrun
      obtain ⟨env', he⟩ := hrun
      exact ⟨env', Instruction.runAll_append_error he⟩
  | ok v =>
      rw [hv] at hrun
      obtain ⟨mid, hmid, hvalue⟩ := hrun
      -- The variables of the operators are removed at the end, and `out` is none of them.
      have hfresh : out ∉ (List.range a.code.size).map tempName := by simp [hout]
      obtain ⟨env', hall, hget⟩ := Instruction.runAll_assign_remove hmid hvalue out
        ((List.range a.code.size).map tempName)
      exact ⟨env', hall, by rw [hget, if_neg hfresh, Env.get?_set, if_pos rfl]⟩

/-- An interpreter answers with the value of the expression, whatever it holds. -/
theorem Reads.evaluate {r : Except EvalError Expr} (h : g.Reads id r) (m : Interpreter) :
    (Interpreter.evaluate g id m).1 = r.bind Expr.value := by
  cases r with
  | error e =>
      rw [Interpreter.evaluate, h.compile_fault]
      rfl
  | ok e =>
      obtain ⟨code, hcode, hrun⟩ := h.compile tempName_ne_resultName
      have hm := hrun m.env
      change _ = e.value
      cases hv : e.value with
      | error err =>
          rw [hv] at hm
          obtain ⟨env', he⟩ := hm
          simp only [Interpreter.evaluate, hcode, Interpreter.execute, Interpreter.load, he]
      | ok v =>
          rw [hv] at hm
          obtain ⟨env', hok, hget⟩ := hm
          simp only [Interpreter.evaluate, hcode, Interpreter.execute, Interpreter.load, hok,
            Env.get, hget]

theorem Reads.execute {r : Except EvalError Expr} (h : g.Reads id r) :
    g.execute id = r.bind Expr.value :=
  h.evaluate .new

end Graph

end OpGraph
