import OpGraph.Proofs.SingleAssignment

/-!
# What a run leaves behind

Compiled code sets one variable for each operator, assigns the result to the requested
variable and removes the variables of the operators again. An instruction touches no
variable but its own (`Instruction.runAll_get?`), so a run that starts without
variables leaves nothing but the result (`Instruction.runAll_leaves`).

The result is lost if the requested variable is called like the variable of an
operator. It is then set twice and removed once, and the run, which has gone well,
leaves nothing at all. Names are not compared when code is made. So the code of a node
leaves its value exactly if the requested name is none of `_Var0`, `_Var1` and so on, up
to the number of its operators (`Graph.run_compiled_leaves_iff`).
-/

namespace OpGraph

namespace Instruction

variable {i : Instruction} {code ops : List Instruction} {env env' mid : Env} {x : String}

theorem exists_of_map_set {r : Except EvalError Value} {out : String}
    (h : r.map (env.set out) = .ok env') : ∃ v, env' = env.set out v := by
  cases r with
  | error e => cases h
  | ok v =>
      cases h
      exact ⟨v, rfl⟩

/-- An instruction sets its own variable or removes it. -/
theorem effect_eq_ok (h : i.effect env = .ok env') :
    (∃ v, env' = env.set i.target v) ∨ env' = env.erase i.target := by
  cases i with
  | unary op input out type =>
      rw [effect_unary] at h
      exact .inl (exists_of_map_set h)
  | binary op left right out type =>
      rw [effect_binary] at h
      exact .inl (exists_of_map_set h)
  | assign input out =>
      obtain ⟨v, -, h⟩ := exists_of_bind_eq_ok h
      cases h
      exact .inl ⟨v, rfl⟩
  | remove name =>
      cases h
      exact .inr rfl

theorem effect_get? (h : i.effect env = .ok env') (hx : x ≠ i.target) :
    env'.get? x = env.get? x := by
  rcases effect_eq_ok h with ⟨v, rfl⟩ | rfl
  · rw [Env.get?_set, if_neg (Ne.symm hx)]
  · rw [Env.get?_erase, if_neg (Ne.symm hx)]

/-- Code leaves the variables alone that none of its instructions is about. -/
theorem runAll_get? (h : runAll code env = .ok () env') (hx : x ∉ code.map target) :
    env'.get? x = env.get? x := by
  induction code generalizing env with
  | nil =>
      cases h
      rfl
  | cons i rest ih =>
      rw [List.map_cons, List.mem_cons, not_or] at hx
      cases hi : i.effect env with
      | error e =>
          rw [runAll_cons_error hi] at h
          cases h
      | ok mid =>
          rw [runAll_cons hi] at h
          rw [ih h hx.2, effect_get? hi hx.1]

/-- Code that assigns a value and then removes what it has set leaves the value behind,
unless it removes that as well. -/
theorem runAll_leaves {o : Operand} {v : Value} (hops : runAll ops .empty = .ok () mid)
    (ho : o.value mid = .ok v) (out : String) :
    runAll (ops ++ .assign o out :: (ops.map target).map .remove) .empty =
      .ok () (if out ∈ ops.map target then .empty else Env.empty.set out v) := by
  obtain ⟨env', hrun, hget⟩ := runAll_assign_remove hops ho out (ops.map target)
  rw [hrun]
  congr 1
  refine Env.ext_get? fun x => ?_
  rw [hget]
  by_cases hx : x ∈ ops.map target
  · rw [if_pos hx]
    split
    · exact (Env.get?_empty x).symm
    · next hout =>
        have hne : out ≠ x := fun heq => hout (heq ▸ hx)
        rw [Env.get?_set, if_neg hne, Env.get?_empty]
  · rw [if_neg hx, Env.get?_set]
    split
    · next heq => rw [if_neg (heq ▸ hx), Env.get?_set, if_pos heq]
    · next hne =>
        rw [runAll_get? hops hx]
        split
        · rfl
        · rw [Env.get?_set, if_neg hne]

end Instruction

theorem Env.empty_ne_set (name : String) (v : Value) : Env.empty ≠ Env.empty.set name v := by
  intro h
  have hget := congrArg (fun env => env.get? name) h
  simp [Env.get?_set] at hget

namespace Graph

variable {g : Graph} {root : NodeId}

/-- A run of the code of a node that goes well computes the value of the node, and then
cleans up. -/
theorem run_of_compile {out : String} {code : List Instruction} {env : Env}
    (hcode : g.compile root out = .ok code)
    (hrun : Instruction.runAll code .empty = .ok () env) :
    ∃ v order ops, g.execute root = .ok v ∧ g.Finishes [root] [] order ∧
      g.Transcribes order ops ∧
      env = if out ∈ ops.map Instruction.target then .empty else Env.empty.set out v := by
  obtain ⟨e, he⟩ := reads_of_compile hcode
  obtain ⟨a, o, ha, ho, hops⟩ := he.assemble
  obtain ⟨a', o', ha', ho', rfl⟩ := of_compile hcode
  cases ha.symm.trans ha'
  cases ho.symm.trans ho'
  obtain ⟨order, hwalk, hrec⟩ := records_of_assemble ha
  have hops := hops .empty
  cases hv : e.value with
  | error err =>
      rw [hv] at hops
      obtain ⟨env', herror⟩ := hops
      rw [Instruction.runAll_append_error herror] at hrun
      cases hrun
  | ok v =>
      rw [hv] at hops
      obtain ⟨mid, hmid, hvalue⟩ := hops
      rw [← hrec.length_eq, ← hrec.code.targets, Instruction.runAll_leaves hmid hvalue] at hrun
      cases hrun
      exact ⟨v, order, _, he.execute.trans hv, hwalk, hrec.code, rfl⟩

/-- A run of the code of a node that goes well leaves the requested variable with the
value of the node and nothing else, exactly if the variable is not called like the
variable of one of its operators. Otherwise it leaves nothing. -/
theorem run_compiled_leaves_iff {out : String} {code : List Instruction} {env : Env}
    (hcode : g.compile root out = .ok code)
    (hrun : Instruction.runAll code .empty = .ok () env) :
    ∃ v order, g.execute root = .ok v ∧ g.Finishes [root] [] order ∧
      (env = Env.empty.set out v ↔ ∀ n < order.length, out ≠ tempName n) ∧
      ((∃ n < order.length, out = tempName n) → env = .empty) := by
  obtain ⟨v, order, ops, hv, hwalk, hops, rfl⟩ := run_of_compile hcode hrun
  have hmem : out ∈ ops.map Instruction.target ↔ ∃ n < order.length, out = tempName n := by
    rw [hops.targets]
    simp [eq_comm]
  refine ⟨v, order, hv, hwalk, ⟨fun henv n hn hout => ?_, fun hout => if_neg fun hin => ?_⟩,
    fun hout => if_pos (hmem.2 hout)⟩
  · rw [if_pos (hmem.2 ⟨n, hn, hout⟩)] at henv
    exact Env.empty_ne_set out v henv
  · obtain ⟨n, hn, heq⟩ := hmem.1 hin
    exact hout n hn heq

/-- The sum of two literals. -/
def twoAndThree : Graph :=
  ⟨#[⟨.literal (.int 2), .int, .scalar, [], [2], false⟩,
    ⟨.literal (.int 3), .int, .scalar, [], [2], false⟩,
    ⟨.binary .plus, .int, .scalar, [0, 1], [], false⟩]⟩

/-- The code of the sum, with its variable `_Var0`. -/
def twoAndThreeInto (out : String) : List Instruction :=
  [.binary .plus (.literal (.int 2)) (.literal (.int 3)) "_Var0" .int,
    .assign (.var "_Var0") out, .remove "_Var0"]

/-- The sum has the value 5. It is left in `_Var1`, and in `_Var0` it is not: that run goes
well too and leaves no variable at all. -/
theorem run_compiled_leaves_iff_twoAndThree :
    twoAndThree.execute 2 = .ok (.int 5) ∧
      twoAndThree.compile 2 "_Var1" = .ok (twoAndThreeInto "_Var1") ∧
      Instruction.runAll (twoAndThreeInto "_Var1") .empty =
        .ok () (Env.empty.set "_Var1" (.int 5)) ∧
      twoAndThree.compile 2 "_Var0" = .ok (twoAndThreeInto "_Var0") ∧
      Instruction.runAll (twoAndThreeInto "_Var0") .empty = .ok () .empty ∧
      Env.empty ≠ Env.empty.set "_Var0" (.int 5) := by
  have hvalue : twoAndThree.execute 2 = .ok (.int 5) := by decide +kernel
  have hleaf : ∀ x, x = 0 ∨ x = 1 → ¬ twoAndThree.IsOperator x := by
    rintro x (rfl | rfl) ⟨l, hl, hop⟩
    · cases hl
      cases hop
    · cases hl
      cases hop
  have hwalk : twoAndThree.Finishes [2] [] [2] :=
    .operator (by decide) ⟨_, rfl, rfl⟩ (.skip (.inr (hleaf 0 (.inl rfl)))
      (.skip (.inr (hleaf 1 (.inr rfl))) .nil)) .nil
  have hcode₁ : twoAndThree.compile 2 "_Var1" = .ok (twoAndThreeInto "_Var1") := by decide +kernel
  have hcode₀ : twoAndThree.compile 2 "_Var0" = .ok (twoAndThreeInto "_Var0") := by decide +kernel
  have hrun : ∀ out, out = "_Var0" ∨ out = "_Var1" →
      ∃ env, Instruction.runAll (twoAndThreeInto out) .empty = .ok () env := by
    rintro out (rfl | rfl)
    · exact ⟨_, rfl⟩
    · exact ⟨_, rfl⟩
  obtain ⟨env₁, hrun₁⟩ := hrun "_Var1" (.inr rfl)
  obtain ⟨env₀, hrun₀⟩ := hrun "_Var0" (.inl rfl)
  obtain ⟨v₁, order₁, hv₁, horder₁, hleft₁, -⟩ := run_compiled_leaves_iff hcode₁ hrun₁
  obtain ⟨v₀, order₀, hv₀, horder₀, -, hlost₀⟩ := run_compiled_leaves_iff hcode₀ hrun₀
  cases hvalue.symm.trans hv₁
  cases hwalk.unique horder₁
  cases hwalk.unique horder₀
  have hfree : ∀ n < [2].length, "_Var1" ≠ tempName n := by decide +kernel
  rw [hleft₁.2 hfree] at hrun₁
  rw [hlost₀ ⟨0, by decide, by decide +kernel⟩] at hrun₀
  exact ⟨hvalue, hcode₁, hrun₁, hcode₀, hrun₀, Env.empty_ne_set _ _⟩

end Graph

end OpGraph
