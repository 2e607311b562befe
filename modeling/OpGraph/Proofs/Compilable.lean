import OpGraph.Proofs.Denotation

/-!
# Which nodes can be compiled

`Graph.compile` works on any graph, with cycles or with numbers that name no node. It
succeeds on a node exactly if everything that it comes to, on the way down through
the inputs of operators, is a scalar literal or a scalar operator with its number of
inputs, and if no operator there takes itself as an operand (`Graph.compile_accepts_iff`).
The inputs of a literal play no part, and neither does sharing.

One half is known: what compiles reads as an expression, and an expression is a tree.
For the other half the work is followed to the error that ends it. The invariant,
`Graph.Underway`, is about the stack of tasks. A node that waits for its inputs has
its instruction on the stack, and takes, through operators, every node that is to be
visited before that instruction (`Task.Awaits`). So a visit to a node that waits has
found a cycle, and it does not matter how often a node stands on the stack. And an
instruction comes after the visits that provide its operands (`Task.Ready`), so no
operand is ever missing.
-/

namespace OpGraph

/-- Whether a node stands for a value that is computed from other values. -/
def NodeKind.isOperator : NodeKind → Bool
  | unary _ | binary _ => true
  | literal _ | data _ _ => false

/-- Whether a node can be computed from so many inputs. A literal leaves its inputs
alone. -/
def NodeKind.Fits : NodeKind → Nat → Prop
  | literal _, _ => True
  | unary _, n => n = 1
  | binary op, n => op.isStructural = false ∧ n = 2
  | data _ _, _ => False

theorem NodeKind.exists_term_iff (kind : NodeKind) (id : NodeId) (type : ValueType)
    (inputs : List NodeId) :
    (∃ t, kind.term id type inputs = .ok t) ↔ kind.Fits inputs.length := by
  cases kind with
  | literal v => exact iff_of_true ⟨_, rfl⟩ trivial
  | data a var =>
      refine iff_of_false ?_ not_false
      rintro ⟨t, ht⟩
      cases ht
  | unary op =>
      rw [Fits, List.length_eq_one_iff]
      constructor
      · rintro ⟨t, ht⟩
        simp only [NodeKind.term] at ht
        split at ht
        · next x => exact ⟨x, rfl⟩
        · cases ht
      · rintro ⟨x, rfl⟩
        exact ⟨_, rfl⟩
  | binary op =>
      rw [Fits, List.length_eq_two]
      constructor
      · rintro ⟨t, ht⟩
        simp only [NodeKind.term] at ht
        split at ht
        · cases ht
        · next hop =>
            split at ht
            · next l r => exact ⟨eq_false_of_ne_true hop, l, r, rfl⟩
            · cases ht
      · rintro ⟨hop, l, r, rfl⟩
        exact ⟨_, by rw [NodeKind.term, hop]; rfl⟩

theorem NodeKind.term_ne_graph {kind : NodeKind} {id : NodeId} {type : ValueType}
    {inputs : List NodeId} {e : GraphError} : kind.term id type inputs ≠ .error (.graph e) := by
  cases kind with
  | literal v => simp [NodeKind.term]
  | data a var => simp [NodeKind.term]
  | unary op =>
      simp only [NodeKind.term]
      split <;> simp
  | binary op =>
      simp only [NodeKind.term]
      split
      · simp
      · split <;> simp

namespace Graph

variable {g : Graph} {id x root : NodeId}

/-- An operator has a node among its inputs. Nothing is asked of the operator but to
be one. -/
def Takes (g : Graph) (id x : NodeId) : Prop :=
  (∃ l, g.label? id = some l ∧ l.kind.isOperator = true) ∧ x ∈ g.inputsOf id

/-- A scalar node that is a literal, or an operator with its number of inputs. -/
def Computable (g : Graph) (id : NodeId) : Prop :=
  ∃ kind type, g.label? id = some ⟨kind, type, .scalar⟩ ∧ kind.Fits (g.inputsOf id).length

theorem exists_term_iff : (∃ t, g.term id = .ok t) ↔ g.Computable id := by
  constructor
  · rintro ⟨t, ht⟩
    obtain ⟨kind, type, hl, hkind⟩ := scalar_of_term ht
    exact ⟨kind, type, hl, (kind.exists_term_iff id type _).1 ⟨t, hkind⟩⟩
  · rintro ⟨kind, type, hl, hfits⟩
    obtain ⟨t, ht⟩ := (kind.exists_term_iff id type _).2 hfits
    refine ⟨t, ?_⟩
    rw [term_eq, hl]
    exact (if_pos rfl).trans ht

/-- A node on its own is no reason to speak of a cycle. -/
theorem term_ne_cycle {c : NodeId} : g.term id ≠ .error (.graph (.cycle c)) := by
  rw [term_eq]
  split
  · simp
  · next l _ =>
      split
      · exact NodeKind.term_ne_graph
      · simp

theorem Needs.takes (h : g.Needs id x) : g.Takes id x := by
  obtain ⟨call, type, ht, hx⟩ := h
  obtain ⟨hl, hinputs⟩ := label_of_apply ht
  exact ⟨⟨_, hl, by cases call <;> rfl⟩, hinputs ▸ hx⟩

/-- What a node takes it needs, if it can be computed from its inputs. -/
theorem Takes.needs {t : Term} (h : g.Takes id x) (ht : g.term id = .ok t) : g.Needs id x := by
  obtain ⟨⟨l, hl, hop⟩, hx⟩ := h
  cases t with
  | constant v =>
      obtain ⟨type, hl'⟩ := label_of_constant ht
      rw [hl] at hl'
      cases hl'
      cases hop
  | apply call type => exact ⟨call, type, ht, inputs_of_term ht ▸ hx⟩

/-! ## What compiles -/

theorem Reads.of_needs {e : Expr} (h : g.Reads id (.ok e)) (hx : g.Needs id x) :
    ∃ e', g.Reads x (.ok e') := by
  obtain ⟨call, type, ht, hx⟩ := hx
  cases call with
  | unary op y =>
      obtain ⟨ey, -, hy⟩ := h.of_unary ht
      exact List.mem_singleton.1 hx ▸ ⟨ey, hy⟩
  | binary op l r =>
      obtain ⟨el, er, -, hl, hr⟩ := h.of_binary ht
      rcases List.mem_pair.1 hx with rfl | rfl
      · exact ⟨el, hl⟩
      · exact ⟨er, hr⟩

theorem Reads.of_takes {e : Expr} (h : g.Reads id (.ok e)) (hx : g.Takes id x) :
    g.Needs id x ∧ ∃ e', g.Reads x (.ok e') := by
  obtain ⟨t, ht⟩ := h.exists_term
  have hneeds := hx.needs ht
  exact ⟨hneeds, h.of_needs hneeds⟩

/-- Below a node that reads as an expression, every node does. -/
theorem Reads.of_below {e : Expr} (h : g.Reads root (.ok e))
    (hbelow : Relation.ReflTransGen g.Takes root id) : ∃ e', g.Reads id (.ok e') := by
  induction hbelow with
  | refl => exact ⟨e, h⟩
  | tail _ hx ih =>
      obtain ⟨e', h'⟩ := ih
      exact (h'.of_takes hx).2

theorem Reads.not_takes_self {e : Expr} (h : g.Reads id (.ok e)) :
    ¬ Relation.TransGen g.Takes id id := by
  -- On the way round every node reads as an expression, so it needs what it takes.
  have hneeds : ∀ {x}, Relation.TransGen g.Takes id x → Relation.TransGen g.Needs id x := by
    intro x hx
    induction hx with
    | single hstep => exact .single (h.of_takes hstep).1
    | tail hbelow hstep ih =>
        obtain ⟨e', h'⟩ := h.of_below hbelow.to_reflTransGen
        exact ih.tail (h'.of_takes hstep).1
  exact fun hcycle => h.not_needs_self (hneeds hcycle)

end Graph

/-! ## The tasks that are left -/

namespace Assembly

variable {a b : Assembly} {id x : NodeId} {call : Application} {type : ValueType}

/-- There is an operand for the node. -/
def Known (a : Assembly) (x : NodeId) : Prop := (a.operand? x).isSome = true

theorem known_define {o : Operand} : (a.define id o).Known x ↔ a.Known x ∨ x = id := by
  rw [Known, operand?_define]
  by_cases h : id = x
  · simp [h]
  · simp [h, Ne.symm h, Known]

theorem known_start (hid : ¬ a.Known id) : (a.start id).Known x ↔ a.Known x := by
  rw [Known, operand?_start (by simpa [Known] using hid), Known]

theorem known_emitted {i : Instruction} : (a.emitted id i).Known x ↔ a.Known x ∨ x = id := by
  rw [Known, operand?_emitted]
  by_cases h : id = x
  · simp [h]
  · simp [h, Ne.symm h, Known]

theorem Begun.not_known (h : a.Begun id) : ¬ a.Known id := by
  simp [Known, h.operand?]

/-- When all inputs have operands, the instruction can be written. -/
theorem exists_instruction (h : ∀ x ∈ call.inputs, a.Known x) (id : NodeId) (type : ValueType)
    (out : String) : ∃ i, a.instruction id call type out = .ok i := by
  have hoperand : ∀ x ∈ call.inputs, ∃ o, a.operand id x = .ok o := by
    intro x hx
    obtain ⟨o, ho⟩ := Option.isSome_iff_exists.1 (h x hx)
    exact ⟨o, operand_of_operand? ho⟩
  cases call with
  | unary op x =>
      obtain ⟨o, ho⟩ := hoperand x (by simp [Application.inputs])
      exact ⟨_, by rw [instruction, ho]; rfl⟩
  | binary op l r =>
      obtain ⟨o, ho⟩ := hoperand l (by simp [Application.inputs])
      obtain ⟨o', ho'⟩ := hoperand r (by simp [Application.inputs])
      exact ⟨_, by rw [instruction, ho, ho']; rfl⟩

end Assembly

namespace Task

/-- The node that has an operand when the task is done. -/
def target : Task → NodeId
  | visit id => id
  | emit id _ _ => id

/-- Operands are there when an instruction is written, if they are there for the known
nodes now. -/
def Ready (known : NodeId → Prop) : List Task → Prop
  | [] => True
  | visit id :: rest => Ready (fun x => known x ∨ x = id) rest
  | emit id call _ :: rest =>
      (∀ x ∈ call.inputs, known x) ∧ Ready (fun x => known x ∨ x = id) rest

theorem Ready.mono {tasks : List Task} {known more : NodeId → Prop} (h : Ready known tasks)
    (hsub : ∀ x, known x → more x) : Ready more tasks := by
  induction tasks generalizing known more with
  | nil => trivial
  | cons t rest ih =>
      cases t with
      | visit id =>
          have hrest : Ready (fun x => known x ∨ x = id) rest := h
          exact ih hrest fun x => Or.imp_left (hsub x)
      | emit id call type =>
          exact ⟨fun x hx => hsub x (h.1 x hx), ih h.2 fun x => Or.imp_left (hsub x)⟩

theorem Ready.tail {t : Task} {rest : List Task} {known : NodeId → Prop}
    (h : Ready known (t :: rest)) : Ready (fun x => known x ∨ x = t.target) rest := by
  cases t with
  | visit id => exact h
  | emit id call type => exact h.2

/-- Visits make their nodes known. -/
theorem ready_visits {tasks : List Task} {xs : List NodeId} {known : NodeId → Prop}
    (h : Ready (fun x => known x ∨ x ∈ xs) tasks) : Ready known (xs.map visit ++ tasks) := by
  induction xs generalizing known with
  | nil => exact h.mono fun x hx => hx.resolve_right List.not_mem_nil
  | cons y ys ih =>
      have hrest : Ready (fun x => (known x ∨ x = y) ∨ x ∈ ys) tasks := h.mono fun x hx => by
        rcases hx with hx | hx
        · exact .inl (.inl hx)
        · rcases List.mem_cons.1 hx with rfl | hx
          · exact .inl (.inr rfl)
          · exact .inr hx
      exact ih hrest

/-- A node whose instruction comes later takes the node that is visited earlier. -/
def Awaits (g : Graph) : Task → Task → Prop
  | visit x, emit p _ _ => Relation.TransGen g.Needs p x
  | _, _ => True

end Task

namespace Graph

variable {g : Graph} {a b : Assembly} {id root : NodeId} {call : Application} {type : ValueType}
  {tasks rest : List Task}

/-- What holds between two tasks of the work on a root. -/
structure Underway (g : Graph) (root : NodeId) (a : Assembly) (tasks : List Task) : Prop where
  emits : g.Emits tasks
  below : ∀ t ∈ tasks, Relation.ReflTransGen g.Needs root t.target
  waiting : ∀ p, a.Begun p → ∃ call type, Task.emit p call type ∈ tasks
  awaited : tasks.Pairwise (Task.Awaits g)
  ready : Task.Ready a.Known tasks

theorem Underway.start (g : Graph) (root : NodeId) : g.Underway root .empty [.visit root] where
  emits := g.emits_visit root
  below t ht := by
    cases List.mem_singleton.1 ht
    exact .refl
  waiting p hp := by simp [Assembly.Begun, Assembly.empty] at hp
  awaited := List.pairwise_singleton _ _
  ready := trivial

/-- The first task is done, and its node has an operand. -/
theorem Underway.next {t : Task} (h : g.Underway root a (t :: rest))
    (hbegun : ∀ p, b.Begun p → a.Begun p) (hknown : ∀ x, a.Known x ∨ x = t.target → b.Known x) :
    g.Underway root b rest where
  emits := h.emits.tail
  below u hu := h.below u (.tail _ hu)
  waiting p hp := by
    obtain ⟨c, ty, hmem⟩ := h.waiting p (hbegun p hp)
    rcases List.mem_cons.1 hmem with rfl | hmem
    · exact absurd (hknown p (.inr rfl)) hp.not_known
    · exact ⟨c, ty, hmem⟩
  awaited := (List.pairwise_cons.1 h.awaited).2
  ready := h.ready.tail.mono hknown

theorem expansion_append : expansion a id call type ++ rest =
    (call.inputs.filter fun x => (a.operand? x).isNone).map .visit ++
      .emit id call type :: rest := by
  rw [expansion, List.append_assoc, List.singleton_append]

/-- An operator makes room for its inputs. -/
theorem Underway.expand (h : g.Underway root a (.visit id :: rest)) (hid : ¬ a.Known id)
    (ht : g.term id = .ok (.apply call type)) :
    g.Underway root (a.start id) (expansion a id call type ++ rest) := by
  have hneeds : ∀ x ∈ call.inputs, g.Needs id x := fun x hx => ⟨call, type, ht, hx⟩
  have hbelow : Relation.ReflTransGen g.Needs root id := h.below _ (.head _)
  obtain ⟨hawaited, hpairs⟩ := List.pairwise_cons.1 h.awaited
  refine ⟨h.emits.tail.expansion ht, fun t hmem => ?_, fun p hp => ?_, ?_, ?_⟩
  · rw [expansion_append] at hmem
    rcases List.mem_append.1 hmem with hvisit | hmem
    · obtain ⟨x, hx, rfl⟩ := List.mem_map.1 hvisit
      exact hbelow.tail (hneeds x (List.mem_of_mem_filter hx))
    · rcases List.mem_cons.1 hmem with rfl | hmem
      · exact hbelow
      · exact h.below t (.tail _ hmem)
  · rw [expansion_append]
    rcases Assembly.begun_start.1 hp with rfl | hp
    · exact ⟨call, type, by simp⟩
    · obtain ⟨c, ty, hmem⟩ := h.waiting p hp
      have hmem : Task.emit p c ty ∈ rest := by simpa using hmem
      exact ⟨c, ty, by simp [hmem]⟩
  · rw [expansion_append, List.pairwise_append]
    refine ⟨?_, List.pairwise_cons.2 ⟨fun _ _ => trivial, hpairs⟩, fun t ht u hu => ?_⟩
    · exact List.pairwise_map.2 (List.pairwise_of_forall fun _ _ => trivial)
    · obtain ⟨x, hx, rfl⟩ := List.mem_map.1 ht
      have hx := hneeds x (List.mem_of_mem_filter hx)
      rcases List.mem_cons.1 hu with rfl | hu
      · exact Relation.TransGen.single hx
      · -- What waits for the operator waits for its inputs.
        have hlater := hawaited u hu
        cases u with
        | visit y => trivial
        | emit p c ty => exact Relation.TransGen.tail hlater hx
  · rw [expansion_append]
    refine Task.ready_visits ⟨fun x hx => ?_, h.ready.tail.mono fun x hx => ?_⟩
    · by_cases hknown : a.Known x
      · exact .inl ((Assembly.known_start hid).2 hknown)
      · exact .inr (List.mem_filter.2 ⟨hx, by simpa [Assembly.Known] using hknown⟩)
    · rcases hx with hx | rfl
      · exact .inl (.inl ((Assembly.known_start hid).2 hx))
      · exact .inr rfl

/-- What an error can blame: a node that cannot be computed, or one that takes itself. -/
def Obstructs (g : Graph) (root : NodeId) (e : EvalError) (id : NodeId) : Prop :=
  Relation.ReflTransGen g.Needs root id ∧
    (g.term id = .error e ∨ e = .graph (.cycle id) ∧ Relation.TransGen g.Needs id id)

theorem assemble_obstructed {e : EvalError} (h : g.Underway root a tasks)
    (hrun : g.assemble tasks a = .error e) : ∃ id, g.Obstructs root e id := by
  fun_induction g.assemble tasks a with
  | case1 a => cases hrun
  | case2 a id rest ho ih =>
      refine ih (h.next (fun _ hp => hp) fun x hx => ?_) hrun
      rcases hx with hx | rfl
      · exact hx
      · exact ho
  | case3 a id rest ho e' ht =>
      cases hrun
      exact ⟨id, h.below _ (.head _), .inl ht⟩
  | case4 a id rest ho v ht ih =>
      exact ih (h.next (fun _ hp => (Assembly.begun_define.1 hp).2)
        fun x hx => Assembly.known_define.2 hx) hrun
  | case5 a id rest ho call type ht hmet =>
      cases hrun
      -- The node waits, so its instruction is on the stack below this visit.
      obtain ⟨c, ty, hmem⟩ :=
        h.waiting id (Assembly.begun_of_contains (by simpa using ho) hmet)
      have hmem : Task.emit id c ty ∈ rest := by simpa using hmem
      exact ⟨id, h.below _ (.head _), .inr ⟨rfl, (List.pairwise_cons.1 h.awaited).1 _ hmem⟩⟩
  | case6 a id rest ho call type ht hmet ih => exact ih (h.expand ho ht) hrun
  | case7 a id call type rest e' hemit =>
      obtain ⟨i, hi⟩ := Assembly.exists_instruction h.ready.1 id type (tempName a.code.size)
      rw [Assembly.emit, hi] at hemit
      cases hemit
  | case8 a id call type rest b hemit ih =>
      obtain ⟨i, -, rfl⟩ := Assembly.emitted_of_emit hemit
      exact ih (h.next (fun _ hp => (Assembly.begun_emitted.1 hp).2)
        fun x hx => Assembly.known_emitted.2 hx) hrun

/-- When no task is left, every node that a task was about has an operand. -/
theorem known_of_assemble (hrun : g.assemble tasks a = .ok b) :
    (∀ x, a.Known x → b.Known x) ∧ ∀ t ∈ tasks, b.Known t.target := by
  fun_induction g.assemble tasks a with
  | case1 a =>
      cases hrun
      exact ⟨fun _ hx => hx, by simp⟩
  | case2 a id rest ho ih =>
      obtain ⟨hkept, htargets⟩ := ih hrun
      exact ⟨hkept, List.forall_mem_cons.2 ⟨hkept id ho, htargets⟩⟩
  | case3 a id rest ho e ht => cases hrun
  | case4 a id rest ho v ht ih =>
      obtain ⟨hkept, htargets⟩ := ih hrun
      exact ⟨fun x hx => hkept x (Assembly.known_define.2 (.inl hx)),
        List.forall_mem_cons.2 ⟨hkept id (Assembly.known_define.2 (.inr rfl)), htargets⟩⟩
  | case5 a id rest ho call type ht hmet => cases hrun
  | case6 a id rest ho call type ht hmet ih =>
      obtain ⟨hkept, htargets⟩ := ih hrun
      rw [expansion_append] at htargets
      refine ⟨fun x hx => hkept x ((Assembly.known_start ho).2 hx), List.forall_mem_cons.2 ⟨?_, ?_⟩⟩
      · exact htargets (.emit id call type) (by simp)
      · exact fun t hmem => htargets t (by simp [hmem])
  | case7 a id call type rest e hemit => cases hrun
  | case8 a id call type rest b' hemit ih =>
      obtain ⟨i, -, rfl⟩ := Assembly.emitted_of_emit hemit
      obtain ⟨hkept, htargets⟩ := ih hrun
      exact ⟨fun x hx => hkept x (Assembly.known_emitted.2 (.inl hx)),
        List.forall_mem_cons.2 ⟨hkept id (Assembly.known_emitted.2 (.inr rfl)), htargets⟩⟩

/-- A node that does not compile has something below it that is to blame. -/
theorem compile_obstructed {e : EvalError} {out : String} (h : g.compile root out = .error e) :
    ∃ id, g.Obstructs root e id := by
  rw [Graph.compile] at h
  cases hrun : g.assemble [.visit root] .empty with
  | error e' =>
      rw [hrun] at h
      cases h
      exact assemble_obstructed (Underway.start g root) hrun
  | ok a =>
      rw [hrun] at h
      have hroot : a.Known root := (known_of_assemble hrun).2 (.visit root) (.head _)
      obtain ⟨o, ho⟩ := Option.isSome_iff_exists.1 hroot
      change (a.operand root root).bind _ = _ at h
      rw [Assembly.operand_of_operand? ho] at h
      cases h

/-- A node compiles exactly if everything that it takes, through operators, can be
computed from its inputs, and no operator on the way takes itself. An error that
speaks of a cycle names an operator that does. -/
theorem compile_accepts_iff (g : Graph) (root : NodeId) (out : String) :
    ((∃ code, g.compile root out = .ok code) ↔
      (∀ id, Relation.ReflTransGen g.Takes root id → g.Computable id) ∧
        ∀ id, Relation.ReflTransGen g.Takes root id → ¬ Relation.TransGen g.Takes id id) ∧
      ∀ c, g.compile root out = .error (.graph (.cycle c)) →
        Relation.ReflTransGen g.Takes root c ∧ Relation.TransGen g.Takes c c := by
  have hbelow : ∀ {id}, Relation.ReflTransGen g.Needs root id →
      Relation.ReflTransGen g.Takes root id :=
    Relation.ReflTransGen.mono (fun _ _ => Needs.takes) _ _
  have hcycle : ∀ {id}, Relation.TransGen g.Needs id id → Relation.TransGen g.Takes id id :=
    Relation.TransGen.mono (fun _ _ => Needs.takes) _ _
  refine ⟨⟨?_, ?_⟩, fun c hc => ?_⟩
  · rintro ⟨code, hcode⟩
    obtain ⟨e, he⟩ := reads_of_compile hcode
    refine ⟨fun id hid => ?_, fun id hid => ?_⟩
    · obtain ⟨e', he'⟩ := he.of_below hid
      exact exists_term_iff.1 he'.exists_term
    · obtain ⟨e', he'⟩ := he.of_below hid
      exact he'.not_takes_self
  · rintro ⟨hcomputable, hacyclic⟩
    cases hcompile : g.compile root out with
    | ok code => exact ⟨code, rfl⟩
    | error e =>
        exfalso
        obtain ⟨id, hid, hfault | ⟨-, hself⟩⟩ := compile_obstructed hcompile
        · obtain ⟨t, ht⟩ := exists_term_iff.2 (hcomputable id (hbelow hid))
          rw [hfault] at ht
          cases ht
        · exact hacyclic id (hbelow hid) (hcycle hself)
  · obtain ⟨id, hid, hfault | ⟨heq, hself⟩⟩ := compile_obstructed hc
    · exact absurd hfault term_ne_cycle
    · cases heq
      exact ⟨hbelow hid, hcycle hself⟩

/-- The square of a sum whose literal has the square among its inputs, and two
negations that are each other's input. -/
def squareAboveItself : Graph :=
  ⟨#[⟨.literal (.int 3), .int, .scalar, [2], [1, 1], false⟩,
    ⟨.binary .plus, .int, .scalar, [0, 0], [2, 2], false⟩,
    ⟨.binary .times, .int, .scalar, [1, 1], [0], false⟩,
    ⟨.unary .not, .boolean, .scalar, [4], [4], false⟩,
    ⟨.unary .not, .boolean, .scalar, [3], [3], false⟩]⟩

/-- The square compiles, although it lies below itself and its operands are shared. The
negations do not. -/
theorem compile_accepts_iff_squareAboveItself :
    (∃ code, squareAboveItself.compile 2 "x" = .ok code) ∧
      Relation.TransGen squareAboveItself.Holds 2 2 ∧
      (∀ id, Relation.ReflTransGen squareAboveItself.Takes 2 id →
        squareAboveItself.Computable id ∧ ¬ Relation.TransGen squareAboveItself.Takes id id) ∧
      squareAboveItself.compile 3 "x" = .error (.graph (.cycle 3)) ∧
      Relation.TransGen squareAboveItself.Takes 3 3 := by
  have hcycle : squareAboveItself.compile 3 "x" = .error (.graph (.cycle 3)) := by decide +kernel
  have hok : ∃ code, squareAboveItself.compile 2 "x" = .ok code := by
    cases hcode : squareAboveItself.compile 2 "x" with
    | ok code => exact ⟨code, rfl⟩
    | error e =>
        have hisOk : (squareAboveItself.compile 2 "x").isOk = true := by decide +kernel
        rw [hcode] at hisOk
        cases hisOk
  have hstep : ∀ p c, c ∈ squareAboveItself.inputsOf p → squareAboveItself.Holds p c :=
    fun _ _ h => h
  obtain ⟨hcomputable, hacyclic⟩ := (compile_accepts_iff squareAboveItself 2 "x").1.1 hok
  exact ⟨hok,
    ((Relation.TransGen.single (hstep 2 1 (by decide))).tail (hstep 1 0 (by decide))).tail
      (hstep 0 2 (by decide)),
    fun id hid => ⟨hcomputable id hid, hacyclic id hid⟩, hcycle,
    ((compile_accepts_iff squareAboveItself 3 "x").2 3 hcycle).2⟩

end Graph

end OpGraph
