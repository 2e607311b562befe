import OpGraph.Proofs.Settling

/-!
# What a pass asks, and in which order

A rule may be watched: `NodeRule.watched` does what the rule does and notes, in
its memory, every node that it is handed, with the graph as it is then. In the
same way `Evaluator.watched` notes every node that is to be evaluated. Watching
changes nothing. A pass never looks into the memory of its rule, so a pass of
the watched rule and a pass of the rule go through the same steps, and the two
differ in their memories only (`Mirrors`).

What is noted in a pass of constant folding can then be compared with the order
in which `Graph.postorder` lists the nodes below the roots: the nodes that are
handed over are these, in this order, and the nodes that are evaluated are some
of them. The marks that earlier passes have left play no part, and neither do
the answers of the evaluator.
-/

namespace OpGraph

/-- A memory, and the questions that came with it so far, the first one first. -/
structure Watched (σ : Type) where
  memory : σ
  asked : List (Graph × NodeId)

namespace Watched

variable {σ : Type}

def start (memory : σ) : Watched σ := ⟨memory, []⟩

/-- The nodes that were asked about. -/
def ids (m : Watched σ) : List NodeId := m.asked.map Prod.snd

def note (m : Watched σ) (g : Graph) (id : NodeId) (memory : σ) : Watched σ :=
  ⟨memory, m.asked ++ [(g, id)]⟩

theorem ids_note (m : Watched σ) (g : Graph) (id : NodeId) (memory : σ) :
    (m.note g id memory).ids = m.ids ++ [id] := by
  simp [ids, note]

end Watched

/-- A rule that notes the nodes it is handed. -/
def NodeRule.watched {σ : Type} (rule : NodeRule σ) : NodeRule (Watched σ) := fun g id tally m =>
  let answer := rule g id tally m.memory
  (answer.1, answer.2.1, m.note g id answer.2.2)

/-- An evaluator that notes the nodes it is asked about. -/
def Evaluator.watched {σ : Type} (evaluate : Evaluator σ) : Evaluator (Watched σ) := fun g id m =>
  let answer := evaluate g id m.memory
  (answer.1, m.note g id answer.2)

/-! ## Passes that differ in their memories -/

section Mirrors

variable {σ τ α β : Type} {f : σ → τ} {rule : NodeRule σ} {rule' : NodeRule τ}

/-- A rule that answers as another one does, with another memory. -/
def NodeRule.Mirrors (f : σ → τ) (rule : NodeRule σ) (rule' : NodeRule τ) : Prop :=
  ∀ g id t m, rule' g id t (f m) = ((rule g id t m).1, (rule g id t m).2.1, f (rule g id t m).2.2)

/-- An evaluator that answers as another one does, with another memory. -/
def Evaluator.Mirrors (f : σ → τ) (evaluate : Evaluator σ) (evaluate' : Evaluator τ) : Prop :=
  ∀ g id m, evaluate' g id (f m) = ((evaluate g id m).1, f (evaluate g id m).2)

def Session.through (f : σ → τ) (s : Session σ) : Session τ := ⟨s.graph, s.tally, f s.memory⟩

namespace Pass

def through (f : σ → τ) (p : Pass σ) : Pass τ := ⟨p.toSession.through f, p.substitutes⟩

def outcomeThrough (f : σ → τ) :
    EStateM.Result GraphError (Pass σ) α → EStateM.Result GraphError (Pass τ) α
  | .ok a p => .ok a (p.through f)
  | .error e p => .error e (p.through f)

/-- A part of a pass that does what another one does, with another memory. -/
def Mirrors (f : σ → τ) (x : PassM σ α) (y : PassM τ α) : Prop :=
  ∀ p, y (p.through f) = outcomeThrough f (x p)

theorem Mirrors.bind {x : PassM σ α} {y : PassM τ α} {next : α → PassM σ β} {next' : α → PassM τ β}
    (hxy : Mirrors f x y) (hnext : ∀ a, Mirrors f (next a) (next' a)) :
    Mirrors f (x >>= next) (y >>= next') := by
  intro p
  have hy := hxy p
  cases hx : x p with
  | ok a q =>
      rw [hx] at hy
      rw [bind_ok hx, bind_ok hy]
      exact hnext a q
  | error e q =>
      rw [hx] at hy
      rw [bind_error hx, bind_error hy]
      rfl

theorem mirrors_edit (e : Edit α) : Mirrors f (edit e) (edit e) := by
  intro p
  have hgraph : (p.through f).graph = p.graph := rfl
  rw [edit, edit, hgraph]
  cases e p.graph <;> rfl

theorem mirrors_consult (h : rule.Mirrors f rule') (id : NodeId) :
    Mirrors f (consult rule id) (consult rule' id) := by
  intro p
  have hanswer : rule' (p.through f).graph id (p.through f).tally (p.through f).memory = _ :=
    h p.graph id p.tally p.memory
  rw [consult, consult, hanswer]
  rcases rule p.graph id p.tally p.memory with ⟨verdict, t, m⟩
  cases verdict <;> rfl

theorem mirrors_settle (id new : NodeId) : Mirrors f (settle id new) (settle id new) := by
  unfold settle
  by_cases hself : new = id
  · rw [if_pos hself, if_pos hself]
    exact (mirrors_edit _).bind fun _ _ => rfl
  · rw [if_neg hself, if_neg hself]
    refine (mirrors_edit _).bind fun _ => (mirrors_edit _).bind fun _ => (mirrors_edit _).bind
      fun _ => ?_
    exact Mirrors.bind (fun _ => rfl) fun _ => (mirrors_edit _).bind fun _ _ => rfl

theorem mirrors_finish (h : rule.Mirrors f rule') (id : NodeId) :
    Mirrors f (finish rule id) (finish rule' id) := by
  refine Mirrors.bind (fun _ => rfl) fun _ => (mirrors_consult h id).bind fun verdict => ?_
  cases verdict with
  | keep => exact mirrors_settle id id
  | use new => exact mirrors_settle id new
  | literal v => exact (mirrors_edit _).bind fun new => mirrors_settle id new

theorem mirrors_walk (h : rule.Mirrors f rule') : ∀ (limit : Nat) (stack : List (NodeId × Nat))
    (last : NodeId), Mirrors f (walk rule limit stack last) (walk rule' limit stack last) := by
  intro limit
  induction limit with
  | zero =>
      intro stack last
      cases stack <;> exact fun _ => rfl
  | succ limit ih =>
      intro stack last
      rcases stack with _ | ⟨⟨id, slot⟩, rest⟩
      · exact fun _ => rfl
      · refine (mirrors_edit _).bind fun n => ?_
        cases n.inputs[slot]? with
        | some child =>
            refine (mirrors_edit _).bind fun c => ?_
            by_cases hvisited : c.visited = true
            · rw [if_pos hvisited, if_pos hvisited]
              exact ih _ _
            · rw [if_neg hvisited, if_neg hvisited]
              exact ih _ _
        | none => exact (mirrors_finish h id).bind fun new => ih _ _

theorem mirrors_visit (h : rule.Mirrors f rule') (limit : Nat) (root : NodeId) :
    Mirrors f (visit rule limit root) (visit rule' limit root) := by
  refine (mirrors_edit _).bind fun n => ?_
  by_cases hvisited : n.visited = true
  · rw [if_pos hvisited, if_pos hvisited]
    exact fun _ => rfl
  · rw [if_neg hvisited, if_neg hvisited]
    exact mirrors_walk h limit _ _

theorem mirrors_visitAll (h : rule.Mirrors f rule') (limit : Nat) : ∀ roots : List NodeId,
    Mirrors f (visitAll rule limit roots) (visitAll rule' limit roots)
  | [] => fun _ => rfl
  | root :: rest => (mirrors_visit h limit root).bind fun _ =>
      (mirrors_visitAll h limit rest).bind fun _ _ => rfl

theorem mirrors_overRoots (h : rule.Mirrors f rule') (roots : List NodeId) :
    Mirrors f (overRoots rule roots) (overRoots rule' roots) := by
  have hstart : Mirrors f (start roots) (start roots) :=
    (mirrors_edit _).bind fun _ _ => rfl
  exact hstart.bind fun limit => mirrors_visitAll h limit roots

end Pass

/-- The state that a run leaves, whether it went through or was refused. -/
def stateAfter {ε : Type} : EStateM.Result ε σ α → σ
  | .ok _ s => s
  | .error _ s => s

def Session.outcomeThrough (f : σ → τ) :
    EStateM.Result GraphError (Session σ) α → EStateM.Result GraphError (Session τ) α
  | .ok a s => .ok a (s.through f)
  | .error e s => .error e (s.through f)

/-- A rule that is applied with another memory comes to the same end. -/
theorem NodeRule.Mirrors.applyRoots_eq (h : rule.Mirrors f rule') (roots : List NodeId)
    (s : Session σ) :
    rule'.applyRoots roots (s.through f) = Session.outcomeThrough f (rule.applyRoots roots s) := by
  have hpass : Pass.overRoots rule' roots ⟨s.through f, []⟩ = _ :=
    Pass.mirrors_overRoots h roots ⟨s, []⟩
  rw [applyRoots_eq_run, applyRoots_eq_run, Pass.run, Pass.run, hpass]
  cases Pass.overRoots rule roots ⟨s, []⟩ <;> rfl

/-- A rule that was applied, applied with another memory. -/
theorem NodeRule.Mirrors.applyRoots (h : rule.Mirrors f rule') {roots news : List NodeId}
    {s s' : Session σ} (hrun : rule.applyRoots roots s = .ok news s') :
    rule'.applyRoots roots (s.through f) = .ok news (s'.through f) := by
  rw [h.applyRoots_eq, hrun]
  rfl

end Mirrors

/-! ## What is noted in a pass -/

section Watched

variable {σ : Type}

theorem NodeRule.mirrors_watched (rule : NodeRule σ) :
    rule.watched.Mirrors Watched.memory rule := fun _ _ _ _ => rfl

theorem Evaluator.mirrors_watched (evaluate : Evaluator σ) :
    evaluate.watched.Mirrors Watched.memory evaluate := fun _ _ _ => rfl

theorem NodeRule.Mirrors.watched {τ : Type} {f : σ → τ} {rule : NodeRule σ} {rule' : NodeRule τ}
    (h : rule.Mirrors f rule') : rule.watched.Mirrors (fun m => f m.memory) rule' :=
  fun g id t m => h g id t m.memory

theorem Pass.PutsLiterals.watched {rule : NodeRule σ} (h : Pass.PutsLiterals rule) :
    Pass.PutsLiterals rule.watched := fun g id t m => h g id t m.memory

theorem Pass.Finished.exists_answer {rule : NodeRule σ} {p p' : Pass σ} {id : NodeId}
    (h : Pass.Finished rule p id p') :
    ∃ v, rule p.graph id p.tally.countVisit p.memory = (.ok v, p'.tally, p'.memory) := by
  cases h with
  | keep hanswer | literal v hanswer => exact ⟨_, hanswer⟩

namespace Folding

theorem literal_watched (evaluate : Evaluator σ) (g : Graph) (id : NodeId) (type : ValueType)
    (m : Watched σ) : literal evaluate.watched g id type m =
      ((literal evaluate g id type m.memory).1,
        m.note g id (literal evaluate g id type m.memory).2) := by
  unfold literal Evaluator.watched
  rcases evaluate g id m.memory with ⟨result, m'⟩
  cases result <;> rfl

theorem literal_mirrors {τ : Type} {f : σ → τ} {evaluate : Evaluator σ} {evaluate' : Evaluator τ}
    (h : evaluate.Mirrors f evaluate') (g : Graph) (id : NodeId) (type : ValueType) (m : σ) :
    literal evaluate' g id type (f m) =
      ((literal evaluate g id type m).1, f (literal evaluate g id type m).2) := by
  unfold literal
  rw [h g id m]
  rcases evaluate g id m with ⟨result, m'⟩
  cases result <;> rfl

/-- Evaluators that answer alike make rules that answer alike. -/
theorem mirrors_node {τ : Type} {f : σ → τ} {evaluate : Evaluator σ} {evaluate' : Evaluator τ}
    (h : evaluate.Mirrors f evaluate') (predicates : Bool) :
    (node evaluate predicates).Mirrors f (node evaluate' predicates) := by
  intro g id t m
  unfold node
  cases g.candidate predicates id with
  | error e => rfl
  | ok c =>
      cases c with
      | leave | absorb b => rfl
      | evaluate binary type =>
          simp only [literal_mirrors h]
          rcases literal evaluate g id type m with ⟨result, m'⟩
          cases result <;> rfl

/-- The rule asks the evaluator about the node that it is handed or about none, and
does not count visits. -/
theorem node_asks (evaluate : Evaluator σ) (predicates : Bool) (g : Graph) (id : NodeId) (t : Tally)
    (m : Watched σ) :
    (node evaluate.watched predicates g id t m).2.1.visited = t.visited ∧
      ((node evaluate.watched predicates g id t m).2.2.ids = m.ids ∨
        (node evaluate.watched predicates g id t m).2.2.ids = m.ids ++ [id]) := by
  unfold node
  cases g.candidate predicates id with
  | error e => exact ⟨rfl, .inl rfl⟩
  | ok c =>
      cases c with
      | leave | absorb b => exact ⟨rfl, .inl rfl⟩
      | evaluate binary type =>
          simp only [literal_watched]
          rcases literal evaluate g id type m.memory with ⟨result, m'⟩
          cases result with
          | error e => exact ⟨rfl, .inr (Watched.ids_note ..)⟩
          | ok v =>
              refine ⟨?_, .inr (Watched.ids_note ..)⟩
              cases binary <;> rfl

/-- The notes of a pass that has handed over the nodes in `done`. -/
structure Noted (visited : Nat) (done : List NodeId) (p : Pass (Watched (Watched σ))) : Prop where
  handed : p.memory.ids = done.reverse
  visited : p.tally.visited = visited + done.length
  evaluated : p.memory.memory.ids.Sublist done.reverse

theorem Noted.step {evaluate : Evaluator σ} {predicates : Bool} {visited : Nat}
    {done : List NodeId} {p p' : Pass (Watched (Watched σ))} {id : NodeId}
    (h : Noted visited done p)
    (hfinished : Pass.Finished (node evaluate.watched predicates).watched p id p') :
    Noted visited (id :: done) p' := by
  obtain ⟨v, hanswer⟩ := hfinished.exists_answer
  have htally : p'.tally =
      (node evaluate.watched predicates p.graph id p.tally.countVisit p.memory.memory).2.1 :=
    (congrArg (·.2.1) hanswer).symm
  have hmemory : p'.memory = p.memory.note p.graph id
      (node evaluate.watched predicates p.graph id p.tally.countVisit p.memory.memory).2.2 :=
    (congrArg (·.2.2) hanswer).symm
  obtain ⟨hvisited, hasked⟩ :=
    node_asks evaluate predicates p.graph id p.tally.countVisit p.memory.memory
  refine ⟨?_, ?_, ?_⟩
  · rw [hmemory, Watched.ids_note, h.handed, List.reverse_cons]
  · have hcount := h.visited
    rw [htally, hvisited, List.length_cons]
    show p.tally.visited + 1 = _
    omega
  · rw [hmemory, List.reverse_cons]
    rcases hasked with hsame | hmore
    · exact (hsame ▸ h.evaluated).trans (List.sublist_append_left ..)
    · exact hmore ▸ h.evaluated.append (List.Sublist.refl _)

/-- Every node below the roots is handed to the rule once and after its inputs, in
the order of `postorder`, and no node is evaluated twice. The marks on the graph
and the answers of the evaluator do not matter. -/
theorem apply_in_order (evaluate : Evaluator σ) (predicates : Bool) {g : Graph}
    {roots order : List NodeId} (hg : g.Consistent) (hpost : g.postorder roots = .ok order)
    (tally : Tally) (memory : σ) :
    ∃ news s, (node evaluate.watched predicates).watched.applyRoots roots
          ⟨g, tally, .start (.start memory)⟩ = .ok news s ∧
      (rule evaluate predicates).apply roots ⟨g, tally, memory⟩ =
        .ok news ⟨s.graph, s.tally, s.memory.memory.memory⟩ ∧
      s.memory.ids = order ∧ g.ChildrenFirst order.reverse ∧
      s.tally.visited = tally.visited + order.length ∧
      s.memory.memory.ids.Sublist order ∧ s.memory.memory.ids.Nodup := by
  obtain ⟨p, hrun, -, hnoted⟩ := Pass.overRoots_induct_cleared
    (motive := Noted tally.visited) (putsLiterals evaluate.watched predicates).watched hg.balanced
    hpost tally (.start (.start memory)) ⟨rfl, rfl, List.Sublist.refl _⟩
    fun _ _ _ _ _ hnoted _ _ _ hfinished => hnoted.step hfinished
  have happly := NodeRule.applyRoots_of_overRoots hrun
  have hsub := hnoted.evaluated
  rw [List.reverse_reverse] at hsub
  have hfirst : g.ChildrenFirst order.reverse := (Graph.postorder_spec hpost).1
  refine ⟨_, _, happly, ?_, ?_, hfirst, ?_, hsub, hsub.nodup (List.nodup_reverse.1 hfirst.nodup)⟩
  · exact (mirrors_node evaluate.mirrors_watched predicates).watched.applyRoots happly
  · rw [hnoted.handed, List.reverse_reverse]
  · rw [hnoted.visited, List.length_reverse]

/-- The product `2 * 3`, added to itself. Two nodes have a mark from before. -/
def doubledProduct : Graph :=
  ⟨#[⟨.literal (.int 2), .int, .scalar, [], [2], true⟩,
    ⟨.literal (.int 3), .int, .scalar, [], [2], false⟩,
    ⟨.binary .times, .int, .scalar, [0, 1], [3, 3], true⟩,
    ⟨.binary .plus, .int, .scalar, [2, 2], [], false⟩]⟩

/-- The product is in two slots and is a root as well, and it is handed over once. -/
theorem apply_in_order_doubledProduct :
    doubledProduct.Consistent ∧ doubledProduct.postorder [3, 2] = .ok [0, 1, 2, 3] ∧
      ∃ news s, (node Interpreter.evaluate.watched false).watched.applyRoots [3, 2]
            ⟨doubledProduct, .zero, .start (.start .new)⟩ = .ok news s ∧
        (rule Interpreter.evaluate false).apply [3, 2] ⟨doubledProduct, .zero, .new⟩ =
          .ok news ⟨s.graph, s.tally, s.memory.memory.memory⟩ ∧
        s.memory.ids = [0, 1, 2, 3] ∧ doubledProduct.ChildrenFirst [3, 2, 1, 0] ∧
        s.tally.visited = 4 ∧
        s.memory.memory.ids.Sublist [0, 1, 2, 3] ∧ s.memory.memory.ids.Nodup := by
  have hg : doubledProduct.Consistent := by decide +kernel
  have hpost : doubledProduct.postorder [3, 2] = .ok [0, 1, 2, 3] := by decide +kernel
  exact ⟨hg, hpost, apply_in_order Interpreter.evaluate false hg hpost .zero .new⟩

end Folding

end Watched

end OpGraph
