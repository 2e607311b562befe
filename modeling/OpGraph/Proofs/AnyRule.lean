import OpGraph.Proofs.Watching

/-!
# A pass of any rule comes to an end

A rule may put any node of the graph in the place of the node that it is handed:
one below it, one outside, or one that is above it and on the stack. Then there
are cycles in the graph while the walk is under way, and no order of the nodes
is left that the walk could be compared with.

The walk is safe all the same, because of what the edges lead to. A slot of a
node that was not handed over holds what it held at the start, or a node that is
marked (`Pass.Descends`): every edge that the pass makes leads to a substitute,
and substitutes are marked at once. The walk enters nodes without a mark only,
so it goes down along edges of the graph as it was at the start, where nothing
below the roots lies below itself. So no node is entered twice, and the slots of
the nodes that are entered bound the number of the steps.

A node is handed over when the walk has looked at all its slots. The nodes in the
slots it has passed are marked, except for the one that was entered and not left
yet (`Pass.Waiting`), and at the end there is none.

Nothing is asked of the rule on graphs or memories that the pass does not come to.
What it is asked in a pass and what it answers is recorded (`NodeRule.recorded`),
and the pass goes through exactly if it can do what each answer says
(`NodeRule.applyRoots_admitted_iff`). Otherwise it stops at the first answer that it
cannot follow, and leaves the graph as the answers before have made it.
-/

namespace OpGraph

/-- What a pass can do about a node: keep it, or put a new literal or some node of
the graph in its place. -/
def Graph.Admits (g : Graph) : Except GraphError Verdict → Prop
  | .error _ => False
  | .ok .keep => True
  | .ok (.literal _) => True
  | .ok (.use new) => new < g.size

instance (g : Graph) : DecidablePred g.Admits
  | .error _ => inferInstanceAs (Decidable False)
  | .ok .keep => inferInstanceAs (Decidable True)
  | .ok (.literal _) => inferInstanceAs (Decidable True)
  | .ok (.use new) => inferInstanceAs (Decidable (new < g.size))

/-! ## What is asked and what is answered -/

/-- A node that was handed to a rule, the graph at that time, and the answer. -/
structure Exchange where
  graph : Graph
  id : NodeId
  answer : Except GraphError Verdict

/-- A memory, and what was asked and answered so far, the first question first. -/
structure Recorded (σ : Type) where
  memory : σ
  exchanges : List Exchange

namespace Recorded

variable {σ : Type}

def start (memory : σ) : Recorded σ := ⟨memory, []⟩

/-- The nodes that were handed over. -/
def ids (m : Recorded σ) : List NodeId := m.exchanges.map Exchange.id

end Recorded

section Recorded

variable {σ : Type}

/-- A rule that records what it is asked and what it answers. -/
def NodeRule.recorded (rule : NodeRule σ) : NodeRule (Recorded σ) := fun g id tally m =>
  let answer := rule g id tally m.memory
  (answer.1, answer.2.1, ⟨answer.2.2, m.exchanges ++ [⟨g, id, answer.1⟩]⟩)

theorem NodeRule.mirrors_recorded (rule : NodeRule σ) :
    rule.recorded.Mirrors Recorded.memory rule := fun _ _ _ _ => rfl

theorem NodeRule.exchanges_of_recorded {rule : NodeRule σ} {g : Graph} {id : NodeId}
    {t t' : Tally} {m m' : Recorded σ} {answer : Except GraphError Verdict}
    (h : rule.recorded g id t m = (answer, t', m')) :
    m'.exchanges = m.exchanges ++ [⟨g, id, answer⟩] := by
  cases h
  rfl

end Recorded

/-! ## Handing over one node -/

/-- The graph `h` is `g` after `id` was handed over and `new` came in its place,
which may be `id` itself. What is below `id` is left open. -/
structure Graph.Settled (g : Graph) (id new : NodeId) (h : Graph) : Prop where
  balanced : h.Balanced
  size : g.size ≤ h.size
  marked : h.visited? id = some true
  marked_new : h.visited? new = some true
  visited : ∀ j, g.visited? j = some true → h.visited? j = some true
  inputs : ∀ j, j ≠ id → h.inputsOf j = (g.inputsOf j).map fun c => if c = id then new else c

namespace Graph

theorem settled_self {g : Graph} (hg : g.Balanced) {id : NodeId} (hid : id < g.size) :
    g.Settled id id (g.mark id true) := by
  have hmarked : (g.mark id true).visited? id = some true := by
    rw [visited?_mark hid, if_pos rfl]
  refine ⟨hg.mark id true, Nat.le_of_eq (size_mark ..).symm, hmarked, hmarked, ?_, ?_⟩
  · intro j hj
    rw [visited?_mark hid, hj]
    split <;> rfl
  · intro j _
    have hsame : ∀ c ∈ g.inputsOf j, (if c = id then id else c) = c := by
      intro c _
      split
      · rename_i h
        exact h.symm
      · rfl
    rw [inputsOf_mark, List.map_congr_left hsame, List.map_id']

theorem Replaced.settled {g h : Graph} {id new : NodeId} (hr : g.Replaced id new h) :
    g.Settled id new h where
  balanced := hr.balanced
  size := Nat.le_of_eq hr.size.symm
  marked := by rw [hr.visited, if_pos (.inl rfl)]
  marked_new := by rw [hr.visited, if_pos (.inr rfl)]
  visited j hj := by
    rw [hr.visited, hj]
    split <;> rfl
  inputs := hr.inputs_other

/-- A new literal holds nothing, so the slots are those of the graph before it. -/
theorem Settled.of_push {g h : Graph} {id new : NodeId} {v : Value}
    (hs : (g.push (literalNode v)).Settled id new h) : g.Settled id new h where
  balanced := hs.balanced
  size := by
    have hle := hs.size
    rw [size_push] at hle
    omega
  marked := hs.marked
  marked_new := hs.marked_new
  visited j hj := by
    refine hs.visited j ?_
    obtain ⟨n, hn, -⟩ := Option.map_eq_some_iff.1 hj
    rw [visited?_push, if_neg (Nat.ne_of_lt (lt_size_of_node? hn)), hj]
  inputs j hj := by
    rw [hs.inputs j hj, inputsOf_push]
    split
    · rename_i hsize
      rw [hsize, inputsOf, node?_eq_none (Nat.le_refl _)]
      rfl
    · rfl

end Graph

namespace Pass

variable {σ : Type} {rule : NodeRule σ} {p : Pass σ} {id : NodeId}

theorem settle_settled (hg : p.graph.Balanced) (hid : id < p.graph.size) {new : NodeId}
    (hnew : new < p.graph.size) :
    ∃ p', settle id new p = .ok new p' ∧ p.graph.Settled id new p'.graph ∧
      p'.tally = p.tally ∧ p'.memory = p.memory := by
  by_cases hself : new = id
  · subst hself
    exact ⟨_, settle_self hid, Graph.settled_self hg hid, rfl, rfl⟩
  · obtain ⟨h, hrun, hr⟩ := settle_other hg hid hnew hself
    exact ⟨_, hrun, hr.settled, rfl, rfl⟩

section Finish

variable {answer : Except GraphError Verdict} {t : Tally} {m : σ}

/-- Handing over a node goes through, whatever is put in its place. -/
theorem finish_settled (hg : p.graph.Balanced) (hid : id < p.graph.size)
    (hanswer : rule p.graph id p.tally.countVisit p.memory = (answer, t, m))
    (hadmits : p.graph.Admits answer) :
    ∃ new p', finish rule id p = .ok new p' ∧ p.graph.Settled id new p'.graph ∧
      p'.tally = t ∧ p'.memory = m := by
  rcases answer with e | verdict
  · exact hadmits.elim
  · cases verdict with
    | keep => exact ⟨_, _, finish_keep hid hanswer, Graph.settled_self hg hid, rfl, rfl⟩
    | literal v =>
        obtain ⟨h, hrun, hr⟩ := finish_literal hg hid hanswer
        exact ⟨_, _, hrun, hr.settled.of_push, rfl, rfl⟩
    | use new =>
        obtain ⟨p', hrun, hs, ht, hm⟩ := settle_settled
          (p := ⟨⟨p.graph, t, m⟩, p.substitutes⟩) hg hid hadmits
        exact ⟨new, p', (finish_of_use hanswer).trans hrun, hs, ht, hm⟩

/-- An answer that cannot be followed changes nothing in the graph. -/
theorem finish_refused (hid : id < p.graph.size)
    (hanswer : rule p.graph id p.tally.countVisit p.memory = (answer, t, m))
    (hnot : ¬ p.graph.Admits answer) :
    ∃ e, finish rule id p = .error e ⟨⟨p.graph, t, m⟩, p.substitutes⟩ := by
  rcases answer with e | verdict
  · exact ⟨e, finish_of_error hanswer⟩
  · cases verdict with
    | keep | literal v => exact absurd trivial hnot
    | use new =>
        have hge : p.graph.size ≤ new := Nat.not_lt.1 hnot
        have hne : new ≠ id := Nat.ne_of_gt (Nat.lt_of_lt_of_le hid hge)
        -- The substitute is looked up before anything else is done.
        have hedit : Graph.replaceUses id new p.graph = .error (.unknownNode new) p.graph := by
          rw [Graph.replaceUses, Edit.ask_bind,
            Graph.node_eq_error_iff.2 ⟨Graph.node?_eq_none hge, rfl⟩]
        have hpass : (edit (Graph.replaceUses id new) : PassM σ Nat)
            ⟨⟨p.graph, t, m⟩, p.substitutes⟩ =
              .error (.unknownNode new) ⟨⟨p.graph, t, m⟩, p.substitutes⟩ := by
          rw [edit, hedit]
        refine ⟨.unknownNode new, (finish_of_use hanswer).trans ?_⟩
        unfold settle
        rw [if_neg hne]
        exact bind_error hpass

end Finish

/-! ## The walk -/

/-- The stack of a walk, the innermost frame first, from the start graph `g` and
the graph `h` as it is now. `above` is the input that was entered from the first
frame and not left yet. All other nodes in the slots that were passed are marked. -/
def Waiting (g h : Graph) : Option NodeId → List (NodeId × Nat) → Prop
  | _, [] => True
  | above, (id, slot) :: rest =>
      (∀ k < slot, ∀ c, (h.inputsOf id)[k]? = some c →
        h.visited? c = some true ∨ above = some c) ∧
      (∀ c, above = some c → g.Holds id c) ∧ Waiting g h (some id) rest

section Waiting

variable {g h h' : Graph} {above : Option NodeId} {new : NodeId}

/-- Every frame further out lies above the innermost node in the start graph. -/
theorem Waiting.below : ∀ {stack : List (NodeId × Nat)} {id : NodeId},
    Waiting g h (some id) stack → ∀ q ∈ stack.map Prod.fst, Relation.TransGen g.Holds q id
  | (j, slot) :: rest, id, ⟨_, hheld, hrest⟩, q, hq => by
      rcases List.mem_cons.1 hq with rfl | hq
      · exact Relation.TransGen.single (hheld id rfl)
      · exact (hrest.below q hq).tail (hheld id rfl)

/-- A node that is handed over leaves its slots to a node that is marked. -/
theorem Waiting.settled (hs : h.Settled id new h') : ∀ {stack : List (NodeId × Nat)}
    {above : Option NodeId}, id ∉ stack.map Prod.fst → Waiting g h above stack →
    Waiting g h' above stack
  | [], _, _, _ => trivial
  | (j, slot) :: rest, above, hnot, ⟨hpassed, hheld, hrest⟩ => by
      rw [List.map_cons, List.mem_cons, not_or] at hnot
      refine ⟨fun k hk c hc => ?_, hheld, hrest.settled hs hnot.2⟩
      rw [hs.inputs j (Ne.symm hnot.1), List.getElem?_map] at hc
      obtain ⟨c₀, hc₀, rfl⟩ := Option.map_eq_some_iff.1 hc
      split
      · exact .inl hs.marked_new
      · exact (hpassed k hk c₀ hc₀).imp_left (hs.visited c₀)

/-- The walk goes on with the node that was waiting. -/
theorem Waiting.resume (hmarked : h.visited? id = some true) : ∀ {stack : List (NodeId × Nat)},
    Waiting g h (some id) stack → Waiting g h none stack
  | [], _ => trivial
  | (j, slot) :: rest, ⟨hpassed, _, hrest⟩ => by
      refine ⟨fun k hk c hc => ?_, nofun, hrest⟩
      rcases hpassed k hk c hc with hvisited | hself
      · exact .inl hvisited
      · cases hself
        exact .inl hmarked

end Waiting

/-- A walk in progress over a graph that was `g` at the start. The nodes in
`handed` were handed over, and those on the stack were entered. -/
structure Descends (g : Graph) (roots handed : List NodeId) (stack : List (NodeId × Nat))
    (p : Pass σ) : Prop where
  balanced : p.graph.Balanced
  size : g.size ≤ p.graph.size
  marked : ∀ id ∈ handed, p.graph.visited? id = some true
  slots : ∀ id, id ∉ handed → (p.graph.inputsOf id).length = (g.inputsOf id).length
  edges : ∀ id, id ∉ handed → ∀ (k : Nat) c, (p.graph.inputsOf id)[k]? = some c →
    p.graph.visited? c = some true ∨ (g.inputsOf id)[k]? = some c
  nodup : (stack.map Prod.fst ++ handed).Nodup
  below : ∀ id ∈ stack.map Prod.fst ++ handed, ∃ r ∈ roots, g.Reaches r id
  waiting : Waiting g p.graph none stack

section Descends

variable {g : Graph} {roots handed : List NodeId} {slot : Nat} {rest : List (NodeId × Nat)}
  {c : NodeId}

theorem Descends.head_not_handed (h : Descends g roots handed ((id, slot) :: rest) p) :
    id ∉ handed := by
  have hnodup := h.nodup
  rw [List.map_cons, List.cons_append, List.nodup_cons, List.mem_append, not_or] at hnodup
  exact hnodup.1.2

/-- A node that is handed over has only marked inputs. -/
theorem Descends.inputs_marked (h : Descends g roots handed ((id, slot) :: rest) p)
    (hslot : (p.graph.inputsOf id)[slot]? = none) (hc : c ∈ p.graph.inputsOf id) :
    p.graph.visited? c = some true := by
  obtain ⟨k, hk⟩ := List.mem_iff_getElem?.1 hc
  have hlt : k < slot := by
    obtain ⟨hlen, -⟩ := List.getElem?_eq_some_iff.1 hk
    have hle := List.getElem?_eq_none_iff.1 hslot
    omega
  exact (h.waiting.1 k hlt c hk).resolve_right nofun

theorem Descends.leave {p' : Pass σ} {new : NodeId}
    (h : Descends g roots handed ((id, slot) :: rest) p)
    (hs : p.graph.Settled id new p'.graph) : Descends g roots (id :: handed) rest p' := by
  have hnodup := h.nodup
  rw [List.map_cons, List.cons_append] at hnodup
  have hperm : (rest.map Prod.fst ++ id :: handed).Perm (id :: (rest.map Prod.fst ++ handed)) :=
    List.perm_middle
  have hnot : id ∉ rest.map Prod.fst := fun hmem =>
    (List.nodup_cons.1 hnodup).1 (List.mem_append_left _ hmem)
  refine ⟨hs.balanced, Nat.le_trans h.size hs.size, ?_, ?_, ?_, hperm.nodup_iff.2 hnodup, ?_, ?_⟩
  · intro j hj
    rcases List.mem_cons.1 hj with rfl | hj
    · exact hs.marked
    · exact hs.visited j (h.marked j hj)
  · intro j hj
    rw [List.mem_cons, not_or] at hj
    rw [hs.inputs j hj.1, List.length_map, h.slots j hj.2]
  · intro j hj k c hc
    rw [List.mem_cons, not_or] at hj
    rw [hs.inputs j hj.1, List.getElem?_map] at hc
    obtain ⟨c₀, hc₀, rfl⟩ := Option.map_eq_some_iff.1 hc
    split
    · exact .inl hs.marked_new
    · exact (h.edges j hj.2 k c₀ hc₀).imp_left (hs.visited c₀)
  · intro j hj
    exact h.below j (hperm.mem_iff.1 hj)
  · exact (h.waiting.2.2.settled hs hnot).resume hs.marked

theorem Descends.skip (h : Descends g roots handed ((id, slot) :: rest) p)
    (hslot : (p.graph.inputsOf id)[slot]? = some c) (hmark : p.graph.visited? c = some true) :
    Descends g roots handed ((id, slot + 1) :: rest) p := by
  refine ⟨h.balanced, h.size, h.marked, h.slots, h.edges, h.nodup, h.below, ?_, h.waiting.2.1,
    h.waiting.2.2⟩
  intro k hk c' hc'
  rcases Nat.lt_succ_iff_lt_or_eq.1 hk with hlt | rfl
  · exact h.waiting.1 k hlt c' hc'
  · rw [hslot] at hc'
    cases hc'
    exact .inl hmark

/-- A node without a mark is held as it was at the start, and was not entered. -/
theorem Descends.fresh_input (hground : ∀ r ∈ roots, g.Grounded r)
    (h : Descends g roots handed ((id, slot) :: rest) p)
    (hslot : (p.graph.inputsOf id)[slot]? = some c) (hmark : p.graph.visited? c = some false) :
    g.Holds id c ∧ c ∉ ((id, slot) :: rest).map Prod.fst ++ handed := by
  have hheld : g.Holds id c := by
    rcases h.edges id h.head_not_handed slot c hslot with hvisited | hsame
    · rw [hmark] at hvisited
      cases hvisited
    · exact List.mem_of_getElem? hsame
  refine ⟨hheld, fun hmem => ?_⟩
  rcases List.mem_append.1 hmem with hstack | hhanded
  · -- The node lies above the one that holds it, and so below itself.
    obtain ⟨r, hr, hreach⟩ := h.below c hmem
    refine ((hground r hr).of_reaches hreach).not_below_self ?_
    rcases List.mem_cons.1 hstack with rfl | hstack
    · exact Relation.TransGen.single hheld
    · exact (h.waiting.2.2.below c hstack).tail hheld
  · rw [h.marked c hhanded] at hmark
    cases hmark

theorem Descends.enter (hground : ∀ r ∈ roots, g.Grounded r)
    (h : Descends g roots handed ((id, slot) :: rest) p)
    (hslot : (p.graph.inputsOf id)[slot]? = some c) (hmark : p.graph.visited? c = some false) :
    Descends g roots handed ((c, 0) :: (id, slot + 1) :: rest) p := by
  obtain ⟨hheld, hnew⟩ := h.fresh_input hground hslot hmark
  refine ⟨h.balanced, h.size, h.marked, h.slots, h.edges, List.nodup_cons.2 ⟨hnew, h.nodup⟩, ?_,
    ?_, ?_, ?_, ?_, h.waiting.2.2⟩
  · intro j hj
    rcases List.mem_cons.1 hj with rfl | hj
    · obtain ⟨r, hr, hreach⟩ := h.below id (List.mem_cons_self ..)
      exact ⟨r, hr, hreach.tail hheld⟩
    · exact h.below j hj
  · intro k hk
    exact absurd hk (Nat.not_lt_zero k)
  · intro c' hc'
    cases hc'
  · intro k hk c' hc'
    rcases Nat.lt_succ_iff_lt_or_eq.1 hk with hlt | rfl
    · exact (h.waiting.1 k hlt c' hc').imp_right nofun
    · rw [hslot] at hc'
      exact .inr hc'
  · intro c' hc'
    cases hc'
    exact hheld

end Descends

/-! ## The end of the walk -/

/-- The slots that are left to look at, and the nodes that are left to hand over,
on the stack. -/
def pending (g : Graph) : List (NodeId × Nat) → Nat
  | [] => 0
  | (id, slot) :: rest => (g.inputsOf id).length - slot + 1 + pending g rest

/-- What is left to do altogether. -/
def work (g : Graph) (handed : List NodeId) (stack : List (NodeId × Nat)) : Nat :=
  g.weightWhere (fun id => id ∉ stack.map Prod.fst ++ handed) + pending g stack

section Work

variable {g : Graph} {roots handed : List NodeId} {slot : Nat} {rest : List (NodeId × Nat)}
  {c : NodeId}

theorem work_leave : work g (id :: handed) rest + 1 ≤ work g handed ((id, slot) :: rest) := by
  have hmono : g.weightWhere (fun j => j ∉ rest.map Prod.fst ++ id :: handed) ≤
      g.weightWhere (fun j => j ∉ ((id, slot) :: rest).map Prod.fst ++ handed) := by
    refine Graph.weightWhere_mono fun j hj => ?_
    simpa [not_or, and_left_comm] using hj
  simp only [work, pending]
  omega

theorem work_skip (hslot : slot < (g.inputsOf id).length) :
    work g handed ((id, slot + 1) :: rest) + 1 = work g handed ((id, slot) :: rest) := by
  simp only [work, pending, List.map_cons]
  omega

/-- The weight of a node that is entered becomes its slots and its frame. -/
theorem work_enter (hslot : slot < (g.inputsOf id).length) (hc : c < g.size)
    (hnew : c ∉ ((id, slot) :: rest).map Prod.fst ++ handed) :
    work g handed ((c, 0) :: (id, slot + 1) :: rest) + 1 =
      work g handed ((id, slot) :: rest) := by
  have hremove := Graph.weightWhere_remove (g := g)
    (P := fun j => j ∉ ((id, slot) :: rest).map Prod.fst ++ handed)
    (Q := fun j => j ∉ ((c, 0) :: (id, slot + 1) :: rest).map Prod.fst ++ handed) hc hnew
    fun j => by simp [not_or, and_comm]
  simp only [work, pending, Graph.nodeWeight] at hremove ⊢
  omega

end Work

/-- What stays true when a node with marked inputs is handed over and the pass does
what the rule says. -/
def KeptByHandover (rule : NodeRule σ) (motive : List NodeId → Pass σ → Prop) : Prop :=
  ∀ handed p id answer p', motive handed p →
    (∀ c ∈ p.graph.inputsOf id, p.graph.visited? c = some true) →
    rule p.graph id p.tally.countVisit p.memory = (answer, p'.tally, p'.memory) →
    p.graph.Admits answer → motive (id :: handed) p'

/-- How a walk ends: with an empty stack, or at a node with marked inputs, when the
pass cannot do what the rule says about it. -/
inductive Concludes {α : Type} (rule : NodeRule σ) (g : Graph) (roots : List NodeId)
    (motive : List NodeId → Pass σ → Prop) : EStateM.Result GraphError (Pass σ) α → Prop where
  | done {a : α} {p : Pass σ} {handed : List NodeId} (descends : Descends g roots handed [] p)
      (kept : motive handed p) : Concludes rule g roots motive (.ok a p)
  | refused {e : GraphError} {p p' : Pass σ} {handed : List NodeId} {id : NodeId} {slot : Nat}
      {rest : List (NodeId × Nat)} {answer : Except GraphError Verdict}
      (descends : Descends g roots handed ((id, slot) :: rest) p) (kept : motive handed p)
      (ready : ∀ c ∈ p.graph.inputsOf id, p.graph.visited? c = some true)
      (asked : rule p.graph id p.tally.countVisit p.memory = (answer, p'.tally, p'.memory))
      (inadmissible : ¬ p.graph.Admits answer) (graph : p'.graph = p.graph) :
      Concludes rule g roots motive (.error e p')

section Runs

variable {g : Graph} {roots order : List NodeId} {motive : List NodeId → Pass σ → Prop}

/-- What comes after a walk that has stopped is not done. -/
theorem Concludes.of_error {α β : Type} {e : GraphError} {p : Pass σ}
    (h : Concludes rule g roots motive (.error e p : EStateM.Result GraphError (Pass σ) α)) :
    Concludes rule g roots motive (.error e p : EStateM.Result GraphError (Pass σ) β) := by
  cases h with
  | refused hdescends hkept hready hasked hnot hgraph =>
      exact .refused hdescends hkept hready hasked hnot hgraph

/-- The walk never runs out of steps. -/
theorem walk_concludes (hg : g.Balanced) (hpost : g.postorder roots = .ok order)
    (hstep : KeptByHandover rule motive) :
    ∀ (limit : Nat) (stack : List (NodeId × Nat)) (last : NodeId) (handed : List NodeId)
      (p : Pass σ), Descends g roots handed stack p → motive handed p →
      work g handed stack ≤ limit →
      Concludes rule g roots motive (walk rule limit stack last p) := by
  have hground : ∀ r ∈ roots, g.Grounded r := fun r hr =>
    Graph.grounded_of_postorder hpost hr Relation.ReflTransGen.refl
  -- Each step takes one off the limit and off what is left to do.
  intro limit
  induction limit with
  | zero =>
      intro stack last handed p h hmotive hlimit
      rcases stack with _ | ⟨⟨id, slot⟩, rest⟩
      · rw [walk_nil]
        exact .done h hmotive
      · simp only [work, pending] at hlimit
        omega
  | succ limit ih =>
      intro stack last handed p h hmotive hlimit
      rcases stack with _ | ⟨⟨id, slot⟩, rest⟩
      · rw [walk_nil]
        exact .done h hmotive
      · have hid : id < p.graph.size := by
          have hlisted := ((Graph.postorder_spec hpost).2 id).2 (h.below id (List.mem_cons_self ..))
          exact Nat.lt_of_lt_of_le (Graph.lt_of_mem_postorder hpost hlisted) h.size
        cases hslot : (p.graph.inputsOf id)[slot]? with
        | none =>
            have hready : ∀ c ∈ p.graph.inputsOf id, p.graph.visited? c = some true :=
              fun c hc => h.inputs_marked hslot hc
            rcases hanswer : rule p.graph id p.tally.countVisit p.memory with ⟨answer, t, m⟩
            by_cases hadmits : p.graph.Admits answer
            · obtain ⟨new, p', hrun, hs, rfl, rfl⟩ :=
                finish_settled h.balanced hid hanswer hadmits
              have hwork : work g (id :: handed) rest + 1 ≤ work g handed ((id, slot) :: rest) :=
                work_leave
              rw [walk_leave hid hslot hrun]
              exact ih rest new (id :: handed) p' (h.leave hs)
                (hstep handed p id answer p' hmotive hready hanswer hadmits) (by omega)
            · obtain ⟨e, hrun⟩ := finish_refused hid hanswer hadmits
              rw [walk_refused hid hslot hrun]
              exact .refused h hmotive hready hanswer hadmits rfl
        | some c =>
            have hlen : slot < (g.inputsOf id).length := by
              rw [← h.slots id h.head_not_handed]
              exact (List.getElem?_eq_some_iff.1 hslot).1
            have hc : c < p.graph.size := h.balanced.input_lt (List.mem_of_getElem? hslot)
            obtain ⟨n, hn⟩ := Graph.exists_node? hc
            have hvisited := Graph.visited?_of_node? hn
            cases hmark : n.visited with
            | true =>
                rw [hmark] at hvisited
                have hwork : work g handed ((id, slot + 1) :: rest) + 1 =
                    work g handed ((id, slot) :: rest) := work_skip hlen
                rw [walk_skip hslot hvisited]
                exact ih _ last handed p (h.skip hslot hvisited) hmotive (by omega)
            | false =>
                rw [hmark] at hvisited
                obtain ⟨hheld, hnew⟩ := h.fresh_input hground hslot hvisited
                have hwork := work_enter hlen (hg.input_lt hheld) hnew
                rw [walk_enter hslot hvisited]
                exact ih _ last handed p (h.enter hground hslot hvisited) hmotive (by omega)

theorem visit_concludes (hg : g.Balanced) (hpost : g.postorder roots = .ok order)
    (hstep : KeptByHandover rule motive) {limit : Nat} (hlimit : g.weight ≤ limit) {root : NodeId}
    (hroot : root ∈ roots) {handed : List NodeId} {p : Pass σ} (h : Descends g roots handed [] p)
    (hmotive : motive handed p) : Concludes rule g roots motive (visit rule limit root p) := by
  have hlt : root < g.size :=
    Graph.lt_of_mem_postorder hpost (Graph.mem_postorder_of_root hpost hroot)
  obtain ⟨n, hn⟩ := Graph.exists_node? (Nat.lt_of_lt_of_le hlt h.size)
  cases hmark : n.visited with
  | true =>
      rw [visit_done hn hmark]
      exact .done h hmotive
  | false =>
      have hnew : root ∉ handed := by
        intro hmem
        have hvisited := h.marked root hmem
        rw [Graph.visited?_of_node? hn, hmark] at hvisited
        cases hvisited
      have hstart : Descends g roots handed [(root, 0)] p := by
        refine ⟨h.balanced, h.size, h.marked, h.slots, h.edges,
          List.nodup_cons.2 ⟨hnew, h.nodup⟩, ?_, ?_, nofun, trivial⟩
        · intro j hj
          rcases List.mem_cons.1 hj with rfl | hj
          · exact ⟨j, hroot, Relation.ReflTransGen.refl⟩
          · exact h.below j hj
        · intro k hk
          exact absurd hk (Nat.not_lt_zero k)
      have hwork : work g handed [(root, 0)] ≤ g.weight := by
        have hremove := Graph.weightWhere_remove (g := g) (P := fun j => j ∉ handed)
          (Q := fun j => j ∉ [(root, 0)].map Prod.fst ++ handed) hlt hnew
          fun j => by simp [not_or, and_comm]
        have hle := Graph.weightWhere_le (g := g) (P := fun j => j ∉ handed)
        simp only [work, pending, Graph.nodeWeight] at hremove ⊢
        omega
      rw [visit_walk hn hmark]
      exact walk_concludes hg hpost hstep limit [(root, 0)] root handed p hstart hmotive
        (Nat.le_trans hwork hlimit)

theorem visitAll_concludes (hg : g.Balanced) (hpost : g.postorder roots = .ok order)
    (hstep : KeptByHandover rule motive) {limit : Nat} (hlimit : g.weight ≤ limit) :
    ∀ (rs handed : List NodeId) (p : Pass σ), (∀ r ∈ rs, r ∈ roots) →
      Descends g roots handed [] p → motive handed p →
      Concludes rule g roots motive (visitAll rule limit rs p) := by
  intro rs
  induction rs with
  | nil => exact fun handed p _ h hmotive => .done h hmotive
  | cons r rest ih =>
      intro handed p hsub h hmotive
      have hvisit :=
        visit_concludes hg hpost hstep hlimit (hsub r (List.mem_cons_self ..)) h hmotive
      rw [visitAll]
      cases hrun : visit rule limit r p with
      | error e p₁ =>
          rw [hrun] at hvisit
          rw [bind_error hrun]
          exact hvisit.of_error
      | ok new p₁ =>
          rw [hrun] at hvisit
          rw [bind_ok hrun]
          cases hvisit with
          | @done _ _ handed₁ h₁ hmotive₁ =>
              have hall :=
                ih handed₁ p₁ (fun q hq => hsub q (List.mem_cons_of_mem _ hq)) h₁ hmotive₁
              cases hrest : visitAll rule limit rest p₁ with
              | error e p₂ =>
                  rw [hrest] at hall
                  rw [bind_error hrest]
                  exact hall.of_error
              | ok news p₂ =>
                  rw [hrest] at hall
                  rw [bind_ok hrest]
                  cases hall with
                  | done h₂ hmotive₂ => exact .done h₂ hmotive₂

theorem overRoots_concludes (hg : g.Balanced) (hpost : g.postorder roots = .ok order)
    (hstep : KeptByHandover rule motive) (t : Tally) (m : σ)
    (hstart : motive [] ⟨⟨g.cleared order, t, m⟩, []⟩) :
    Concludes rule g roots motive (overRoots rule roots ⟨⟨g, t, m⟩, []⟩) := by
  obtain ⟨hsize, -, hinputs, hparents⟩ := g.cleared_views order
  have hfirst : Descends g roots [] [] (⟨⟨g.cleared order, t, m⟩, []⟩ : Pass σ) := by
    refine ⟨Graph.balanced_of_views hinputs hparents hg, Nat.le_of_eq hsize.symm, nofun, ?_, ?_,
      List.nodup_nil, nofun, trivial⟩
    · intro id _
      rw [hinputs]
    · intro id _ k c hc
      rw [hinputs] at hc
      exact .inr hc
  have hweight : g.weight ≤ (g.cleared order).weight := by
    rw [Graph.weight_eq_sum, Graph.weight_eq_sum, hsize]
    refine Nat.le_of_eq (Finset.sum_congr rfl fun id _ => ?_)
    rw [Graph.nodeWeight, Graph.nodeWeight, hinputs]
  rw [overRoots, bind_ok (start_eq_ok hpost t m)]
  exact visitAll_concludes hg hpost hstep hweight roots [] _ (fun _ hr => hr) hfirst hstart

end Runs

/-! ## The record of a pass -/

/-- The record of a pass that has handed over the nodes in `handed`: each of them was
asked about once, and when its inputs were marked. -/
structure AskedWhenReady (handed : List NodeId) (p : Pass (Recorded σ)) : Prop where
  ids : p.memory.ids = handed.reverse
  ready : ∀ x ∈ p.memory.exchanges, ∀ c ∈ x.graph.inputsOf x.id, x.graph.visited? c = some true

theorem AskedWhenReady.step {rule : NodeRule σ} {handed : List NodeId}
    {p p' : Pass (Recorded σ)} {answer : Except GraphError Verdict} (h : AskedWhenReady handed p)
    (hready : ∀ c ∈ p.graph.inputsOf id, p.graph.visited? c = some true)
    (hasked : rule.recorded p.graph id p.tally.countVisit p.memory =
      (answer, p'.tally, p'.memory)) : AskedWhenReady (id :: handed) p' := by
  have hmore := NodeRule.exchanges_of_recorded hasked
  constructor
  · have hids := h.ids
    unfold Recorded.ids at hids ⊢
    rw [hmore, List.map_append, hids, List.reverse_cons]
    rfl
  · intro x hx
    rw [hmore] at hx
    rcases List.mem_append.1 hx with hx | hx
    · exact h.ready x hx
    · cases List.mem_singleton.1 hx
      exact hready

/-- The record of a pass that could do what every answer said. -/
def AllAdmitted (handed : List NodeId) (p : Pass (Recorded σ)) : Prop :=
  AskedWhenReady handed p ∧ ∀ x ∈ p.memory.exchanges, x.graph.Admits x.answer

theorem allAdmitted_kept (rule : NodeRule σ) : KeptByHandover rule.recorded AllAdmitted := by
  rintro handed p id answer p' ⟨h, hall⟩ hready hasked hadmits
  refine ⟨h.step hready hasked, fun x hx => ?_⟩
  rw [NodeRule.exchanges_of_recorded hasked] at hx
  rcases List.mem_append.1 hx with hx | hx
  · exact hall x hx
  · cases List.mem_singleton.1 hx
    exact hadmits

/-- What holds at the end of a recorded pass, whether it went through or was refused. -/
structure Ended (g : Graph) (roots : List NodeId) (p : Pass (Recorded σ)) : Prop where
  balanced : p.graph.Balanced
  nodup : p.memory.ids.Nodup
  below : ∀ id ∈ p.memory.ids, ∃ r ∈ roots, g.Reaches r id
  ready : ∀ x ∈ p.memory.exchanges, ∀ c ∈ x.graph.inputsOf x.id, x.graph.visited? c = some true

theorem AskedWhenReady.ended {g : Graph} {roots handed : List NodeId} {p : Pass (Recorded σ)}
    (h : AskedWhenReady handed p) (hbalanced : p.graph.Balanced) (hnodup : handed.Nodup)
    (hbelow : ∀ id ∈ handed, ∃ r ∈ roots, g.Reaches r id) : Ended g roots p where
  balanced := hbalanced
  nodup := by
    rw [h.ids]
    exact List.nodup_reverse.2 hnodup
  below id hid := by
    rw [h.ids] at hid
    exact hbelow id (List.mem_reverse.1 hid)
  ready := h.ready

theorem Concludes.ended {α : Type} {rule : NodeRule σ} {g : Graph} {roots : List NodeId}
    {result : EStateM.Result GraphError (Pass (Recorded σ)) α}
    (h : Concludes rule.recorded g roots AllAdmitted result) :
    Ended g roots (stateAfter result) ∧ ((∃ a p, result = .ok a p) ↔
      ∀ x ∈ (stateAfter result).memory.exchanges, x.graph.Admits x.answer) := by
  cases h with
  | done hdescends hkept =>
      exact ⟨hkept.1.ended hdescends.balanced hdescends.nodup hdescends.below,
        iff_of_true ⟨_, _, rfl⟩ hkept.2⟩
  | @refused _ p p' handed id _ rest answer hdescends hkept hready hasked hnot hgraph =>
      -- The node that the pass has stopped at is in the record as well.
      have hsub : (id :: handed).Sublist ((id :: rest.map Prod.fst) ++ handed) :=
        ((List.nil_sublist _).cons_cons id).append (List.Sublist.refl handed)
      refine ⟨(hkept.1.step hready hasked).ended (hgraph ▸ hdescends.balanced)
        (hsub.nodup hdescends.nodup) fun j hj => hdescends.below j (hsub.subset hj),
        iff_of_false ?_ fun hall => hnot ?_⟩
      · rintro ⟨a, q, hok⟩
        cases hok
      · refine hall ⟨p.graph, id, answer⟩ ?_
        rw [stateAfter, NodeRule.exchanges_of_recorded hasked]
        exact List.mem_append_right _ (List.mem_singleton_self _)

end Pass

/-- A pass of any rule goes through exactly if it can do what the answers say that it
gets: keep the node, or put a new literal or some node of the graph in its place. This
may make cycles. It hands over nodes that were below the roots at the start, none of
them twice and each of them when all its inputs are marked, and it leaves consistent
edges, also where it is refused. -/
theorem NodeRule.applyRoots_admitted_iff {σ : Type} (rule : NodeRule σ) {g : Graph}
    {roots order : List NodeId} (hg : g.Consistent) (hpost : g.postorder roots = .ok order)
    (tally : Tally) (memory : σ) :
    let run := rule.recorded.applyRoots roots ⟨g, tally, .start memory⟩
    let s := stateAfter run
    rule.applyRoots roots ⟨g, tally, memory⟩ = Session.outcomeThrough Recorded.memory run ∧
      ((∃ news s', rule.applyRoots roots ⟨g, tally, memory⟩ = .ok news s') ↔
        ∀ x ∈ s.memory.exchanges, x.graph.Admits x.answer) ∧
      s.memory.ids.Nodup ∧
      (∀ x ∈ s.memory.exchanges, x.id ∈ order ∧
        ∀ c ∈ x.graph.inputsOf x.id, x.graph.visited? c = some true) ∧
      s.graph.Consistent := by
  intro run s
  have hsame : rule.applyRoots roots ⟨g, tally, memory⟩ =
      Session.outcomeThrough Recorded.memory run :=
    rule.mirrors_recorded.applyRoots_eq roots ⟨g, tally, .start memory⟩
  have hrun : run = Pass.run (Pass.overRoots rule.recorded roots) ⟨g, tally, .start memory⟩ :=
    rule.recorded.applyRoots_eq_run roots _
  obtain ⟨hended, hiff⟩ := (Pass.overRoots_concludes hg.balanced hpost
    (Pass.allAdmitted_kept rule) tally (.start memory) ⟨⟨rfl, nofun⟩, nofun⟩).ended
  have hstate : s = (stateAfter (Pass.overRoots rule.recorded roots
      ⟨⟨g, tally, .start memory⟩, []⟩)).toSession := by
    change stateAfter run = _
    rw [hrun, Pass.run]
    cases Pass.overRoots rule.recorded roots ⟨⟨g, tally, .start memory⟩, []⟩ <;> rfl
  have hok : (∃ news s', rule.applyRoots roots ⟨g, tally, memory⟩ = .ok news s') ↔
      ∃ news p, Pass.overRoots rule.recorded roots ⟨⟨g, tally, .start memory⟩, []⟩ =
        .ok news p := by
    rw [hsame, hrun, Pass.run]
    cases Pass.overRoots rule.recorded roots ⟨⟨g, tally, .start memory⟩, []⟩ <;>
      simp [Session.outcomeThrough]
  rw [hstate]
  refine ⟨hsame, hok.trans hiff, hended.nodup, fun x hx => ⟨?_, hended.ready x hx⟩,
    hended.balanced.consistent⟩
  exact ((Graph.postorder_spec hpost).2 x.id).2 (hended.below x.id (List.mem_map_of_mem hx))

/-- Puts the third node in the place of the first. -/
def NodeRule.thirdForFirst : NodeRule Unit := fun _ id t m =>
  (.ok (if id = 0 then .use 2 else .keep), t, m)

/-- Remembers the literals that it was handed, and puts the first one with a value in
the place of all later ones. -/
def NodeRule.sharing : NodeRule (List (Value × NodeId)) := fun g id t seen =>
  match g.literalAt? id with
  | none => (.ok .keep, t, seen)
  | some v =>
      match seen.lookup v with
      | some first => (.ok (.use first), t, seen)
      | none => (.ok .keep, t, (v, id) :: seen)

/-- The double negation of a truth value. -/
def doubleNegation : Graph :=
  ⟨#[⟨.literal (.boolean true), .boolean, .scalar, [], [1], false⟩,
    ⟨.unary .not, .boolean, .scalar, [0], [2], false⟩,
    ⟨.unary .not, .boolean, .scalar, [1], [], false⟩]⟩

/-- Two negations that are each other's input, beside a truth value. -/
def mutualNegation : Graph :=
  ⟨#[⟨.literal (.boolean true), .boolean, .scalar, [], [], true⟩,
    ⟨.unary .not, .boolean, .scalar, [2], [2], true⟩,
    ⟨.unary .not, .boolean, .scalar, [1], [1], true⟩]⟩

/-- The sum `2 + 2` of two literals. -/
def sumOfTwos : Graph :=
  ⟨#[⟨.literal (.int 2), .int, .scalar, [], [2], false⟩,
    ⟨.literal (.int 2), .int, .scalar, [], [2], false⟩,
    ⟨.binary .plus, .int, .scalar, [0, 1], [], false⟩]⟩

/-- The sum `2 + 2` of one literal with itself, beside another one. -/
def sumOfOneTwo : Graph :=
  ⟨#[⟨.literal (.int 2), .int, .scalar, [], [2, 2], true⟩,
    ⟨.literal (.int 2), .int, .scalar, [], [], true⟩,
    ⟨.binary .plus, .int, .scalar, [0, 0], [], true⟩]⟩

/-- The root takes the place of the literal below it while it is on the stack, which
makes a cycle, and the pass goes through. So does a pass of a rule that answers with
the nodes it remembers. Neither rule could be followed on every graph. -/
theorem NodeRule.applyRoots_admitted_iff_thirdForFirst :
    doubleNegation.Consistent ∧ doubleNegation.postorder [2] = .ok [0, 1, 2] ∧
      (∃ news s, thirdForFirst.applyRoots [2] ⟨doubleNegation, .zero, ()⟩ = .ok news s ∧
        s.graph = mutualNegation) ∧
      (stateAfter (thirdForFirst.recorded.applyRoots [2]
        ⟨doubleNegation, .zero, .start ()⟩)).memory.ids.Nodup ∧
    sumOfTwos.Consistent ∧ sumOfTwos.postorder [2] = .ok [0, 1, 2] ∧
      ∃ news s, sharing.applyRoots [2] ⟨sumOfTwos, .zero, []⟩ = .ok news s ∧
        s.graph = sumOfOneTwo := by
  have hg : doubleNegation.Consistent := by decide +kernel
  have hpost : doubleNegation.postorder [2] = .ok [0, 1, 2] := by decide +kernel
  have hg' : sumOfTwos.Consistent := by decide +kernel
  have hpost' : sumOfTwos.postorder [2] = .ok [0, 1, 2] := by decide +kernel
  obtain ⟨-, hiff, hnodup, -⟩ := applyRoots_admitted_iff thirdForFirst hg hpost .zero ()
  obtain ⟨-, hiff', -⟩ := applyRoots_admitted_iff sharing hg' hpost' .zero []
  obtain ⟨news, s, hrun⟩ := hiff.2 (by decide +kernel)
  obtain ⟨news', s', hrun'⟩ := hiff'.2 (by decide +kernel)
  refine ⟨hg, hpost, ⟨news, s, hrun, ?_⟩, hnodup, hg', hpost', news', s', hrun', ?_⟩
  · have hcycle : (match thirdForFirst.applyRoots [2] ⟨doubleNegation, .zero, ()⟩ with
        | .ok _ s => some s.graph
        | .error _ _ => none) = some mutualNegation := by decide +kernel
    rw [hrun] at hcycle
    exact Option.some.inj hcycle
  · have hshared : (match sharing.applyRoots [2] ⟨sumOfTwos, .zero, []⟩ with
        | .ok _ s => some s.graph
        | .error _ _ => none) = some sumOfOneTwo := by decide +kernel
    rw [hrun'] at hshared
    exact Option.some.inj hshared

end OpGraph
