import OpGraph.Proofs.Watching

/-!
# The counts of a pass account for what it does

Constant folding counts a fold when it has decided to put a literal in the place of a
node, and a failure when a candidate turns out to have no value. Much can go wrong after
that on a graph with broken edges: the uses of the node may not be found, its inputs may
not be detached, and the pass stops where it is. The counts are right all the same, at
whatever point a pass ends (`Folding.apply_accounts`): as many nodes were added as were
counted as folded, and the evaluator was asked once for every fold that needs a value and
for every failure.

What a run keeps is carried through it step by step (`Keeps`), for runs that go through
and runs that are refused alike. A pass does nothing but ask about its graph and hand
over nodes, so it keeps what a handover keeps (`Pass.keeps_overRoots`). Within a handover
the graph grows in one place only, right after the rule has decided; all the edits that may
be refused come later, and none of them changes the number of nodes.
-/

namespace OpGraph

/-! ## What a run keeps -/

section Keeps

variable {ε σ α β : Type} {I : σ → Prop} {x : EStateM ε σ α} {next : α → EStateM ε σ β}

/-- What held before a run holds after it, whether it goes through or is refused. -/
def Keeps (I : σ → Prop) (x : EStateM ε σ α) : Prop := ∀ s, I s → I (stateAfter (x s))

theorem Keeps.bind (hx : Keeps I x) (hnext : ∀ a, Keeps I (next a)) : Keeps I (x >>= next) := by
  intro s hs
  have hleft := hx s hs
  cases hrun : x s with
  | ok a t =>
      rw [hrun] at hleft
      rw [bind_ok hrun]
      exact hnext a t hleft
  | error e t =>
      rw [hrun] at hleft
      rw [bind_error hrun]
      exact hleft

theorem keeps_pure (a : α) : Keeps I (pure a : EStateM ε σ α) := fun _ hs => hs

theorem keeps_throw (e : ε) : Keeps I (throw e : EStateM ε σ α) := fun _ hs => hs

theorem keeps_modify {f : σ → σ} (h : ∀ s, I s → I (f s)) :
    Keeps I (modify f : EStateM ε σ Unit) := h

end Keeps

/-- A question changes nothing. -/
theorem Edit.keeps_ask {α : Type} {I : Graph → Prop} (question : Graph → Except GraphError α) :
    Keeps I (Edit.ask question) := by
  intro g hg
  unfold Edit.ask
  cases question g <;> exact hg

/-! ## Edits that add no node -/

namespace Graph

/-- The edit leaves as many nodes as there were, whether it goes through or is refused. -/
def KeepsSize {α : Type} (e : Edit α) : Prop := ∀ n, Keeps (fun g : Graph => g.size = n) e

theorem keepsSize_removeInput (parent : NodeId) (slot : Nat) :
    KeepsSize (removeInput parent slot) := by
  intro n
  refine (Edit.keeps_ask _).bind fun child => (Edit.keeps_ask _).bind fun _ => ?_
  refine (keeps_modify fun g hg => ?_).bind fun _ => keeps_pure _
  simpa [dropParent] using hg

theorem keepsSize_replaceInput (parent : NodeId) (slot : Nat) (new : NodeId) :
    KeepsSize (replaceInput parent slot new) := by
  intro n
  refine (Edit.keeps_ask _).bind fun _ => (Edit.keeps_ask _).bind fun old =>
    (Edit.keeps_ask _).bind fun _ => ?_
  split
  · exact keeps_pure _
  · refine (keeps_modify fun g hg => ?_).bind fun _ => keeps_pure _
    simpa [dropParent, addParent] using hg

theorem keepsSize_replaceAll (new : NodeId) (slots : List (NodeId × Nat)) :
    KeepsSize (replaceAll new slots) := by
  intro n
  induction slots with
  | nil => exact keeps_pure _
  | cons slot rest ih => exact (keepsSize_replaceInput slot.1 slot.2 new n).bind fun _ => ih

theorem keepsSize_replaceUses (old new : NodeId) : KeepsSize (replaceUses old new) := by
  intro n
  refine (Edit.keeps_ask _).bind fun _ => (Edit.keeps_ask _).bind fun slots => ?_
  split
  · exact keeps_pure _
  · exact (keepsSize_replaceAll new slots n).bind fun _ => keeps_pure _

theorem keepsSize_detachBelow (id : NodeId) (k : Nat) (taken : List NodeId) :
    KeepsSize (detachBelow id k taken) := by
  intro n
  induction k generalizing taken with
  | zero => exact keeps_pure _
  | succ k ih => exact (keepsSize_removeInput id k n).bind fun child => ih (child :: taken)

theorem keepsSize_detachInputs (id : NodeId) : KeepsSize (detachInputs id) := fun n =>
  (Edit.keeps_ask _).bind fun node => keepsSize_detachBelow id node.inputs.length [] n

theorem keepsSize_setVisited (id : NodeId) (visited : Bool) : KeepsSize (setVisited id visited) :=
  fun _ => (Edit.keeps_ask _).bind fun _ => keeps_modify fun g hg =>
    (size_mark g id visited).trans hg

theorem keepsSize_resetVisited (roots : List NodeId) : KeepsSize (resetVisited roots) :=
  fun _ => (Edit.keeps_ask _).bind fun order => keeps_modify fun g hg =>
    (g.cleared_views order).1.trans hg

end Graph

/-! ## A pass keeps what a handover keeps -/

namespace Pass

section Keeps

variable {σ : Type} {rule : NodeRule σ} {I : Pass σ → Prop}

theorem keeps_ask {α : Type} (question : Graph → Except GraphError α) :
    Keeps I (edit (Edit.ask question)) := by
  intro p hp
  unfold edit Edit.ask
  cases question p.graph <;> exact hp

theorem keeps_walk (hfinish : ∀ id, Keeps I (finish rule id)) (limit : Nat) :
    ∀ (stack : List (NodeId × Nat)) (last : NodeId), Keeps I (walk rule limit stack last) := by
  induction limit with
  | zero =>
      intro stack last
      cases stack with
      | nil => exact keeps_pure _
      | cons frame rest => exact keeps_throw _
  | succ limit ih =>
      intro stack last
      rcases stack with _ | ⟨⟨id, slot⟩, rest⟩
      · exact keeps_pure _
      · refine (keeps_ask _).bind fun n => ?_
        cases n.inputs[slot]? with
        | some child =>
            refine (keeps_ask _).bind fun c => ?_
            split
            · exact ih _ _
            · exact ih _ _
        | none => exact (hfinish id).bind fun new => ih _ _

theorem keeps_visit (hfinish : ∀ id, Keeps I (finish rule id)) (limit : Nat) (root : NodeId) :
    Keeps I (visit rule limit root) := by
  refine (keeps_ask _).bind fun n => ?_
  split
  · exact fun _ hp => hp
  · exact keeps_walk hfinish limit _ _

theorem keeps_visitAll (hfinish : ∀ id, Keeps I (finish rule id)) (limit : Nat)
    (roots : List NodeId) : Keeps I (visitAll rule limit roots) := by
  induction roots with
  | nil => exact keeps_pure _
  | cons root rest ih =>
      exact (keeps_visit hfinish limit root).bind fun _ => ih.bind fun _ => keeps_pure _

/-- Besides the handovers, a pass only takes off the marks at its start. -/
theorem keeps_overRoots (hfinish : ∀ id, Keeps I (finish rule id)) {roots : List NodeId}
    (hreset : Keeps I (edit (Graph.resetVisited roots))) : Keeps I (overRoots rule roots) := by
  have hstart : Keeps I (start roots) := hreset.bind fun _ _ hp => hp
  exact hstart.bind fun limit => keeps_visitAll hfinish limit roots

end Keeps

end Pass

/-! ## The books of a pass -/

/-- How many nodes were evaluated, with a result or without. Predicates that one operand
decides are not. -/
def Tally.evaluations (t : Tally) : Nat := t.binaryFolds + t.unaryFolds + t.failures

/-- The counts of a session account for what happened since it had the graph `g` and the
counts `t`, and nothing had been asked. -/
structure Session.Accounts {σ : Type} (g : Graph) (t : Tally) (s : Session (Watched σ)) : Prop where
  grown : g.size ≤ s.graph.size
  added : s.tally.folds = t.folds + (s.graph.size - g.size)
  asked : s.tally.evaluations = t.evaluations + s.memory.asked.length

namespace Session.Accounts

variable {σ : Type} {g : Graph} {t : Tally}

theorem start (g : Graph) (t : Tally) (memory : σ) :
    Accounts g t ⟨g, t, Watched.start memory⟩ where
  grown := Nat.le_refl _
  added := by simp
  asked := rfl

/-- Only the number of nodes matters. -/
theorem resize {s : Session (Watched σ)} (hs : s.Accounts g t) {h : Graph}
    (hsize : h.size = s.graph.size) : Accounts g t ⟨h, s.tally, s.memory⟩ where
  grown := hsize.symm ▸ hs.grown
  added := by
    rw [hsize]
    exact hs.added
  asked := hs.asked

end Session.Accounts

namespace Pass

variable {σ : Type} {g : Graph} {t : Tally}

theorem keeps_accounts_edit {α : Type} {e : Edit α} (he : Graph.KeepsSize e) :
    Keeps (fun p : Pass (Watched σ) => p.Accounts g t) (edit e) := by
  intro p hp
  have hsize := he p.graph.size p.graph rfl
  unfold edit
  cases hrun : e p.graph with
  | ok a h | error x h =>
      rw [hrun] at hsize
      exact hp.resize hsize

theorem keeps_accounts_settle (id new : NodeId) :
    Keeps (fun p : Pass (Watched σ) => p.Accounts g t) (settle id new) := by
  unfold settle
  split
  · exact (keeps_accounts_edit (Graph.keepsSize_setVisited id true)).bind fun _ => keeps_pure _
  · refine (keeps_accounts_edit (Graph.keepsSize_replaceUses id new)).bind fun _ => ?_
    refine (keeps_accounts_edit (Graph.keepsSize_detachInputs id)).bind fun _ => ?_
    refine (keeps_accounts_edit (Graph.keepsSize_setVisited new true)).bind fun _ => ?_
    refine Keeps.bind (keeps_modify fun _ hp => hp) fun _ => ?_
    exact (keeps_accounts_edit (Graph.keepsSize_setVisited id true)).bind fun _ => keeps_pure _

end Pass

namespace Folding

variable {σ : Type}

/-- How many nodes the pass has to add after an answer of the rule. -/
def additions : Except GraphError Verdict → Nat
  | .ok (.literal _) => 1
  | _ => 0

/-- The rule counts a fold exactly if it answers with a literal, and it counts every node
about which it asks the evaluator as folded or as failed. -/
theorem node_counts (evaluate : Evaluator σ) (predicates : Bool) (g : Graph) (id : NodeId)
    (t : Tally) (m : Watched σ) :
    (node evaluate.watched predicates g id t m).2.1.folds =
        t.folds + additions (node evaluate.watched predicates g id t m).1 ∧
      (node evaluate.watched predicates g id t m).2.1.evaluations + m.asked.length =
        t.evaluations + (node evaluate.watched predicates g id t m).2.2.asked.length := by
  unfold node
  cases g.candidate predicates id with
  | error e => exact ⟨rfl, rfl⟩
  | ok c =>
      cases c with
      | leave | absorb b => exact ⟨rfl, rfl⟩
      | evaluate binary type =>
          simp only [literal_watched]
          rcases literal evaluate g id type m.memory with ⟨result, memory⟩
          cases result with
          | error e =>
              refine ⟨rfl, ?_⟩
              simp only [Tally.evaluations, Tally.countFailure, Watched.note, List.length_append,
                List.length_singleton]
              omega
          | ok v =>
              simp only [additions, Tally.folds, Tally.evaluations, Tally.countFold, Watched.note,
                List.length_append, List.length_singleton]
              cases binary <;> simp <;> omega

/-- One handover. The literal that was counted is added before anything is refused. -/
theorem keeps_accounts_finish (evaluate : Evaluator σ) (predicates : Bool) {g : Graph} {t : Tally}
    (id : NodeId) : Keeps (fun p : Pass (Watched σ) => p.Accounts g t)
      (Pass.finish (node evaluate.watched predicates) id) := by
  intro p hp
  obtain ⟨hgrown, hadded, hasked⟩ := hp
  have hvisit : p.tally.countVisit.folds = p.tally.folds ∧
      p.tally.countVisit.evaluations = p.tally.evaluations := ⟨rfl, rfl⟩
  have hcounts := node_counts evaluate predicates p.graph id p.tally.countVisit p.memory
  rcases hanswer : node evaluate.watched predicates p.graph id p.tally.countVisit p.memory with
    ⟨answer, t', m'⟩
  rw [hanswer] at hcounts
  simp only [] at hcounts
  -- What the books say once the decision has been carried out, up to the edges.
  have hbooks : ∀ h : Graph, h.size = p.graph.size + additions answer →
      Session.Accounts g t ⟨h, t', m'⟩ := fun h hsize =>
    ⟨show g.size ≤ h.size by omega, show t'.folds = t.folds + (h.size - g.size) by omega,
      show t'.evaluations = t.evaluations + m'.asked.length by omega⟩
  cases answer with
  | error e =>
      rw [Pass.finish_of_error hanswer]
      exact hbooks _ rfl
  | ok verdict =>
      cases verdict with
      | keep =>
          rw [Pass.finish_of_keep hanswer]
          exact Pass.keeps_accounts_settle id id _ (hbooks _ rfl)
      | use new =>
          rw [Pass.finish_of_use hanswer]
          exact Pass.keeps_accounts_settle id new _ (hbooks _ rfl)
      | literal v =>
          rw [Pass.finish_of_literal hanswer]
          exact Pass.keeps_accounts_settle id _ _ (hbooks _ (Graph.size_push ..))

theorem accounts_of_applyRoots (evaluate : Evaluator σ) (predicates : Bool) (g : Graph)
    (roots : List NodeId) (t : Tally) (memory : σ) :
    (stateAfter ((node evaluate.watched predicates).applyRoots roots
      ⟨g, t, .start memory⟩)).Accounts g t := by
  cases roots with
  | nil => exact .start g t memory
  | cons r rest =>
      have hkeeps := Pass.keeps_overRoots (keeps_accounts_finish evaluate predicates (g := g) (t := t))
        (Pass.keeps_accounts_edit (Graph.keepsSize_resetVisited (r :: rest)))
      have hleft := hkeeps ⟨⟨g, t, .start memory⟩, []⟩ (.start g t memory)
      change (stateAfter (Pass.run _ _)).Accounts g t
      rw [Pass.run]
      cases hrun : Pass.overRoots (node evaluate.watched predicates) (r :: rest)
          ⟨⟨g, t, .start memory⟩, []⟩ with
      | ok news p | error e p =>
          rw [hrun] at hleft
          exact hleft

/-- On any graph, for any evaluator, and whether the pass goes through or stops with an
error: as many nodes were added as folds were counted, and the evaluator was asked as often
as folds of its values and failures were counted. -/
theorem apply_accounts (evaluate : Evaluator σ) (predicates : Bool) (g : Graph)
    (roots : List NodeId) (tally : Tally) (memory : σ) :
    let run := (rule evaluate.watched predicates).apply roots ⟨g, tally, .start memory⟩
    let s := stateAfter run
    (rule evaluate predicates).apply roots ⟨g, tally, memory⟩ =
        Session.outcomeThrough Watched.memory run ∧
      g.size ≤ s.graph.size ∧ s.tally.folds = tally.folds + (s.graph.size - g.size) ∧
      s.tally.binaryFolds + s.tally.unaryFolds + s.tally.failures =
        tally.binaryFolds + tally.unaryFolds + tally.failures + s.memory.asked.length := by
  intro run s
  obtain ⟨hgrown, hadded, hasked⟩ :=
    accounts_of_applyRoots evaluate predicates g roots tally memory
  have hsame := (mirrors_node evaluate.mirrors_watched predicates).applyRoots_eq roots
    ⟨g, tally, .start memory⟩
  exact ⟨hsame, hgrown, hadded, hasked⟩

/-- A sum that says it is held twice by a node that holds it once. The pass evaluates it,
counts a fold, adds the literal, and then cannot put it in place. -/
def heldOnce : Graph :=
  ⟨#[⟨.literal (.int 2), .int, .scalar, [], [1, 1, 2], false⟩,
    ⟨.binary .plus, .int, .scalar, [0, 0], [2, 2], false⟩,
    ⟨.binary .plus, .int, .scalar, [1, 0], [], false⟩]⟩

example : (match (rule Interpreter.evaluate.watched true).apply [1]
      ⟨heldOnce, .zero, .start .new⟩ with
    | .ok _ _ => none
    | .error e s => some (e, s.graph.size, s.tally, s.memory.asked.length)) =
      some (.unequalCounts 1 2 1 2, 4, ⟨2, 1, 0, 0, 0⟩, 1) := by
  decide +kernel

end Folding

end OpGraph
