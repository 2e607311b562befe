import OpGraph.Proofs.Safety

/-!
# What the walk and the check accept

`Graph.postorder` and `Graph.check` look at the part of a graph below some roots,
and nothing is known of that part beforehand: numbers may name no node, inputs may
come in several slots, nodes may depend on themselves, and the two records of an
edge may differ. This file says for both which parts they accept, without
mentioning how they go about it.

The walk accepts a part in which every number names a node and no node lies below
itself (`Graph.Walkable`). It then lists the part, children first, and otherwise it
names a culprit (`Graph.postorder_correct`).

The check accepts a part that can be walked and in which the two records of every
edge agree (`Graph.check_accepts_iff`). It never compares the records of two nodes
in both directions. Looking down from a node it counts, but only at the inputs that
are there; looking up it asks whether a parent holds the node, but not how often.
Two nodes without an edge between them are covered by the second question: if the
lower one lists the upper one, the upper one holds it, and the first question
applies.
-/

namespace OpGraph.Graph

variable {g : Graph} {roots : List NodeId}

/-- A number that can be reached from some roots, or is one of them. It need not
name a node. -/
def Below (g : Graph) (roots : List NodeId) (id : NodeId) : Prop := ∃ r ∈ roots, g.Reaches r id

theorem Below.input {id c : NodeId} (h : g.Below roots id) (hc : c ∈ g.inputsOf id) :
    g.Below roots c := by
  obtain ⟨r, hr, hreach⟩ := h
  exact ⟨r, hr, hreach.tail hc⟩

/-! ## The walk -/

/-- Every number below the roots names a node, and no node below them lies below
itself. -/
structure Walkable (g : Graph) (roots : List NodeId) : Prop where
  lt_size : ∀ id, g.Below roots id → id < g.size
  acyclic : ∀ id, g.Below roots id → ¬ Relation.TransGen g.Holds id id

/-- A list of what lies below some roots, in which every node comes once and after
all its inputs. -/
structure Lists (g : Graph) (roots order : List NodeId) : Prop where
  nodup : order.Nodup
  mem_iff : ∀ id, id ∈ order ↔ g.Below roots id
  inputs_before : ∀ before id after, order = before ++ id :: after →
    ∀ c ∈ g.inputsOf id, c ∈ before

theorem walkable_iff : g.Walkable roots ↔ ∃ order, g.postorder roots = .ok order := by
  rw [exists_postorder_iff]
  constructor
  · intro h
    exact ⟨fun r hr id hreach => h.lt_size id ⟨r, hr, hreach⟩,
      fun r hr id hreach => h.acyclic id ⟨r, hr, hreach⟩⟩
  · rintro ⟨hlt, hacyclic⟩
    constructor
    · rintro id ⟨r, hr, hreach⟩
      exact hlt r hr id hreach
    · rintro id ⟨r, hr, hreach⟩
      exact hacyclic r hr id hreach

theorem ChildrenFirst.of_append {later : List NodeId} : ∀ {order : List NodeId},
    g.ChildrenFirst (order ++ later) → g.ChildrenFirst later
  | [], h => h
  | _ :: _, h => h.2.2.of_append

theorem lists_of_postorder {order : List NodeId} (h : g.postorder roots = .ok order) :
    g.Lists roots order := by
  obtain ⟨hfirst, hmem⟩ := postorder_spec h
  refine ⟨List.nodup_reverse.1 hfirst.nodup, hmem, fun before id after hsplit c hc => ?_⟩
  -- The walk notes the last node first, so what comes before is what remains after `id`.
  rw [hsplit, List.reverse_append, List.reverse_cons, List.append_assoc] at hfirst
  exact List.mem_reverse.1 (hfirst.of_append.2.1 c hc)

/-- The walk succeeds exactly on what can be walked. It then lists what lies below the
roots, once each and children first. An error names a number below the roots without
a node, or a node below the roots that lies below itself, and there are no other
errors. -/
theorem postorder_correct (g : Graph) (roots : List NodeId) :
    ((∃ order, g.postorder roots = .ok order) ↔ g.Walkable roots) ∧
      (∀ order, g.postorder roots = .ok order → g.Lists roots order) ∧
      (∀ c, g.postorder roots = .error (.cycle c) →
        g.Below roots c ∧ Relation.TransGen g.Holds c c) ∧
      (∀ i, g.postorder roots = .error (.unknownNode i) →
        g.size ≤ i ∧ (i ∈ roots ∨ ∃ p, g.Below roots p ∧ i ∈ g.inputsOf p)) ∧
      ∀ e, g.postorder roots = .error e → (∃ c, e = .cycle c) ∨ ∃ i, e = .unknownNode i := by
  refine ⟨walkable_iff.symm, fun order h => lists_of_postorder h, fun c h => postorder_blames h,
    fun i h => ?_, fun e h => ?_⟩
  · obtain ⟨hge, hr | ⟨r, hr, p, hreach, hp⟩⟩ := postorder_blames h
    · exact ⟨hge, .inl hr⟩
    · exact ⟨hge, .inr ⟨p, ⟨r, hr, hreach⟩, hp⟩⟩
  · have hblame := postorder_blames h
    cases e with
    | cycle c => exact .inl ⟨c, rfl⟩
    | unknownNode i => exact .inr ⟨i, rfl⟩
    | slotOutOfRange | missingParent | danglingParent | unequalCounts | notLiteral =>
        exact False.elim hblame

/-- The square of a sum, two negations that are each other's input, and a negation of
a node that does not exist. -/
def squareAndCycle : Graph :=
  ⟨#[⟨.literal (.int 3), .int, .scalar, [], [1, 1], false⟩,
    ⟨.binary .plus, .int, .scalar, [0, 0], [2, 2], false⟩,
    ⟨.binary .times, .int, .scalar, [1, 1], [], false⟩,
    ⟨.unary .not, .boolean, .scalar, [4], [4], false⟩,
    ⟨.unary .not, .boolean, .scalar, [3], [3], false⟩,
    ⟨.unary .not, .boolean, .scalar, [9], [], false⟩]⟩

/-- Nodes that are shared are listed once, and the walk stops at the cycle and at the
missing node although an earlier root was listed. -/
theorem postorder_correct_squareAndCycle :
    squareAndCycle.postorder [1, 2] = .ok [0, 1, 2] ∧
      squareAndCycle.Walkable [1, 2] ∧ squareAndCycle.Lists [1, 2] [0, 1, 2] ∧
      squareAndCycle.postorder [2, 3] = .error (.cycle 3) ∧
      Relation.TransGen squareAndCycle.Holds 3 3 ∧ ¬ squareAndCycle.Walkable [2, 3] ∧
      squareAndCycle.postorder [2, 5] = .error (.unknownNode 9) ∧
      ∃ p, squareAndCycle.Below [2, 5] p ∧ 9 ∈ squareAndCycle.inputsOf p := by
  have hlisted : squareAndCycle.postorder [1, 2] = .ok [0, 1, 2] := by decide +kernel
  have hcycle : squareAndCycle.postorder [2, 3] = .error (.cycle 3) := by decide +kernel
  have hmissing : squareAndCycle.postorder [2, 5] = .error (.unknownNode 9) := by decide +kernel
  obtain ⟨hiff, hlists, -⟩ := postorder_correct squareAndCycle [1, 2]
  obtain ⟨hiff', -, hblame, -⟩ := postorder_correct squareAndCycle [2, 3]
  obtain ⟨-, -, -, hunknown, -⟩ := postorder_correct squareAndCycle [2, 5]
  refine ⟨hlisted, hiff.1 ⟨_, hlisted⟩, hlists _ hlisted, hcycle, (hblame 3 hcycle).2, fun h => ?_,
    hmissing, (hunknown 9 hmissing).2.resolve_left (by decide)⟩
  obtain ⟨order, horder⟩ := hiff'.2 h
  rw [hcycle] at horder
  cases horder

/-! ## The check -/

/-- The two records of every edge below the roots agree: two nodes there count the
same number of edges between them, none included, and a parent that is listed there
exists and holds the node. -/
structure AgreesBelow (g : Graph) (roots : List NodeId) : Prop where
  counts : ∀ p c, g.Below roots p → g.Below roots c →
    (g.parentsOf c).count p = (g.inputsOf p).count c
  parents : ∀ c, g.Below roots c → ∀ q ∈ g.parentsOf c, q < g.size ∧ c ∈ g.inputsOf q

/-- Where a node lists only parents that hold it, it lists no parent that does not. -/
theorem AgreesAt.count_eq {p c : NodeId} (hp : g.AgreesAt p) (hc : g.AgreesAt c) :
    (g.parentsOf c).count p = (g.inputsOf p).count c := by
  by_cases hheld : c ∈ g.inputsOf p
  · exact (hp.inputs c hheld).symm
  · rw [List.count_eq_zero.2 hheld, List.count_eq_zero]
    exact fun hlisted => hheld (hc.parents p hlisted)

theorem agreesBelow_iff : g.AgreesBelow roots ↔ ∀ id, g.Below roots id → g.AgreesAt id := by
  constructor
  · intro h id hid
    exact ⟨fun c hc => (h.counts id c hid (hid.input hc)).symm,
      fun q hq => (h.parents id hid q hq).2⟩
  · intro h
    refine ⟨fun p c hp hc => (h p hp).count_eq (h c hc), fun c hc q hq => ?_⟩
    have hheld := (h c hc).parents q hq
    exact ⟨lt_size_of_mem_inputsOf hheld, hheld⟩

/-- The check passes exactly if what lies below the roots can be walked and the two
records of every edge there agree. -/
theorem check_accepts_iff (g : Graph) (roots : List NodeId) :
    g.check roots = .ok () ↔ g.Walkable roots ∧ g.AgreesBelow roots := by
  rw [check_eq_ok_iff, walkable_iff, agreesBelow_iff]
  constructor
  · rintro ⟨order, hpost, hagrees⟩
    exact ⟨⟨order, hpost⟩, fun id hid => hagrees id (((postorder_spec hpost).2 id).2 hid)⟩
  · rintro ⟨⟨order, hpost⟩, hagrees⟩
    exact ⟨order, hpost, fun id hid => hagrees id (((postorder_spec hpost).2 id).1 hid)⟩

end OpGraph.Graph
