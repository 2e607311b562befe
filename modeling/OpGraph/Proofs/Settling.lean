import OpGraph.Proofs.Candidates
import OpGraph.Proofs.Traversal

/-!
# What a node settles to

What constant folding does with a node depends on which of the inputs are
literals by the time it comes to the node, and so on what was done with the
inputs. `Graph.Settles` says the same of a graph that no pass has touched: a
literal settles to its value, an operator settles to the value that it has on
what its inputs settle to, and where there is none, it settles to nothing.

The main result is that a pass does what `Settles` says (`Pass.exists_folded`):
at its end, the node that stands in for a node is a literal exactly if the node
settles to a value, and then it is that value. The order of the pass, the state
of the interpreter and the graphs in between do not appear in it.
-/

namespace OpGraph

/-- The literal that a node is or becomes when everything below it is folded, and
nothing if it stays an operator. -/
inductive Graph.Settles (g : Graph) (predicates : Bool) : NodeId → Option Value → Prop
  | literal {id : NodeId} {v : Value} : g.form id = .literal v → Settles g predicates id (some v)
  | cast {id x : NodeId} {op : UnaryOp} {type : ValueType} {o : Option Value} :
      g.form id = .cast op x type → Settles g predicates x o →
      Settles g predicates id (g.castOutcome op type x o)
  | binary {id l r : NodeId} {op : BinaryOp} {type : ValueType} {o o' : Option Value} :
      g.form id = .binary op l r type → Settles g predicates l o → Settles g predicates r o' →
      Settles g predicates id (g.binaryOutcome predicates op type l r o o')
  | other {id : NodeId} : g.form id = .other → Settles g predicates id none

namespace Graph

theorem Settles.unique {g : Graph} {predicates : Bool} {id : NodeId} {o o' : Option Value}
    (h : g.Settles predicates id o) (h' : g.Settles predicates id o') : o = o' := by
  induction h generalizing o' with
  | literal hf =>
      cases h' with
      | literal hf' | cast hf' | binary hf' | other hf' => simp_all
  | other hf =>
      cases h' with
      | literal hf' | cast hf' | binary hf' | other hf' => simp_all
  | cast hf _ ih =>
      cases h' with
      | literal hf' | binary hf' | other hf' => simp_all
      | cast hf' hx =>
          rw [hf] at hf'
          cases hf'
          rw [ih hx]
  | binary hf _ _ ihl ihr =>
      cases h' with
      | literal hf' | cast hf' | other hf' => simp_all
      | binary hf' hl hr =>
          rw [hf] at hf'
          cases hf'
          rw [ihl hl, ihr hr]

section Congr

variable {g h : Graph} {predicates : Bool} {id : NodeId}

/-- What becomes of a node is read off the labels and its own inputs. -/
theorem outcome_congr (hlabel : h.label? = g.label?) (hinputs : h.inputsOf id = g.inputsOf id) :
    h.outcome predicates id = g.outcome predicates id := by
  unfold outcome form castOutcome binaryOutcome literalAt? scalarAt predicateAt
  rw [hlabel, hinputs]

/-- What a node settles to is read off the labels and the inputs of nodes from
which inputs do not lead away. -/
theorem Settles.congr {ids : List NodeId} {o : Option Value} (hlabel : h.label? = g.label?)
    (hinputs : ∀ j ∈ ids, h.inputsOf j = g.inputsOf j)
    (hclosed : ∀ j ∈ ids, ∀ c ∈ g.inputsOf j, c ∈ ids) (hs : g.Settles predicates id o)
    (hid : id ∈ ids) : h.Settles predicates id o := by
  have hform : ∀ j ∈ ids, h.form j = g.form j := fun j hj => by
    rw [form, form, hlabel, hinputs j hj]
  induction hs with
  | literal hf => exact .literal ((hform _ hid).trans hf)
  | other hf => exact .other ((hform _ hid).trans hf)
  | @cast id x op type o hf _ ih =>
      obtain ⟨-, hin, -⟩ := form_eq_cast hf
      have hcast : h.castOutcome op type x o = g.castOutcome op type x o := by
        unfold castOutcome scalarAt
        rw [hlabel]
      exact hcast ▸ .cast ((hform id hid).trans hf) (ih (hclosed id hid x (by simp [hin])))
  | @binary id l r op type o o' hf _ _ ihl ihr =>
      obtain ⟨-, hin, -⟩ := form_eq_binary hf
      have hbinary : h.binaryOutcome predicates op type l r o o' =
          g.binaryOutcome predicates op type l r o o' := by
        unfold binaryOutcome scalarAt predicateAt
        rw [hlabel]
      exact hbinary ▸ .binary ((hform id hid).trans hf) (ihl (hclosed id hid l (by simp [hin])))
        (ihr (hclosed id hid r (by simp [hin])))

end Congr

theorem Settles.literalAt?_eq_none {g : Graph} {predicates : Bool} {id : NodeId}
    (h : g.Settles predicates id none) : g.literalAt? id = none := by
  refine Graph.literalAt?_eq_none fun v hform => ?_
  cases h.unique (.literal hform)

end Graph

section Folded

variable {g : Graph} {predicates : Bool} {done : List NodeId} {w : Rewrite} {id : NodeId}

/-- Every node that was handed over is what it settles to, and what was replaced
were scalar operators. -/
structure Folded (g : Graph) (predicates : Bool) (done : List NodeId) (w : Rewrite) : Prop where
  settles : ∀ id ∈ done, g.Settles predicates id (w.graph.literalAt? (w.standIn id))
  operator : ∀ id, w.standIn id ≠ id → g.literalAt? id = none ∧ g.scalarAt id = true

theorem Rewritten.form_of_kept (h : Rewritten g done w) (hid : id < g.size)
    (hself : w.standIn id = id) : w.graph.form id = (g.form id).map w.standIn := by
  unfold Graph.form
  rw [h.label id hid, h.kept id hid hself]
  cases g.label? id with
  | none => rfl
  | some l => exact Label.form_map l _ _

/-- What stands in for a replaced node is a scalar literal. -/
theorem Rewritten.label_of_replaced (h : Rewritten g done w) (hne : w.standIn id ≠ id) :
    ∃ v, w.graph.label? (w.standIn id) = some (.literal v) := by
  obtain ⟨-, hge, hlt⟩ := h.replaced id hne
  obtain ⟨v, hlabel, -⟩ := h.fresh _ hge hlt
  exact ⟨v, hlabel⟩

theorem Folded.scalarAt_standIn (hrw : Rewritten g done w) (h : Folded g predicates done w)
    (hid : id < g.size) : w.graph.scalarAt (w.standIn id) = g.scalarAt id := by
  by_cases hself : w.standIn id = id
  · rw [hself, Graph.scalarAt, Graph.scalarAt, hrw.label id hid]
  · obtain ⟨v, hlabel⟩ := hrw.label_of_replaced hself
    rw [(h.operator id hself).2, Graph.scalarAt, hlabel]
    rfl

theorem Rewritten.literalAt?_of_kept (h : Rewritten g done w) (hid : id < g.size)
    (hself : w.standIn id = id) : w.graph.literalAt? (w.standIn id) = g.literalAt? id := by
  rw [hself, Graph.literalAt?, Graph.literalAt?, h.label id hid]

/-- What is replaced are the operators that settle to a value. -/
theorem Folded.standIn_ne_iff (hrw : Rewritten g done w) (h : Folded g predicates done w)
    (hid : id ∈ done) :
    w.standIn id ≠ id ↔ g.literalAt? id = none ∧ ∃ v, g.Settles predicates id (some v) := by
  constructor
  · intro hne
    obtain ⟨v, hlabel⟩ := hrw.label_of_replaced hne
    have hsettles := h.settles id hid
    rw [Graph.literalAt?_of_label hlabel] at hsettles
    exact ⟨(h.operator id hne).1, v, hsettles⟩
  · rintro ⟨hlit, v, hsettles⟩ hself
    have hsome := (h.settles id hid).unique hsettles
    rw [hrw.literalAt?_of_kept (hrw.done_lt id hid) hself, hlit] at hsome
    cases hsome

theorem Folded.label_of_settles (hrw : Rewritten g done w) (h : Folded g predicates done w)
    (hne : w.standIn id ≠ id) {v : Value} (hsettles : g.Settles predicates id (some v)) :
    w.graph.label? (w.standIn id) = some (.literal v) := by
  obtain ⟨u, hlabel⟩ := hrw.label_of_replaced hne
  have hsome := (h.settles id (hrw.replaced id hne).1).unique hsettles
  rw [Graph.literalAt?_of_label hlabel] at hsome
  cases hsome
  exact hlabel

/-- A node that has become no literal is the node that it was. -/
theorem Rewritten.standIn_of_not_literal (h : Rewritten g done w)
    (hnone : w.graph.literalAt? (w.standIn id) = none) : w.standIn id = id := by
  by_cases hself : w.standIn id = id
  · exact hself
  · obtain ⟨v, hlabel⟩ := h.label_of_replaced hself
    rw [Graph.literalAt?_of_label hlabel] at hnone
    cases hnone

theorem Rewritten.predicateAt_standIn (h : Rewritten g done w) (hid : id < g.size)
    (hnone : w.graph.literalAt? (w.standIn id) = none) :
    w.graph.predicateAt (w.standIn id) = g.predicateAt id := by
  rw [h.standIn_of_not_literal hnone, Graph.predicateAt, Graph.predicateAt, h.label id hid]

theorem Folded.castOutcome_standIn (hrw : Rewritten g done w) (h : Folded g predicates done w)
    {x : NodeId} (hx : x < g.size) (op : UnaryOp) (type : ValueType) (o : Option Value) :
    w.graph.castOutcome op type (w.standIn x) o = g.castOutcome op type x o := by
  unfold Graph.castOutcome
  rw [h.scalarAt_standIn hrw hx]

/-- An input that is no literal counts by its label, and a node that has become no
literal has kept it. -/
theorem Folded.binaryOutcome_standIn (hrw : Rewritten g done w) (h : Folded g predicates done w)
    {l r : NodeId} {o o' : Option Value} (hl : l < g.size) (hr : r < g.size)
    (ho : o = none → w.graph.literalAt? (w.standIn l) = none)
    (ho' : o' = none → w.graph.literalAt? (w.standIn r) = none) (op : BinaryOp)
    (type : ValueType) :
    w.graph.binaryOutcome predicates op type (w.standIn l) (w.standIn r) o o' =
      g.binaryOutcome predicates op type l r o o' := by
  cases o with
  | none =>
      cases o' with
      | none => rfl
      | some b => simp only [Graph.binaryOutcome, hrw.predicateAt_standIn hl (ho rfl)]
  | some a =>
      cases o' with
      | none => simp only [Graph.binaryOutcome, hrw.predicateAt_standIn hr (ho' rfl)]
      | some b =>
          simp only [Graph.binaryOutcome, h.scalarAt_standIn hrw hl, h.scalarAt_standIn hrw hr]

/-- A node that is there and whose inputs were handed over would become what it
settles to. -/
theorem Folded.settles_outcome (hg : g.Balanced) (hrw : Rewritten g done w)
    (h : Folded g predicates done w) (hid : id < g.size) (hself : w.standIn id = id)
    (hinputs : ∀ c ∈ g.inputsOf id, c ∈ done) :
    g.Settles predicates id ((w.graph.outcome predicates id).or (g.literalAt? id)) := by
  unfold Graph.outcome
  rw [hrw.form_of_kept hid hself]
  cases hform : g.form id with
  | literal v =>
      rw [Graph.form_eq_literal_iff.1 hform]
      exact .literal hform
  | other =>
      rw [Graph.literalAt?_eq_none (by simp [hform])]
      exact .other hform
  | cast op x type =>
      obtain ⟨-, hin, -⟩ := Graph.form_eq_cast hform
      have hx : x ∈ g.inputsOf id := by rw [hin]; simp
      rw [Graph.literalAt?_eq_none (by simp [hform]), Option.or_none]
      simp only [Form.map]
      rw [h.castOutcome_standIn hrw (hg.input_lt hx)]
      exact .cast hform (h.settles x (hinputs x hx))
  | binary op l r type =>
      obtain ⟨-, hin, -⟩ := Graph.form_eq_binary hform
      have hl : l ∈ g.inputsOf id := by rw [hin]; simp
      have hr : r ∈ g.inputsOf id := by rw [hin]; simp
      rw [Graph.literalAt?_eq_none (by simp [hform]), Option.or_none]
      simp only [Form.map]
      rw [h.binaryOutcome_standIn hrw (hg.input_lt hl) (hg.input_lt hr) (fun hn => hn) fun hn => hn]
      exact .binary hform (h.settles l (hinputs l hl)) (h.settles r (hinputs r hr))

/-- Only scalar operators have an outcome. -/
theorem Graph.operator_of_outcome {v : Value} (h : g.outcome predicates id = some v) :
    g.literalAt? id = none ∧ g.scalarAt id = true := by
  unfold Graph.outcome at h
  split at h
  · rename_i hform
    obtain ⟨hlabel, -⟩ := Graph.form_eq_cast hform
    rw [Graph.literalAt?, Graph.scalarAt, hlabel]
    exact ⟨rfl, rfl⟩
  · rename_i hform
    obtain ⟨hlabel, -⟩ := Graph.form_eq_binary hform
    rw [Graph.literalAt?, Graph.scalarAt, hlabel]
    exact ⟨rfl, rfl⟩
  · cases h

/-- A node without an outcome is kept. -/
theorem Folded.keep (hg : g.Balanced) (hrw : Rewritten g done w) (h : Folded g predicates done w)
    (hid : id < g.size) (hnew : id ∉ done) (hinputs : ∀ c ∈ g.inputsOf id, c ∈ done) {w' : Rewrite}
    (hnone : w.graph.outcome predicates id = none) (hstand : ∀ j, w'.standIn j = w.standIn j)
    (hlabel : ∀ j, w'.graph.label? j = w.graph.label? j) :
    Folded g predicates (id :: done) w' := by
  have hself : w.standIn id = id := hrw.standIn_eq hnew
  have hout := h.settles_outcome hg hrw hid hself hinputs
  have hlit : ∀ j, w'.graph.literalAt? (w'.standIn j) = w.graph.literalAt? (w.standIn j) := by
    intro j
    rw [hstand, Graph.literalAt?, Graph.literalAt?, hlabel]
  refine ⟨fun j hj => ?_, fun j hne => h.operator j fun heq => hne ((hstand j).trans heq)⟩
  rw [hlit]
  rcases List.mem_cons.1 hj with rfl | hj
  · rw [hnone, Option.none_or] at hout
    rw [hself, Graph.literalAt?, hrw.label j hid]
    exact hout
  · exact h.settles j hj

/-- A node with an outcome is replaced by it. -/
theorem Folded.literal (hg : g.Balanced) (hrw : Rewritten g done w)
    (h : Folded g predicates done w) (hid : id < g.size) (hnew : id ∉ done)
    (hinputs : ∀ c ∈ g.inputsOf id, c ∈ done) {w' : Rewrite} {v : Value}
    (hsome : w.graph.outcome predicates id = some v)
    (hstand : ∀ j, w'.standIn j = if j = id then w.graph.size else w.standIn j)
    (hlabel : ∀ j, w'.graph.label? j =
      if j = w.graph.size then some (.literal v) else w.graph.label? j) :
    Folded g predicates (id :: done) w' := by
  have hout := h.settles_outcome hg hrw hid (hrw.standIn_eq hnew) hinputs
  refine ⟨fun j hj => ?_, fun j hne => ?_⟩
  · by_cases hji : j = id
    · subst hji
      rw [hsome, Option.some_or] at hout
      rw [hstand, if_pos rfl, Graph.literalAt?, hlabel, if_pos rfl]
      exact hout
    · have hmem : j ∈ done := (List.mem_cons.1 hj).resolve_left hji
      have hjlt := hrw.standIn_lt (hrw.done_lt j hmem)
      rw [hstand, if_neg hji, Graph.literalAt?, hlabel, if_neg (Nat.ne_of_lt hjlt)]
      exact h.settles j hmem
  · by_cases hji : j = id
    · subst hji
      have hop := Graph.operator_of_outcome hsome
      rw [Graph.literalAt?, Graph.scalarAt, hrw.label j hid] at hop
      exact hop
    · exact h.operator j fun heq => hne (((hstand j).trans (if_neg hji)).trans heq)

/-- The rule answers with a literal exactly where there is an outcome. -/
theorem Pass.Finished.outcome {p p' : Pass Interpreter}
    (hverdict : (Folding.node Interpreter.evaluate predicates p.graph id p.tally.countVisit
      p.memory).1 = .ok ((p.graph.outcome predicates id).elim .keep .literal))
    (h : Pass.Finished (Folding.node Interpreter.evaluate predicates) p id p') :
    (p.graph.outcome predicates id = none ∧ (∀ j, p'.standIn j = p.standIn j) ∧
        ∀ j, p'.graph.label? j = p.graph.label? j) ∨
      ∃ v, p.graph.outcome predicates id = some v ∧
        (∀ j, p'.standIn j = if j = id then p.graph.size else p.standIn j) ∧
        ∀ j, p'.graph.label? j =
          if j = p.graph.size then some (.literal v) else p.graph.label? j := by
  cases h with
  | keep hanswer hstand hlabel =>
      rw [hanswer] at hverdict
      cases hout : p.graph.outcome predicates id with
      | none => exact .inl ⟨rfl, hstand, hlabel⟩
      | some v =>
          rw [hout] at hverdict
          cases hverdict
  | literal v hanswer hstand hlabel =>
      rw [hanswer] at hverdict
      cases hout : p.graph.outcome predicates id with
      | none =>
          rw [hout] at hverdict
          cases hverdict
      | some w =>
          rw [hout] at hverdict
          cases hverdict
          exact .inr ⟨v, rfl, hstand, hlabel⟩

theorem Folded.step {p p' : Pass Interpreter} (hg : g.Balanced)
    (hrw : Rewritten g done p.rewrite) (h : Folded g predicates done p.rewrite)
    (hid : id < g.size) (hnew : id ∉ done) (hinputs : ∀ c ∈ g.inputsOf id, c ∈ done)
    (hfinished : Pass.Finished (Folding.node Interpreter.evaluate predicates) p id p') :
    Folded g predicates (id :: done) p'.rewrite := by
  have hlt : id < p.graph.size := Nat.lt_of_lt_of_le hid hrw.size
  have hverdict := Folding.node_verdict hrw.balanced hlt predicates p.tally.countVisit p.memory
  rcases hfinished.outcome hverdict with ⟨hnone, hstand, hlabel⟩ | ⟨v, hsome, hstand, hlabel⟩
  · exact h.keep hg hrw hid hnew hinputs hnone hstand hlabel
  · exact h.literal hg hrw hid hnew hinputs hsome hstand hlabel

end Folded

/-- A pass of constant folding makes of every node what it settles to. -/
theorem Pass.exists_folded {g : Graph} (hg : g.Balanced) {roots order : List NodeId}
    (hpost : g.postorder roots = .ok order) (predicates : Bool) (t : Tally) (m : Interpreter) :
    ∃ p, overRoots (Folding.node Interpreter.evaluate predicates) roots ⟨⟨g, t, m⟩, []⟩ =
        .ok (roots.map p.standIn) p ∧
      Rewritten g order.reverse p.rewrite ∧ Folded g predicates order.reverse p.rewrite := by
  refine overRoots_induct (motive := fun done p => Folded g predicates done p.rewrite)
    (Folding.putsLiterals _ _) hg hpost ?_ ?_ t m
  · intro p hrw
    exact ⟨fun j hj => absurd hj List.not_mem_nil,
      fun j hne => absurd (hrw.replaced j hne).1 List.not_mem_nil⟩
  · intro done p id p' hrw hfolded hid hnew hinputs hfinished
    exact hfolded.step hg hrw hid hnew hinputs hfinished

theorem Folding.folded_of_apply {g : Graph} (hg : g.Balanced) {predicates : Bool}
    {roots news : List NodeId} {t : Tally} {m : Interpreter} {s : Session Interpreter}
    (h : (rule Interpreter.evaluate predicates).apply roots ⟨g, t, m⟩ = .ok news s) :
    ∃ order w, g.postorder roots = .ok order ∧ Rewritten g order.reverse w ∧
      Folded g predicates order.reverse w ∧ s.graph = w.graph ∧ news = roots.map w.standIn := by
  obtain ⟨order, hpost⟩ := NodeRule.postorder_of_applyRoots h
  obtain ⟨p, hrun, hrw, hfolded⟩ := Pass.exists_folded hg hpost predicates t m
  have hsame := (NodeRule.applyRoots_of_overRoots hrun).symm.trans h
  cases hsame
  exact ⟨order, p.rewrite, hpost, hrw, hfolded, rfl, rfl⟩

/-- A pass of constant folding leaves a mark on everything below its roots and on
what came new. -/
theorem Folding.marked_of_apply {g : Graph} (hg : g.Balanced) {predicates : Bool}
    {roots news order : List NodeId} {t : Tally} {m : Interpreter} {s : Session Interpreter}
    (h : (rule Interpreter.evaluate predicates).apply roots ⟨g, t, m⟩ = .ok news s)
    (hpost : g.postorder roots = .ok order) {id : NodeId} (hid : id < s.graph.size)
    (hcase : id ∈ order ∨ g.size ≤ id ∨ g.visited? id = some true) :
    s.graph.visited? id = some true := by
  obtain ⟨p, hrun, -⟩ := Pass.exists_folded hg hpost predicates t m
  have hsame := (NodeRule.applyRoots_of_overRoots hrun).symm.trans h
  cases hsame
  exact Pass.marked_of_overRoots (Folding.putsLiterals _ _) hg hpost hrun hid hcase

end OpGraph
