import OpGraph.Proofs.Safety

/-!
# Folding what was folded before

A second pass works on the graph that a first one has left, and may have other
roots. Together the two do what `Settles` says of the graph before the first
(`Folded.andThen`), because the first has not changed what a node settles to
(`Folded.settles_back`). A node that the first has replaced is never replaced
again: a new literal is no operator, and the old node has lost its inputs and
settles to nothing.

The last part follows the nodes below the roots. The second pass does not enter
what lies below a literal that the first has made, but the first has been there
itself, so nothing below the roots of either is left out (`FoldedBelow.andThen`).
-/

namespace OpGraph

/-- A rewriting, and another one of its graph. -/
def Rewrite.andThen (w v : Rewrite) : Rewrite := ⟨v.graph, fun id => v.standIn (w.standIn id)⟩

/-- The nodes of the first graph that were handed over in one of two passes. -/
def handedOver (g : Graph) (done later : List NodeId) : List NodeId :=
  later.filter (· < g.size) ++ done

theorem mem_handedOver {g : Graph} {done later : List NodeId} {id : NodeId} :
    id ∈ handedOver g done later ↔ (id ∈ later ∧ id < g.size) ∨ id ∈ done := by
  simp [handedOver]

theorem Graph.form_of_no_inputs {g : Graph} {id : NodeId} (hlit : g.literalAt? id = none)
    (hinputs : g.inputsOf id = []) : g.form id = .other := by
  cases hform : g.form id with
  | other => rfl
  | literal v =>
      rw [Graph.form_eq_literal_iff.1 hform] at hlit
      cases hlit
  | cast op x type =>
      obtain ⟨-, hin, -⟩ := Graph.form_eq_cast hform
      rw [hin] at hinputs
      cases hinputs
  | binary op l r type =>
      obtain ⟨-, hin, -⟩ := Graph.form_eq_binary hform
      rw [hin] at hinputs
      cases hinputs

section One

variable {g : Graph} {predicates : Bool} {done : List NodeId} {w : Rewrite} {id : NodeId}

/-- What is left of a replaced node settles to nothing. -/
theorem Folded.form_of_replaced (hrw : Rewritten g done w) (h : Folded g predicates done w)
    (hne : w.standIn id ≠ id) : w.graph.form id = .other := by
  refine Graph.form_of_no_inputs ?_ (hrw.gone id hne)
  rw [Graph.literalAt?, hrw.label id (hrw.done_lt id (hrw.replaced id hne).1)]
  exact (h.operator id hne).1

/-- What a node settles to is not changed by folding. -/
theorem Folded.settles_back (hg : g.Balanced) (hrw : Rewritten g done w)
    (h : Folded g predicates done w) {j : NodeId} {o : Option Value}
    (hj : w.graph.Settles predicates j o) :
    ∀ id < g.size, j = w.standIn id → g.Settles predicates id o := by
  -- A replaced node has become a literal, and settles to nothing else.
  have replaced : ∀ {id o}, w.graph.Settles predicates (w.standIn id) o → w.standIn id ≠ id →
      g.Settles predicates id o := by
    intro id o hj hne
    obtain ⟨v, hlabel⟩ := hrw.label_of_replaced hne
    have hlit := Graph.literalAt?_of_label hlabel
    rw [hj.unique (.literal (Graph.form_eq_literal_iff.2 hlit)), ← hlit]
    exact h.settles id (hrw.replaced id hne).1
  induction hj with
  | @literal j v hform =>
      rintro id hid rfl
      by_cases hself : w.standIn id = id
      · rw [Graph.form_eq_literal_iff, hrw.literalAt?_of_kept hid hself] at hform
        exact .literal (Graph.form_eq_literal_iff.2 hform)
      · exact replaced (.literal hform) hself
  | @other j hform =>
      rintro id hid rfl
      by_cases hself : w.standIn id = id
      · rw [hself, hrw.form_of_kept hid hself] at hform
        refine .other ?_
        cases hold : g.form id with
        | other => rfl
        | literal v | cast op x type | binary op l r type =>
            rw [hold] at hform
            cases hform
      · exact replaced (.other hform) hself
  | @cast j x' op type o hform hx ih =>
      rintro id hid rfl
      by_cases hself : w.standIn id = id
      · rw [hself, hrw.form_of_kept hid hself] at hform
        cases hold : g.form id with
        | other | literal v | binary op l r type =>
            rw [hold] at hform
            cases hform
        | cast op x type =>
            rw [hold] at hform
            cases hform
            obtain ⟨-, hin, -⟩ := Graph.form_eq_cast hold
            have hlt : x < g.size := hg.input_lt (show x ∈ g.inputsOf id by rw [hin]; simp)
            rw [h.castOutcome_standIn hrw hlt]
            exact .cast hold (ih x hlt rfl)
      · exact replaced (.cast hform hx) hself
  | @binary j l' r' op type o o' hform hl hr ihl ihr =>
      rintro id hid rfl
      by_cases hself : w.standIn id = id
      · rw [hself, hrw.form_of_kept hid hself] at hform
        cases hold : g.form id with
        | other | literal v | cast op x type =>
            rw [hold] at hform
            cases hform
        | binary op l r type =>
            rw [hold] at hform
            cases hform
            obtain ⟨-, hin, -⟩ := Graph.form_eq_binary hold
            have hllt : l < g.size := hg.input_lt (show l ∈ g.inputsOf id by rw [hin]; simp)
            have hrlt : r < g.size := hg.input_lt (show r ∈ g.inputsOf id by rw [hin]; simp)
            rw [h.binaryOutcome_standIn hrw hllt hrlt
              (fun hn => Graph.Settles.literalAt?_eq_none (hn ▸ hl))
              (fun hn => Graph.Settles.literalAt?_eq_none (hn ▸ hr))]
            exact .binary hold (ihl l hllt rfl) (ihr r hrlt rfl)
      · exact replaced (.binary hform hl hr) hself

end One

section Two

variable {g : Graph} {predicates : Bool} {done later : List NodeId} {w v : Rewrite} {id : NodeId}

variable (hrw : Rewritten g done w) (h : Folded g predicates done w)
  (hrw' : Rewritten w.graph later v) (h' : Folded w.graph predicates later v)

include hrw hrw' h'

theorem Folded.standIn_of_fresh (hge : g.size ≤ id) : v.standIn id = id := by
  by_cases hself : v.standIn id = id
  · exact hself
  · have hlt : id < w.graph.size := hrw'.done_lt id (hrw'.replaced id hself).1
    obtain ⟨u, hlabel, -⟩ := hrw.fresh id hge hlt
    have hnone := (h'.operator id hself).1
    rw [Graph.literalAt?_of_label hlabel] at hnone
    cases hnone

include h

theorem Folded.standIn_of_replaced (hne : w.standIn id ≠ id) :
    v.standIn id = id ∧ v.standIn (w.standIn id) = w.standIn id := by
  refine ⟨?_, h'.standIn_of_fresh hrw hrw' (hrw.replaced id hne).2.1⟩
  by_cases hself : v.standIn id = id
  · exact hself
  · have hsettles := h'.settles id (hrw'.replaced id hself).1
    have hnone := hsettles.unique (.other (h.form_of_replaced hrw hne))
    exact hrw'.standIn_of_not_literal hnone

/-- What two passes keep, each of them keeps. -/
theorem Folded.kept_of_andThen (hself : (w.andThen v).standIn id = id) :
    w.standIn id = id ∧ v.standIn id = id := by
  have hself : v.standIn (w.standIn id) = id := hself
  by_cases hw : w.standIn id = id
  · rw [hw] at hself
    exact ⟨hw, hself⟩
  · obtain ⟨-, hfix⟩ := h.standIn_of_replaced hrw hrw' h' hw
    exact absurd (hfix.symm.trans hself) hw

/-- What two passes replace, one of them replaces and the other one keeps. -/
theorem Folded.replaced_of_andThen (hne : (w.andThen v).standIn id ≠ id) :
    (w.standIn id ≠ id ∧ v.standIn id = id ∧ (w.andThen v).standIn id = w.standIn id) ∨
      (w.standIn id = id ∧ v.standIn id ≠ id ∧ (w.andThen v).standIn id = v.standIn id ∧
        id < g.size) := by
  by_cases hw : w.standIn id = id
  · have heq : (w.andThen v).standIn id = v.standIn id := congrArg v.standIn hw
    rw [heq] at hne
    refine .inr ⟨hw, hne, heq, Nat.lt_of_not_le fun hge => hne ?_⟩
    exact h'.standIn_of_fresh hrw hrw' hge
  · obtain ⟨hkept, hfix⟩ := h.standIn_of_replaced hrw hrw' h' hw
    exact .inl ⟨hw, hkept, hfix⟩

theorem Folded.rewritten_andThen :
    Rewritten g (handedOver g done later) (w.andThen v) where
  balanced := hrw'.balanced
  size := Nat.le_trans hrw.size hrw'.size
  label j hj := (hrw'.label j (Nat.lt_of_lt_of_le hj hrw.size)).trans (hrw.label j hj)
  kept j hj hself := by
    obtain ⟨hw, hv⟩ := h.kept_of_andThen hrw hrw' h' hself
    show v.graph.inputsOf j = _
    rw [hrw'.kept j (Nat.lt_of_lt_of_le hj hrw.size) hv, hrw.kept j hj hw, List.map_map]
    rfl
  gone j hne := by
    show v.graph.inputsOf j = []
    rcases h.replaced_of_andThen hrw hrw' h' hne with ⟨hw, hv, -⟩ | ⟨-, hv, -⟩
    · have hlt := hrw.done_lt j (hrw.replaced j hw).1
      rw [hrw'.kept j (Nat.lt_of_lt_of_le hlt hrw.size) hv, hrw.gone j hw, List.map_nil]
    · exact hrw'.gone j hv
  done_lt j hj := by
    rcases mem_handedOver.1 hj with ⟨-, hlt⟩ | hmem
    · exact hlt
    · exact hrw.done_lt j hmem
  replaced j hne := by
    rcases h.replaced_of_andThen hrw hrw' h' hne with ⟨hw, -, heq⟩ | ⟨-, hv, heq, hlt⟩
    · obtain ⟨hmem, hge, hltj⟩ := hrw.replaced j hw
      rw [heq]
      exact ⟨mem_handedOver.2 (.inr hmem), hge, Nat.lt_of_lt_of_le hltj hrw'.size⟩
    · obtain ⟨hmem, hge, hltj⟩ := hrw'.replaced j hv
      rw [heq]
      exact ⟨mem_handedOver.2 (.inl ⟨hmem, hlt⟩), Nat.le_trans hrw.size hge, hltj⟩
  fresh j hge hlt := by
    show ∃ u, v.graph.label? j = _ ∧ v.graph.inputsOf j = []
    rcases Nat.lt_or_ge j w.graph.size with hjw | hjw
    · obtain ⟨u, hlabel, hin⟩ := hrw.fresh j hge hjw
      refine ⟨u, (hrw'.label j hjw).trans hlabel, ?_⟩
      rw [hrw'.kept j hjw (h'.standIn_of_fresh hrw hrw' hge), hin, List.map_nil]
    · exact hrw'.fresh j hjw hlt

/-- Two passes make of every node what it settles to. -/
theorem Folded.andThen (hg : g.Balanced) :
    Folded g predicates (handedOver g done later) (w.andThen v) where
  settles j hj := by
    show g.Settles predicates j (v.graph.literalAt? (v.standIn (w.standIn j)))
    have hjg : j < g.size := (h.rewritten_andThen hrw hrw' h').done_lt j hj
    have hlt := hrw.standIn_lt hjg
    by_cases hlater : w.standIn j ∈ later
    · exact h.settles_back hg hrw (h'.settles _ hlater) j hjg rfl
    · rw [hrw'.literalAt?_of_kept hlt (hrw'.standIn_eq hlater)]
      by_cases hw : w.standIn j = j
      · rw [hw] at hlater
        exact h.settles j ((mem_handedOver.1 hj).resolve_left fun hmem => hlater hmem.1)
      · exact h.settles j (hrw.replaced j hw).1
  operator j hne := by
    rcases h.replaced_of_andThen hrw hrw' h' hne with ⟨hw, -⟩ | ⟨-, hv, -, hlt⟩
    · exact h.operator j hw
    · have hop := h'.operator j hv
      rw [Graph.literalAt?, Graph.scalarAt, hrw.label j hlt] at hop
      exact hop

/-- A second pass does not touch what stands in for the nodes of the first. -/
theorem Folded.standIn_stable (hg : g.Balanced) (hid : id ∈ done) :
    v.standIn (w.standIn id) = w.standIn id := by
  by_cases hv : v.standIn (w.standIn id) = w.standIn id
  · exact hv
  · have hsettles := h.settles_back hg hrw (h'.settles _ (hrw'.replaced _ hv).1) id
      (hrw.done_lt id hid) rfl
    have hnone := (h.settles id hid).unique hsettles
    rw [(h'.operator _ hv).1] at hnone
    exact hrw'.standIn_of_not_literal hnone.symm

end Two

/-! ## The nodes below the roots -/

section Below

variable {g : Graph} {predicates : Bool} {done : List NodeId} {w : Rewrite} {id : NodeId}

/-- An edge to a node that is not new was there before. -/
theorem Rewritten.holds_back (h : Rewritten g done w) {c : NodeId} (hc : w.graph.Holds id c)
    (hlt : c < g.size) : g.Holds id c := by
  have hself : w.standIn id = id := by
    by_cases hself : w.standIn id = id
    · exact hself
    · have hc : c ∈ w.graph.inputsOf id := hc
      rw [h.gone id hself] at hc
      cases hc
  rw [← hself] at hc
  obtain ⟨c', hheld, rfl⟩ := h.holds_standIn hc
  by_cases hkept : w.standIn c' = c'
  · rw [hkept]
    exact hheld
  · exact absurd hlt (Nat.not_lt.2 (h.replaced c' hkept).2.1)

theorem Rewritten.reaches_back (h : Rewritten g done w) {r : NodeId}
    (hreach : w.graph.Reaches r id) : id < g.size → g.Reaches r id := by
  induction hreach with
  | refl => exact fun _ => Relation.ReflTransGen.refl
  | @tail b c _ hstep ih =>
      intro hc
      have hheld := h.holds_back hstep hc
      exact (ih (Graph.lt_size_of_mem_inputsOf hheld)).tail hheld

/-- A way down that is new ends at a literal. Those that a pass has closed are
nodes that were handed over. -/
theorem Rewritten.grounded_back (hg : g.Balanced) (h : Rewritten g done w)
    (hdone : ∀ id ∈ done, g.Grounded id) (hground : w.graph.Grounded id) :
    id < g.size → g.Grounded id := by
  induction hground with
  | intro id _ ih =>
      intro hid
      by_cases hmem : id ∈ done
      · exact hdone id hmem
      · refine Acc.intro _ fun c hc => ?_
        by_cases hkept : w.standIn c = c
        · refine ih c ?_ (hg.input_lt hc)
          show c ∈ w.graph.inputsOf id
          rw [h.kept id hid (h.standIn_eq hmem)]
          exact List.mem_map.2 ⟨c, hc, hkept⟩
        · exact hdone c (h.replaced c hkept).1

/-- Everything below some roots was folded, and nothing else was touched. -/
structure FoldedBelow (g : Graph) (predicates : Bool) (roots done : List NodeId) (w : Rewrite) :
    Prop extends Rewritten g done w, Folded g predicates done w where
  grounded : ∀ id ∈ done, g.Grounded id
  mem_done : ∀ id, id ∈ done ↔ ∃ r ∈ roots, g.Reaches r id

theorem FoldedBelow.start (hg : g.Balanced) (predicates : Bool) :
    FoldedBelow g predicates [] [] ⟨g, fun id => id⟩ where
  toRewritten := (Pass.tracks_start hg .zero ()).toRewritten
  settles _ h := absurd h List.not_mem_nil
  operator _ h := absurd rfl h
  grounded _ h := absurd h List.not_mem_nil
  mem_done id := by simp

theorem FoldedBelow.mem_of_holds {roots : List NodeId} {c : NodeId}
    (h : FoldedBelow g predicates roots done w) (hid : id ∈ done) (hc : g.Holds id c) :
    c ∈ done := by
  obtain ⟨r, hr, hreach⟩ := (h.mem_done id).1 hid
  exact (h.mem_done c).2 ⟨r, hr, hreach.tail hc⟩

/-- A pass over more roots, on the graph as it is now. -/
theorem FoldedBelow.andThen (hg : g.Balanced) {roots news order : List NodeId} {v : Rewrite}
    (h : FoldedBelow g predicates roots done w) (hlt : ∀ r ∈ news, r < g.size)
    (hpost : w.graph.postorder news = .ok order)
    (hrw' : Rewritten w.graph order.reverse v) (h' : Folded w.graph predicates order.reverse v) :
    FoldedBelow g predicates (roots ++ news) (handedOver g done order.reverse) (w.andThen v) where
  toRewritten := h.toFolded.rewritten_andThen h.toRewritten hrw' h'
  toFolded := h.toFolded.andThen h.toRewritten hrw' h' hg
  grounded j hj := by
    rcases mem_handedOver.1 hj with ⟨hmem, hjlt⟩ | hmem
    · have hground := (Graph.postorder_spec hpost).1.grounded hmem
      exact h.grounded_back hg h.grounded hground hjlt
    · exact h.grounded j hmem
  mem_done j := by
    obtain ⟨hfirst, hlisted⟩ := Graph.postorder_spec hpost
    rw [mem_handedOver]
    constructor
    · rintro (⟨hmem, hjlt⟩ | hmem)
      · obtain ⟨r, hr, hreach⟩ := (hlisted j).1 (List.mem_reverse.1 hmem)
        exact ⟨r, List.mem_append_right _ hr, h.reaches_back hreach hjlt⟩
      · obtain ⟨r, hr, hreach⟩ := (h.mem_done j).1 hmem
        exact ⟨r, List.mem_append_left _ hr, hreach⟩
    · rintro ⟨r, hr, hreach⟩
      rcases List.mem_append.1 hr with hr | hr
      · exact .inr ((h.mem_done j).2 ⟨r, hr, hreach⟩)
      -- Down from a root of the second pass, until there is a node of the first.
      · induction hreach with
        | refl =>
            have hmem := (hlisted r).2 ⟨r, hr, Relation.ReflTransGen.refl⟩
            exact .inl ⟨List.mem_reverse.2 hmem, hlt r hr⟩
        | @tail b c _ hstep ih =>
            by_cases hc : c ∈ done
            · exact .inr hc
            · have hkept : w.standIn c = c := h.standIn_eq hc
              rcases ih with ⟨hb, hblt⟩ | hb
              · refine .inl ⟨hfirst.input_mem hb ?_, hg.input_lt hstep⟩
                by_cases hself : w.standIn b = b
                · rw [h.kept b hblt hself]
                  exact List.mem_map.2 ⟨c, hstep, hkept⟩
                · exact absurd (h.mem_of_holds (h.replaced b hself).1 hstep) hc
              · exact absurd (h.mem_of_holds hb hstep) hc

end Below

end OpGraph
