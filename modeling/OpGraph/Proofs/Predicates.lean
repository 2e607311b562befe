import OpGraph.Proofs.Soundness

/-!
# Predicates that are decided by one operand

A conjunction with `FALSE` and a disjunction with `TRUE` become literals without
a look at the other operand, if that one is declared to be a truth value. This
file says when that keeps values. The other operand may fail when it is executed,
and then there is no value to keep. If it has a value, the operator on both
operands gives the truth value that decides it; but the result of an execution is
converted to the type that the node declares, and the literal is not.

So the values below a root are kept exactly if the decided nodes below it that
have a value declare the type boolean or none at all
(`Graph.foldConstants_keeps_values_iff`). A conjunction that declares to be an
integer has the value `0` before and `FALSE` after. What an operator above makes
of the other value is up to the operator, and the theorem says it of a root: it
has the value of the expression with decided nodes as constants.
-/

namespace OpGraph

namespace Graph

/-- All decided nodes at or below a node that have a value declare the type
boolean or none. -/
def PlainlyTyped (g : Graph) (root : NodeId) : Prop :=
  ∀ id type b v, g.Reaches root id → g.execute id = .ok v → g.Decided true id type b →
    type = .boolean ∨ type = .unknown

theorem PlainlyTyped.input {g : Graph} {id c : NodeId} (h : g.PlainlyTyped id)
    (hc : c ∈ g.inputsOf id) : g.PlainlyTyped c :=
  fun j type b v hreach => h j type b v (Relation.ReflTransGen.head hc hreach)

/-! ## Values with a declared type -/

theorem literal_of_term {g : Graph} {id : NodeId} {v : Value}
    (h : g.term id = .ok (.constant v)) : g.literalAt? id = some v := by
  obtain ⟨l, hl, ht⟩ := exists_label_of_term h
  rw [literalAt?, hl, Option.bind_some, Label.literal?, NodeKind.term_eq_constant ht]

/-- An operator that is declared to be a truth value is converted to one. -/
theorem type_of_predicate {g : Graph} {id : NodeId} {call : Application} {type : ValueType}
    (h : g.term id = .ok (.apply call type)) (hpred : g.predicateAt id = true) :
    type = .boolean := by
  obtain ⟨l, hl, ht⟩ := exists_label_of_term h
  rw [predicateAt, hl, Option.any_some, Bool.and_eq_true, beq_iff_eq, beq_iff_eq] at hpred
  rw [(NodeKind.term_eq_apply ht).2.1, hpred.2]

end Graph

/-- A converted value has the type it was converted to. -/
theorem Value.type_of_coerce {type : ValueType} {v w : Value} (h : v.coerce type = .ok w) :
    type = .unknown ∨ w.type = type := by
  cases type with
  | double | int | boolean =>
      simp only [Value.coerce, Except.map] at h
      split at h
      · cases h
      · cases h
        exact .inr rfl
  | string =>
      cases h
      exact .inr rfl
  | unknown => exact .inl rfl

theorem UnaryOp.type_of_result {op : UnaryOp} {type : ValueType} {a v : Value}
    (h : op.result type a = .ok v) : type = .unknown ∨ v.type = type := by
  obtain ⟨y, -, hv⟩ := exists_of_bind_eq_ok h
  exact Value.type_of_coerce hv

theorem BinaryOp.type_of_result {op : BinaryOp} {type : ValueType} {a b v : Value}
    (h : op.result type a b = .ok v) : type = .unknown ∨ v.type = type := by
  obtain ⟨y, -, hv⟩ := exists_of_bind_eq_ok h
  exact Value.type_of_coerce hv

/-- A truth value that decides an operator is the result on any two truth values
of which it is one. -/
theorem BinaryOp.apply_absorbing {op : BinaryOp} {b : Bool} (h : op.absorbing? = some b)
    (c : Bool) : applyBinary op (.boolean b) (.boolean c) = .ok (.boolean b) ∧
      applyBinary op (.boolean c) (.boolean b) = .ok (.boolean b) := by
  cases op with
  | and =>
      cases h
      cases c <;> exact ⟨rfl, rfl⟩
  | or =>
      cases h
      cases c <;> exact ⟨rfl, rfl⟩
  | plus | minus | times | divide | modulus | intDivide | power | less | lessEqual | greater
  | greaterEqual | equal | notEqual | min | max | log | cbind | rbind => cases h

namespace Graph

/-- An operator that is declared to be a truth value has no other values. -/
theorem Reads.boolean_of_predicate {g : Graph} {id : NodeId} {e : Expr} {v : Value}
    (h : g.Reads id (.ok e)) (hvalue : e.value = .ok v) (hpred : g.predicateAt id = true)
    (hlit : g.literalAt? id = none) : ∃ c, v = .boolean c := by
  have boolean : v.type = .boolean → ∃ c, v = .boolean c := by
    intro htype
    cases v with
    | boolean c => exact ⟨c, rfl⟩
    | double x | int n | string s => cases htype
  obtain ⟨t, ht⟩ := h.exists_term
  cases t with
  | constant w =>
      rw [literal_of_term ht] at hlit
      cases hlit
  | apply call type =>
      cases type_of_predicate ht hpred
      cases call with
      | unary op x =>
          obtain ⟨ex, rfl, -⟩ := h.of_unary ht
          obtain ⟨a, -, hresult⟩ := Expr.value_unary hvalue
          exact boolean ((op.type_of_result hresult).resolve_left (by simp))
      | binary op l r =>
          obtain ⟨el, er, rfl, -, -⟩ := h.of_binary ht
          obtain ⟨a, b, -, -, hresult⟩ := Expr.value_binary hvalue
          exact boolean ((op.type_of_result hresult).resolve_left (by simp))

theorem Decided.of_binary {g : Graph} {id l r : NodeId} {op : BinaryOp} {type type' : ValueType}
    {b : Bool} (h : g.Decided true id type' b)
    (ht : g.term id = .ok (.apply (.binary op l r) type)) :
    type' = type ∧ op.absorbing? = some b ∧
      ((g.Settles true l (some (.boolean b)) ∧ g.Settles true r none ∧ g.predicateAt r = true) ∨
        (g.Settles true l none ∧ g.Settles true r (some (.boolean b)) ∧
          g.predicateAt l = true)) := by
  obtain ⟨-, op', l', r', hform, hop, hside⟩ := h
  rw [term_of_binary hform] at ht
  cases ht
  exact ⟨rfl, hop, hside⟩

/-- Where decided nodes have plain types, reading them as constants changes no
value. -/
theorem Reads.readsDecided {g : Graph} {id : NodeId} {r : Except EvalError Expr}
    (h : g.Reads id r) : ∀ e v, r = .ok e → e.value = .ok v → g.PlainlyTyped id →
      ∃ e', g.ReadsDecided true id (.ok e') ∧ e'.value = .ok v := by
  induction h with
  | fault ht =>
      intro e v he
      cases he
  | constant ht =>
      intro e v he hvalue _
      cases he
      exact ⟨_, .constant ht, hvalue⟩
  | @unary id x op type a ht _ ih =>
      intro e v he hvalue hplain
      cases a with
      | error err => cases he
      | ok ex =>
          cases he
          obtain ⟨y, hvaluex, hresult⟩ := Expr.value_unary hvalue
          have hheld : g.Holds id x := holds_of_term ht (by simp [Application.inputs])
          obtain ⟨ex', hx', hvaluex'⟩ := ih ex y rfl hvaluex (hplain.input hheld)
          refine ⟨_, .unary ht hx', ?_⟩
          rw [Expr.value, hvaluex']
          exact hresult
  | @binary id l r op type a b ht hl hr ihl ihr =>
      intro e v he hvalue hplain
      cases a with
      | error err => cases he
      | ok el =>
          cases b with
          | error err => cases he
          | ok er =>
              cases he
              obtain ⟨x, y, hvaluel, hvaluer, hresult⟩ := Expr.value_binary hvalue
              have hheldl : g.Holds id l := holds_of_term ht (by simp [Application.inputs])
              have hheldr : g.Holds id r := holds_of_term ht (by simp [Application.inputs])
              obtain ⟨el', hl', hvaluel'⟩ := ihl el x rfl hvaluel (hplain.input hheldl)
              obtain ⟨er', hr', hvaluer'⟩ := ihr er y rfl hvaluer (hplain.input hheldr)
              by_cases hd : ∃ type b, g.Decided true id type b
              · obtain ⟨type', b, hd⟩ := hd
                have hexecute : g.execute id = .ok v := (Reads.binary ht hl hr).execute.trans hvalue
                have hplaintype := hplain id type' b v Relation.ReflTransGen.refl hexecute hd
                obtain ⟨rfl, hop, hside⟩ := hd.of_binary ht
                -- The operand that is left out has a value, which is a truth value.
                have happly : applyBinary op x y = .ok (.boolean b) := by
                  rcases hside with ⟨hsl, hsr, hpred⟩ | ⟨hsl, hsr, hpred⟩
                  · cases hsl.eq_value hl.scalarAt hl' hvaluel'
                    obtain ⟨c, rfl⟩ :=
                      hr.boolean_of_predicate hvaluer hpred hsr.literalAt?_eq_none
                    exact (BinaryOp.apply_absorbing hop c).1
                  · cases hsr.eq_value hr.scalarAt hr' hvaluer'
                    obtain ⟨c, rfl⟩ :=
                      hl.boolean_of_predicate hvaluel hpred hsl.literalAt?_eq_none
                    exact (BinaryOp.apply_absorbing hop c).2
                rw [BinaryOp.result, happly] at hresult
                refine ⟨_, .decided hd, ?_⟩
                rcases hplaintype with rfl | rfl
                · exact hresult
                · exact hresult
              · refine ⟨_, .binary ht (fun type b h => hd ⟨type, b, h⟩) hl' hr', ?_⟩
                rw [Expr.value, hvaluel', hvaluer']
                exact hresult

theorem exists_value_of_execute {g : Graph} {id : NodeId} {v : Value} (hground : g.Grounded id)
    (h : g.execute id = .ok v) : ∃ e, g.Reads id (.ok e) ∧ e.value = .ok v := by
  obtain ⟨r, hr⟩ := exists_reads hground
  rw [hr.execute] at h
  cases r with
  | error err => cases h
  | ok e => exact ⟨e, hr, h⟩

/-- The value of a decided node has the declared type, if there is one. -/
theorem Decided.type_eq {g : Graph} {id : NodeId} {type : ValueType} {b : Bool} {e : Expr}
    {v : Value} (h : g.Decided true id type b) (hreads : g.Reads id (.ok e))
    (hvalue : e.value = .ok v) : type = .unknown ∨ v.type = type := by
  obtain ⟨op, l, r, ht⟩ := h.exists_term
  obtain ⟨el, er, rfl, -, -⟩ := hreads.of_binary ht
  obtain ⟨x, y, -, -, hresult⟩ := Expr.value_binary hvalue
  exact op.type_of_result hresult

/-- After folding with predicates a root has the value of its expression with
decided nodes read as constants. All nodes below it keep their values exactly if
the decided ones that have a value declare the type boolean or none. -/
theorem foldConstants_keeps_values_iff {g : Graph} {roots order : List NodeId}
    (hg : g.Consistent) (hpost : g.postorder roots = .ok order) :
    ∃ p : Pass Interpreter,
      Pass.overRoots (Folding.node Interpreter.evaluate true) roots ⟨⟨g, .zero, .new⟩, []⟩ =
        .ok (roots.map p.standIn) p ∧
      foldConstants roots g = .ok (roots.map p.standIn, p.tally) p.graph ∧
      ∀ root ∈ roots,
        (∀ v, p.graph.execute (p.standIn root) = .ok v ↔
          ∃ e, g.ReadsDecided true root (.ok e) ∧ e.value = .ok v) ∧
        ((∀ id, g.Reaches root id → ∀ v, g.execute id = .ok v →
          p.graph.execute (p.standIn id) = .ok v) ↔ g.PlainlyTyped root) := by
  obtain ⟨p, hrun, hrw, hfolded⟩ := Pass.exists_folded hg.balanced hpost true .zero .new
  have happly : (Folding.rule Interpreter.evaluate true).apply roots ⟨g, .zero, .new⟩ =
      .ok (roots.map p.standIn) p.toSession := NodeRule.applyRoots_of_overRoots hrun
  refine ⟨p, hrun, by rw [foldConstants, happly], fun root hroot => ?_⟩
  have hground : ∀ {id}, g.Reaches root id → g.Grounded id := fun hreach =>
    grounded_of_postorder hpost hroot hreach
  have hlisted : ∀ {id}, g.Reaches root id → id ∈ order.reverse := fun hreach =>
    List.mem_reverse.2 (((postorder_spec hpost).2 _).2 ⟨root, hroot, hreach⟩)
  have hvalues : ∀ {id}, g.Reaches root id → ∀ v,
      p.graph.execute (p.standIn id) = .ok v ↔
        ∃ e, g.ReadsDecided true id (.ok e) ∧ e.value = .ok v := fun hreach =>
    hfolded.execute_eq_ok_iff hg.balanced hrw (hrw.done_lt _ (hlisted hreach)) (hground hreach)
      fun j _ _ hj _ => hlisted (hreach.trans hj)
  refine ⟨hvalues Relation.ReflTransGen.refl, ?_, ?_⟩
  · intro hkeeps id type b v hreach hexecute hdecided
    obtain ⟨e, hreads, hvalue⟩ := exists_value_of_execute (hground hreach) hexecute
    have hafter := hkeeps id hreach v hexecute
    rw [(hvalues hreach (.boolean b)).2 ⟨_, .decided hdecided, rfl⟩] at hafter
    cases hafter
    rcases hdecided.type_eq hreads hvalue with htype | htype
    · exact .inr htype
    · exact .inl htype.symm
  · intro hplain id hreach v hexecute
    obtain ⟨e, hreads, hvalue⟩ := exists_value_of_execute (hground hreach) hexecute
    have hbelow : g.PlainlyTyped id := fun j type b w hj =>
      hplain j type b w (hreach.trans hj)
    exact (hvalues hreach v).2 (hreads.readsDecided e v rfl hvalue hbelow)

/-- A conjunction that declares to be an integer, of `FALSE` and a negation. -/
def typedConjunction : Graph :=
  ⟨#[⟨.literal (.boolean true), .boolean, .scalar, [], [1], false⟩,
    ⟨.unary .not, .boolean, .scalar, [0], [3], false⟩,
    ⟨.literal (.boolean false), .boolean, .scalar, [], [3], false⟩,
    ⟨.binary .and, .int, .scalar, [2, 1], [], false⟩]⟩

/-- Its value is `0` before and `FALSE` after, so its type is not plain. -/
theorem foldConstants_typedConjunction :
    typedConjunction.Consistent ∧ typedConjunction.postorder [3] = .ok [2, 0, 1, 3] ∧
      typedConjunction.execute 3 = .ok (.int 0) ∧
      ∃ p : Pass Interpreter, foldConstants [3] typedConjunction =
          .ok ([p.standIn 3], p.tally) p.graph ∧
        p.graph.execute (p.standIn 3) = .ok (.boolean false) ∧
        ¬ typedConjunction.PlainlyTyped 3 := by
  have hg : typedConjunction.Consistent := by decide +kernel
  have hpost : typedConjunction.postorder [3] = .ok [2, 0, 1, 3] := by decide +kernel
  have hbefore : typedConjunction.execute 3 = .ok (.int 0) := by decide +kernel
  obtain ⟨p, -, hfold, hiff⟩ := foldConstants_keeps_values_iff hg hpost
  have hafter : p.graph.execute (p.standIn 3) = .ok (.boolean false) := by
    have hrun : (match foldConstants [3] typedConjunction with
        | .ok (news, _) h => news.map h.execute
        | .error _ _ => []) = [.ok (.boolean false)] := by decide +kernel
    rw [hfold] at hrun
    exact List.head_eq_of_cons_eq hrun
  refine ⟨hg, hpost, hbefore, p, hfold, hafter, fun hplain => ?_⟩
  have hkept := (hiff 3 (by simp)).2.2 hplain 3 Relation.ReflTransGen.refl _ hbefore
  rw [hafter] at hkept
  cases hkept

end Graph

end OpGraph
