import OpGraph.Proofs.Blocks

/-!
# Where a run stops

An optimizer stops at the first error. It has gone through the blocks before the
failing one by then, and on the failing one through some of the rules. The error comes
from the check before the rules, from a rule, or from the check after them
(`Optimizer.StopsAfter`). The step that fails does not touch the block, so the block has
the roots that the last rule before has answered with. The blocks that follow have not
been looked at.

The rules that the settings select come first, and the added ones after them
(`Optimizer.foldl_withRule`). So which rule has failed is known from how many have gone
through, also where several have the same name.
-/

namespace OpGraph

namespace Optimizer

variable {σ : Type} {o : Optimizer σ}

/-! ## The rules before the error -/

/-- Where the work on a block ends with an error: at the first check, at a rule, or at
the last check. The list holds the rules that have gone through by then. -/
inductive StopsAfter (o : Optimizer σ) (start : Job σ) :
    List (Rule σ) → OptimizeError → Job σ → Prop where
  | firstCheck {e : OptimizeError} : o.verify start = .error e start → StopsAfter o start [] e start
  | rule {done rest : List (Rule σ)} {rule : Rule σ} {e : OptimizeError} {j j' : Job σ} :
      o.verify start = .ok () start → o.rules = done ++ rule :: rest →
      applyRules done start = .ok () j → applyRule rule j = .error e j' →
      StopsAfter o start done e j'
  | lastCheck {e : OptimizeError} {j : Job σ} :
      o.verify start = .ok () start → applyRules o.rules start = .ok () j →
      o.verify j = .error e j → StopsAfter o start o.rules e j

/-- Some rules go through on a block one after the other, and the last of them answers
with the given roots. -/
def LastAnswers (start : Job σ) (done : List (Rule σ)) (roots : List NodeId) : Prop :=
  ∃ earlier rule j s, done = earlier ++ [rule] ∧ applyRules earlier start = .ok () j ∧
    rule.apply j.block.roots { j.toSession with tally := .zero } = .ok roots s

theorem verify_eq_error {j j' : Job σ} {e : OptimizeError} (h : o.verify j = .error e j') :
    j' = j ∧ o.settings.verify = true := by
  unfold verify at h
  split at h
  · next hverify =>
      split at h
      · cases h
      · cases h
        exact ⟨rfl, hverify⟩
  · cases h

theorem check_of_verify {j j' : Job σ} (hverify : o.settings.verify = true)
    (h : o.verify j = .ok () j') : j.graph.check j.block.roots = .ok () := by
  rw [verify, if_pos hverify] at h
  split at h
  · next hcheck => exact hcheck
  · cases h

theorem applyRule_eq_error {rule : Rule σ} {j j' : Job σ} {e : OptimizeError}
    (h : applyRule rule j = .error e j') : j'.block = j.block := by
  unfold applyRule at h
  split at h
  · cases h
  · cases h
    rfl

theorem applyRule_eq_ok {rule : Rule σ} {j j' : Job σ} (h : applyRule rule j = .ok () j') :
    ∃ s, rule.apply j.block.roots { j.toSession with tally := .zero } = .ok j'.block.roots s ∧
      j'.graph = s.graph ∧ j'.block.name = j.block.name := by
  unfold applyRule at h
  split at h
  · next roots s happly =>
      cases h
      exact ⟨s, happly, rfl, rfl⟩
  · cases h

theorem applyRules_append (earlier later : List (Rule σ)) :
    applyRules (earlier ++ later) = applyRules earlier >>= fun _ => applyRules later := by
  induction earlier with
  | nil => rfl
  | cons rule rest ih => simp only [List.cons_append, applyRules, ih, bind_assoc]

theorem applyRules_name {rules : List (Rule σ)} : ∀ {j j' : Job σ},
    applyRules rules j = .ok () j' → j'.block.name = j.block.name := by
  induction rules with
  | nil =>
      intro j j' h
      cases h
      rfl
  | cons rule rest ih =>
      intro j j' h
      obtain ⟨_, j₁, happly, hrest⟩ := bind_eq_ok h
      obtain ⟨s, -, -, hname⟩ := applyRule_eq_ok happly
      exact (ih hrest).trans hname

/-- Rules that do not all go through fail at one of them, and go through before it. -/
theorem applyRules_eq_error {rules : List (Rule σ)} {e : OptimizeError} :
    ∀ {j j' : Job σ}, applyRules rules j = .error e j' →
      ∃ done rule rest j₁, rules = done ++ rule :: rest ∧ applyRules done j = .ok () j₁ ∧
        applyRule rule j₁ = .error e j' := by
  induction rules with
  | nil =>
      intro j j' h
      cases h
  | cons rule rest ih =>
      intro j j' h
      cases happly : applyRule rule j with
      | error e₁ j₁ =>
          have hfirst : applyRules (rule :: rest) j = .error e₁ j₁ := bind_error happly
          rw [hfirst] at h
          cases h
          exact ⟨[], rule, rest, j, rfl, rfl, happly⟩
      | ok u j₁ =>
          have hfirst : applyRules (rule :: rest) j = applyRules rest j₁ := bind_ok happly
          rw [hfirst] at h
          obtain ⟨done, failing, later, j₂, rfl, hdone, herror⟩ := ih h
          exact ⟨rule :: done, failing, later, j₂, rfl, (bind_ok happly).trans hdone, herror⟩

theorem roots_of_applyRules {start j : Job σ} {done : List (Rule σ)}
    (h : applyRules done start = .ok () j) (roots : List NodeId) :
    j.block.roots = roots ↔ (done = [] ∧ roots = start.block.roots) ∨
      LastAnswers start done roots := by
  rcases List.eq_nil_or_concat' done with rfl | ⟨earlier, rule, rfl⟩
  · cases h
    constructor
    · exact fun heq => .inl ⟨rfl, heq.symm⟩
    · rintro (⟨-, rfl⟩ | ⟨earlier, rule, j, s, hnil, -⟩)
      · rfl
      · exact absurd hnil (by simp)
  · rw [applyRules_append] at h
    obtain ⟨_, j₁, hearlier, hlast⟩ := bind_eq_ok h
    obtain ⟨_, j₂, happly, hnil⟩ := bind_eq_ok hlast
    cases hnil
    obtain ⟨s, hanswer, -⟩ := applyRule_eq_ok happly
    constructor
    · rintro rfl
      exact .inr ⟨earlier, rule, j₁, s, rfl, hearlier, hanswer⟩
    · rintro (⟨hnil, -⟩ | ⟨earlier', rule', j', s', hsplit, hearlier', hanswer'⟩)
      · exact absurd hnil (by simp)
      · obtain ⟨rfl, hrule⟩ := List.append_inj' hsplit rfl
        cases hrule
        rw [hearlier] at hearlier'
        cases hearlier'
        rw [hanswer] at hanswer'
        cases hanswer'
        rfl

theorem verify_ne_rule {j j' : Job σ} {rule block : String} {e : GraphError} :
    o.verify j ≠ .error (.rule rule block e) j' := by
  intro h
  unfold verify at h
  split at h
  · split at h <;> cases h
  · cases h

theorem applyRule_eq_rule_error {rule : Rule σ} {j j' : Job σ} {name block : String}
    {e : GraphError} (h : applyRule rule j = .error (.rule name block e) j') :
    rule.name = name ∧ j.block.name = block ∧
      ∃ s, rule.apply j.block.roots { j.toSession with tally := .zero } = .error e s := by
  unfold applyRule at h
  split at h
  · cases h
  · next happly =>
      cases h
      exact ⟨rfl, rfl, _, happly⟩

/-! ## The failing block -/

theorem runBlock_eq_error {start j : Job σ} {e : OptimizeError}
    (h : o.runBlock start = .error e j) : ∃ done, o.StopsAfter start done e j := by
  unfold runBlock at h
  cases hfirst : o.verify start with
  | error e₁ j₁ =>
      rw [bind_error hfirst] at h
      cases h
      obtain ⟨rfl, -⟩ := verify_eq_error hfirst
      exact ⟨[], .firstCheck hfirst⟩
  | ok u j₁ =>
      cases verify_eq_ok hfirst
      rw [bind_ok hfirst] at h
      cases hrules : applyRules o.rules start with
      | error e₂ j₂ =>
          rw [bind_error hrules] at h
          cases h
          obtain ⟨done, rule, rest, j₃, hsplit, hdone, herror⟩ := applyRules_eq_error hrules
          exact ⟨done, .rule hfirst hsplit hdone herror⟩
      | ok u j₂ =>
          rw [bind_ok hrules] at h
          obtain ⟨rfl, -⟩ := verify_eq_error h
          exact ⟨o.rules, .lastCheck hfirst hrules h⟩

section StopsAfter

variable {start j : Job σ} {done : List (Rule σ)} {e : OptimizeError}

/-- The step that fails does not touch the block. -/
theorem StopsAfter.exists_applyRules (h : o.StopsAfter start done e j) :
    ∃ j₁, applyRules done start = .ok () j₁ ∧ j.block = j₁.block := by
  cases h with
  | firstCheck => exact ⟨start, rfl, rfl⟩
  | rule _ _ hdone herror => exact ⟨_, hdone, applyRule_eq_error herror⟩
  | lastCheck _ hdone => exact ⟨j, hdone, rfl⟩

theorem StopsAfter.done_prefix (h : o.StopsAfter start done e j) : done <+: o.rules := by
  cases h with
  | firstCheck => exact List.nil_prefix
  | rule _ hsplit => exact hsplit ▸ List.prefix_append ..
  | lastCheck => exact List.prefix_rfl

theorem StopsAfter.name_eq (h : o.StopsAfter start done e j) :
    j.block.name = start.block.name := by
  obtain ⟨j₁, hdone, hblock⟩ := h.exists_applyRules
  rw [hblock, applyRules_name hdone]

theorem StopsAfter.roots_iff (h : o.StopsAfter start done e j) (roots : List NodeId) :
    j.block.roots = roots ↔ (done = [] ∧ roots = start.block.roots) ∨
      LastAnswers start done roots := by
  obtain ⟨j₁, hdone, hblock⟩ := h.exists_applyRules
  rw [hblock]
  exact roots_of_applyRules hdone roots

/-- A rule error comes from the rule after those that have gone through. -/
theorem StopsAfter.of_rule_error {name block : String} {cause : GraphError}
    (h : o.StopsAfter start done (.rule name block cause) j) :
    ∃ rule rest j₁ s, o.verify start = .ok () start ∧ o.rules = done ++ rule :: rest ∧
      rule.name = name ∧ start.block.name = block ∧ applyRules done start = .ok () j₁ ∧
      rule.apply j₁.block.roots { j₁.toSession with tally := .zero } = .error cause s := by
  cases h with
  | firstCheck hfirst => exact absurd hfirst verify_ne_rule
  | lastCheck _ _ hlast => exact absurd hlast verify_ne_rule
  | @rule _ rest rule _ j₁ _ hfirst hsplit hdone herror =>
      obtain ⟨hname, hblock, s, happly⟩ := applyRule_eq_rule_error herror
      exact ⟨rule, rest, j₁, s, hfirst, hsplit, hname, (applyRules_name hdone).symm.trans hblock,
        hdone, happly⟩

theorem StopsAfter.runBlock_eq (h : o.StopsAfter start done e j) :
    o.runBlock start = .error e j := by
  unfold runBlock
  cases h with
  | firstCheck hfirst => exact bind_error hfirst
  | @rule _ rest rule _ j₁ _ hfirst hsplit hdone herror =>
      rw [bind_ok hfirst, hsplit, applyRules_append]
      exact bind_error ((bind_ok hdone).trans (bind_error herror))
  | lastCheck hfirst hdone hlast => exact (bind_ok hfirst).trans ((bind_ok hdone).trans hlast)

end StopsAfter

/-! ## The other blocks -/

/-- Work on blocks that ends with an error has failed at one of them, and has gone
through before it. -/
theorem runBlocks_eq_error_iff {blocks : List Block} {e : OptimizeError} : ∀ {s : Session σ},
    (o.runBlocks s blocks).1 = .error e ↔ ∃ i b done s' j, blocks[i]? = some b ∧
      o.runBlocks s (blocks.take i) = (.ok (), done, s') ∧ o.runBlock ⟨s', b⟩ = .error e j := by
  induction blocks with
  | nil =>
      intro s
      refine iff_of_false (fun h => by cases h) ?_
      rintro ⟨i, b, done, s', j, hb, -⟩
      cases hb
  | cons b rest ih =>
      intro s
      cases hblock : o.runBlock ⟨s, b⟩ with
      | error e' j =>
          have hfirst : (o.runBlocks s (b :: rest)).1 = .error e' := by rw [runBlocks, hblock]
          rw [hfirst]
          constructor
          · intro h
            cases h
            exact ⟨0, b, [], s, j, rfl, rfl, hblock⟩
          · rintro ⟨i, c, done, s', j', hc, hbefore, herror⟩
            cases i with
            | zero =>
                cases hc
                cases hbefore
                rw [hblock] at herror
                cases herror
                rfl
            | succ i =>
                rw [List.take_succ_cons] at hbefore
                obtain ⟨j'', -, hok, -⟩ := runBlocks_cons hbefore
                rw [hblock] at hok
                cases hok
      | ok u j =>
          have hfirst : (o.runBlocks s (b :: rest)).1 = (o.runBlocks j.toSession rest).1 := by
            rw [runBlocks, hblock]
          rw [hfirst, ih]
          constructor
          · rintro ⟨i, c, done, s', j', hc, hbefore, herror⟩
            refine ⟨i + 1, c, j.block :: done, s', j', hc, ?_, herror⟩
            rw [List.take_succ_cons, runBlocks, hblock]
            simp only []
            rw [hbefore]
          · rintro ⟨i, c, done, s', j', hc, hbefore, herror⟩
            cases i with
            | zero =>
                cases hc
                cases hbefore
                rw [hblock] at herror
                cases herror
            | succ i =>
                rw [List.take_succ_cons] at hbefore
                obtain ⟨j'', rest', hok, hrest, -⟩ := runBlocks_cons hbefore
                rw [hblock] at hok
                cases hok
                exact ⟨i, c, rest', s', j', hc, hrest, herror⟩

theorem runBlocks_append {before done : List Block} (rest : List Block) :
    ∀ {s s' : Session σ}, o.runBlocks s before = (.ok (), done, s') →
      o.runBlocks s (before ++ rest) = ((o.runBlocks s' rest).1, done ++ (o.runBlocks s' rest).2.1,
        (o.runBlocks s' rest).2.2) ∧ done.length = before.length := by
  induction before generalizing done with
  | nil =>
      intro s s' h
      cases h
      exact ⟨rfl, rfl⟩
  | cons b more ih =>
      intro s s' h
      obtain ⟨j, done', hblock, hmore, rfl⟩ := runBlocks_cons h
      obtain ⟨hrest, hlength⟩ := ih hmore
      refine ⟨?_, congrArg Nat.succ hlength⟩
      rw [List.cons_append, runBlocks, hblock]
      simp only []
      rw [hrest]
      rfl

/-- Work on blocks that ends with an error: the blocks before the failing one went
through, and those after it were left alone. -/
theorem runBlocks_eq_error {blocks blocks' : List Block} {s s' : Session σ} {e : OptimizeError}
    (h : o.runBlocks s blocks = (.error e, blocks', s')) :
    ∃ k b before s₁ done j, blocks[k]? = some b ∧
      o.runBlocks s (blocks.take k) = (.ok (), before, s₁) ∧ before.length = k ∧
      o.StopsAfter ⟨s₁, b⟩ done e j ∧
      blocks' = before ++ j.block :: blocks.drop (k + 1) ∧ s' = j.toSession := by
  obtain ⟨k, b, before, s₁, j, hb, hbefore, herror⟩ :=
    runBlocks_eq_error_iff.1 (congrArg Prod.fst h)
  obtain ⟨done, hstops⟩ := runBlock_eq_error herror
  obtain ⟨hk, rfl⟩ := List.getElem?_eq_some_iff.1 hb
  obtain ⟨hwhole, hlength⟩ := runBlocks_append (blocks.drop k) hbefore
  have hrest : o.runBlocks s₁ (blocks.drop k) =
      (.error e, j.block :: blocks.drop (k + 1), j.toSession) := by
    rw [List.drop_eq_getElem_cons hk, runBlocks, herror]
  rw [List.take_append_drop, h, hrest] at hwhole
  cases hwhole
  exact ⟨k, _, before, s₁, done, j, hb, hbefore,
    hlength.trans (List.length_take_of_le (Nat.le_of_lt hk)), hstops, rfl, rfl⟩

/-! ## The whole run -/

theorem foldl_withRule (appended : List (Rule σ)) :
    ∀ o : Optimizer σ, appended.foldl withRule o = ⟨o.settings, o.rules ++ appended⟩ := by
  induction appended with
  | nil =>
      intro o
      rw [List.append_nil]
      rfl
  | cons rule rest ih =>
      intro o
      rw [List.foldl_cons, ih, withRule, List.append_assoc]
      rfl

theorem settings_of_new {settings : Settings} {evaluate : Evaluator σ}
    (h : new settings evaluate = .ok o) : o.settings = settings := by
  unfold new at h
  split at h
  · cases h
  · split at h <;> cases h <;> rfl

theorem run_eq_error_iff {program : Program} {memory : σ} {e : OptimizeError} :
    (o.run program memory).1 = .error e ↔
      (o.runBlocks ⟨program.graph, .zero, memory⟩ program.blocks).1 = .error e := by
  rcases hrun : o.runBlocks ⟨program.graph, .zero, memory⟩ program.blocks with ⟨outcome, blocks, s⟩
  rw [run, hrun]
  cases outcome <;> simp [Except.map]

/-- A run ends with an error on a block with the given name, and the rules in `done`
have gone through on it. -/
def FailsAfter (o : Optimizer σ) (program : Program) (memory : σ) (block : String)
    (done : List (Rule σ)) (e : OptimizeError) : Prop :=
  ∃ k b before s j, program.blocks[k]? = some b ∧ b.name = block ∧
    o.runBlocks ⟨program.graph, .zero, memory⟩ (program.blocks.take k) = (.ok (), before, s) ∧
    o.StopsAfter ⟨s, b⟩ done e j

theorem run_eq_error_iff_failsAfter {program : Program} {memory : σ} {e : OptimizeError} :
    (o.run program memory).1 = .error e ↔
      ∃ block done, o.FailsAfter program memory block done e := by
  rw [run_eq_error_iff, runBlocks_eq_error_iff]
  constructor
  · rintro ⟨k, b, before, s, j, hb, hbefore, herror⟩
    obtain ⟨done, hstops⟩ := runBlock_eq_error herror
    exact ⟨b.name, done, k, b, before, s, j, hb, rfl, hbefore, hstops⟩
  · rintro ⟨block, done, k, b, before, s, j, hb, -, hbefore, hstops⟩
    exact ⟨k, b, before, s, j, hb, hbefore, hstops.runBlock_eq⟩

theorem FailsAfter.of_rule_error {program : Program} {memory : σ} {name block block' : String}
    {done : List (Rule σ)} {e : GraphError}
    (h : o.FailsAfter program memory block done (.rule name block' e)) :
    block = block' ∧ ∃ rule rest, o.rules = done ++ rule :: rest ∧ rule.name = name := by
  obtain ⟨k, b, before, s, j, -, rfl, -, hstops⟩ := h
  obtain ⟨rule, rest, -, -, -, hsplit, hname, hblock, -⟩ := hstops.of_rule_error
  exact ⟨hblock, rule, rest, hsplit, hname⟩

/-- A rule that fails is one of those the optimizer had before others were added, or it
is one of the added ones. -/
theorem FailsAfter.selected_or_added {added : List (Rule σ)} {program : Program} {memory : σ}
    {name block block' : String} {done : List (Rule σ)} {e : GraphError}
    (h : (added.foldl withRule o).FailsAfter program memory block done (.rule name block' e)) :
    done.length < o.rules.length ∨ ∃ rule ∈ added, rule.name = name := by
  obtain ⟨-, rule, rest, hsplit, hname⟩ := h.of_rule_error
  rw [foldl_withRule] at hsplit
  have hfailing : (o.rules ++ added)[done.length]? = some rule := by
    change o.rules ++ added = done ++ rule :: rest at hsplit
    rw [hsplit, List.getElem?_append_right (Nat.le_refl _), Nat.sub_self]
    rfl
  by_cases hlt : done.length < o.rules.length
  · exact .inl hlt
  · rw [List.getElem?_append_right (Nat.not_lt.1 hlt)] at hfailing
    exact .inr ⟨rule, List.mem_of_getElem? hfailing, hname⟩

end Optimizer

end OpGraph
