import Mathlib.Logic.Relation
import Mathlib.Data.List.Nodup
import OpGraph.Graph.Postorder
import OpGraph.Proofs.View

/-!
# What a walk of the graph finds

`Graph.postorder` walks depth first over a stack of frames. The invariant of the
walk, `Sweep.Sound`, ties its three records together: the nodes marked finished
are the listed ones, the nodes marked active are those on the stack, and the
stack is a path, in which every frame has dealt with all its inputs up to the
one that the next frame is about. The three ways in which a walk goes on (a node
is left, an input is passed over, an input is entered) keep it.

Two readings come out of it. A walk that succeeds has listed exactly the nodes
below the roots, children first; so there is no endless descent below a listed
node. A walk that fails names a number without a node, or a node that lies below
itself.
-/

namespace OpGraph

namespace Graph

/-- One node has another one among its inputs. -/
def Holds (g : Graph) (p c : NodeId) : Prop := c ∈ g.inputsOf p

/-- One node lies below another one, or is the same. -/
def Reaches (g : Graph) : NodeId → NodeId → Prop := Relation.ReflTransGen g.Holds

/-- There is no endless way down from a node. -/
def Grounded (g : Graph) (id : NodeId) : Prop := Acc (fun c p => g.Holds p c) id

/-- A list of nodes, the last one first, in which every node comes once and
after all its inputs. -/
def ChildrenFirst (g : Graph) : List NodeId → Prop
  | [] => True
  | id :: rest => id ∉ rest ∧ (∀ c ∈ g.inputsOf id, c ∈ rest) ∧ g.ChildrenFirst rest

theorem ChildrenFirst.nodup {g : Graph} : ∀ {order : List NodeId}, g.ChildrenFirst order →
    order.Nodup
  | [], _ => List.nodup_nil
  | _ :: _, h => List.nodup_cons.2 ⟨h.1, h.2.2.nodup⟩

theorem ChildrenFirst.input_mem {g : Graph} {id c : NodeId} : ∀ {order : List NodeId},
    g.ChildrenFirst order → id ∈ order → c ∈ g.inputsOf id → c ∈ order
  | _ :: _, h, hid, hc => by
      rcases List.mem_cons.1 hid with rfl | hid
      · exact List.mem_cons_of_mem _ (h.2.1 c hc)
      · exact List.mem_cons_of_mem _ (h.2.2.input_mem hid hc)

theorem ChildrenFirst.congr {g h : Graph} (hinputs : ∀ id, h.inputsOf id = g.inputsOf id) :
    ∀ {order : List NodeId}, h.ChildrenFirst order → g.ChildrenFirst order
  | [], _ => trivial
  | id :: _, hfirst => ⟨hfirst.1, hinputs id ▸ hfirst.2.1, hfirst.2.2.congr hinputs⟩

theorem ChildrenFirst.grounded {g : Graph} {id : NodeId} : ∀ {order : List NodeId},
    g.ChildrenFirst order → id ∈ order → g.Grounded id
  | _ :: _, h, hid => by
      rcases List.mem_cons.1 hid with rfl | hid
      · exact Acc.intro _ fun c hc => h.2.2.grounded (h.2.1 c hc)
      · exact h.2.2.grounded hid

theorem ChildrenFirst.mem_of_reaches {g : Graph} {order : List NodeId} {r id : NodeId}
    (h : g.ChildrenFirst order) (hr : r ∈ order) (hreach : g.Reaches r id) : id ∈ order := by
  induction hreach with
  | refl => exact hr
  | tail _ hstep ih => exact h.input_mem ih hstep

theorem Grounded.of_reaches {g : Graph} {r id : NodeId} (h : g.Grounded r)
    (hreach : g.Reaches r id) : g.Grounded id := by
  induction hreach with
  | refl => exact h
  | tail _ hstep ih => exact ih.inv hstep

theorem Grounded.not_below_self {g : Graph} {id : NodeId} (h : g.Grounded id) :
    ¬ Relation.TransGen g.Holds id id := by
  induction h with
  | intro id _ ih =>
      intro hcycle
      -- The first step of the cycle leads to a node that lies below itself too.
      obtain ⟨c, hc, hback⟩ := Relation.TransGen.head'_iff.1 hcycle
      exact ih c hc (Relation.TransGen.trans_right hback (Relation.TransGen.single hc))

/-- The frames of a walk, the innermost one first. `above` is the input that was
entered from the first frame and not left yet; all inputs before it are listed. -/
def Path (g : Graph) (order : List NodeId) : Option NodeId → List Frame → Prop
  | _, [] => True
  | above, (id, more) :: rest =>
      (∃ seen, g.inputsOf id = seen ++ (above.toList ++ more) ∧ ∀ c ∈ seen, c ∈ order) ∧
        g.Path order (some id) rest

theorem Path.mono {g : Graph} {order order' : List NodeId} (hsub : ∀ c ∈ order, c ∈ order') :
    ∀ {above : Option NodeId} {stack : List Frame}, g.Path order above stack →
      g.Path order' above stack
  | _, [], _ => trivial
  | _, (_, _) :: _, ⟨⟨seen, hin, hseen⟩, hrest⟩ =>
      ⟨⟨seen, hin, fun c hc => hsub c (hseen c hc)⟩, hrest.mono hsub⟩

/-- Every frame further out lies above the innermost node. -/
theorem Path.below {g : Graph} {order : List NodeId} {id : NodeId} : ∀ {stack : List Frame},
    g.Path order (some id) stack → ∀ q ∈ stack.map Prod.fst, Relation.TransGen g.Holds q id
  | (p, more) :: rest, ⟨⟨seen, hin, _⟩, hrest⟩, q, hq => by
      have hstep : g.Holds p id := by
        show id ∈ g.inputsOf p
        rw [hin]
        simp
      rcases List.mem_cons.1 hq with rfl | hq
      · exact Relation.TransGen.single hstep
      · exact (hrest.below q hq).tail hstep

end Graph

namespace Sweep

/-- The records of a walk agree with each other, and speak of nodes below the
roots only. -/
structure Sound (g : Graph) (roots : List NodeId) (s : Sweep) (stack : List Frame) : Prop where
  size : s.marks.size = g.size
  finished : ∀ id, s.marks[id]? = some .finished ↔ id ∈ s.order
  active : ∀ id, s.marks[id]? = some .active ↔ id ∈ stack.map Prod.fst
  nodup : (stack.map Prod.fst).Nodup
  order : g.ChildrenFirst s.order
  path : g.Path s.order none stack
  listed : ∀ id ∈ s.order, ∃ r ∈ roots, g.Reaches r id
  stacked : ∀ id ∈ stack.map Prod.fst, ∃ r ∈ roots, g.Reaches r id

theorem start_sound (g : Graph) (roots : List NodeId) : Sound g roots (start g.size) [] where
  size := by simp [start]
  finished := by
    intro id
    simp only [start, Array.getElem?_replicate]
    split <;> simp
  active := by
    intro id
    simp only [start, Array.getElem?_replicate]
    split <;> simp
  nodup := List.nodup_nil
  order := trivial
  path := trivial
  listed := by simp [start]
  stacked := by simp

theorem getElem?_enter {s : Sweep} {id : NodeId} (h : id < s.marks.size) (j : NodeId) :
    (s.enter id).marks[j]? = if id = j then some .active else s.marks[j]? := by
  simp only [enter, Array.getElem?_setIfInBounds, h, if_true]

theorem getElem?_leave {s : Sweep} {id : NodeId} (h : id < s.marks.size) (j : NodeId) :
    (s.leave id).marks[j]? = if id = j then some .finished else s.marks[j]? := by
  simp only [leave, Array.getElem?_setIfInBounds, h, if_true]

theorem lt_of_mark {s : Sweep} {id : NodeId} {m : Mark} (h : s.marks[id]? = some m) :
    id < s.marks.size :=
  (Array.getElem?_eq_some_iff.1 h).1

theorem Sound.not_mem_order {g : Graph} {roots : List NodeId} {s : Sweep} {stack : List Frame}
    {id : NodeId} {m : Mark} (h : Sound g roots s stack) (hmark : s.marks[id]? = some m)
    (hm : m ≠ .finished) : id ∉ s.order := by
  intro hmem
  rw [(h.finished id).2 hmem] at hmark
  exact hm (Option.some.inj hmark).symm

theorem Sound.order_lt {g : Graph} {roots : List NodeId} {s : Sweep} {stack : List Frame}
    (h : Sound g roots s stack) {id : NodeId} (hid : id ∈ s.order) : id < g.size :=
  h.size ▸ lt_of_mark ((h.finished id).2 hid)

theorem Sound.finished_enter {g : Graph} {roots : List NodeId} {s : Sweep} {stack : List Frame}
    {id : NodeId} (h : Sound g roots s stack) (hmark : s.marks[id]? = some .unseen) (j : NodeId) :
    (s.enter id).marks[j]? = some .finished ↔ j ∈ (s.enter id).order := by
  rw [getElem?_enter (lt_of_mark hmark)]
  by_cases hj : id = j
  · subst hj
    simp [Sweep.enter, h.not_mem_order hmark (by simp)]
  · simp [Sweep.enter, hj, h.finished j]

theorem Sound.active_enter {g : Graph} {roots : List NodeId} {s : Sweep} {stack : List Frame}
    {id : NodeId} (h : Sound g roots s stack) (hmark : s.marks[id]? = some .unseen) (j : NodeId) :
    (s.enter id).marks[j]? = some .active ↔ j ∈ id :: stack.map Prod.fst := by
  rw [getElem?_enter (lt_of_mark hmark)]
  by_cases hj : id = j
  · simp [hj]
  · rw [if_neg hj, h.active j]
    simp [Ne.symm hj]

/-- The innermost node has no inputs to go, and is left. -/
theorem Sound.leave {g : Graph} {roots : List NodeId} {s : Sweep} {id : NodeId}
    {rest : List Frame} (h : Sound g roots s ((id, []) :: rest)) :
    Sound g roots (s.leave id) rest := by
  have hact : s.marks[id]? = some .active := (h.active id).2 (by simp)
  have hlt := lt_of_mark hact
  have hnew : id ∉ s.order := h.not_mem_order hact (by simp)
  have hnodup := h.nodup
  rw [List.map_cons, List.nodup_cons] at hnodup
  obtain ⟨⟨seen, hin, hseen⟩, hrest⟩ := h.path
  simp only [Option.toList_none, List.append_nil] at hin
  refine ⟨?_, ?_, ?_, hnodup.2, ?_, ?_, ?_, ?_⟩
  · simpa [Sweep.leave] using h.size
  · intro j
    rw [getElem?_leave hlt]
    by_cases hj : id = j
    · simp [Sweep.leave, hj]
    · simp [Sweep.leave, hj, Ne.symm hj, h.finished j]
  · intro j
    rw [getElem?_leave hlt]
    by_cases hj : id = j
    · subst hj
      simpa using hnodup.1
    · rw [if_neg hj, h.active j]
      simp [Ne.symm hj]
  · exact ⟨hnew, fun c hc => hseen c (hin ▸ hc), h.order⟩
  · -- The next frame was waiting for this node, which is now listed.
    have hmono : g.Path (id :: s.order) (some id) rest :=
      hrest.mono fun c hc => List.mem_cons_of_mem _ hc
    cases rest with
    | nil => trivial
    | cons f rest =>
        obtain ⟨p, more⟩ := f
        obtain ⟨⟨seen, hin, hseen⟩, hrest⟩ := hmono
        refine ⟨⟨seen ++ [id], ?_, ?_⟩, hrest⟩
        · rw [hin]
          simp
        · intro c hc
          rcases List.mem_append.1 hc with hc | hc
          · exact hseen c hc
          · exact (List.mem_singleton.1 hc) ▸ List.mem_cons_self ..
  · intro j hj
    rcases List.mem_cons.1 hj with rfl | hj
    · exact h.stacked j (by simp)
    · exact h.listed j hj
  · intro j hj
    exact h.stacked j (List.mem_cons_of_mem _ hj)

/-- An input that is listed already is passed over. -/
theorem Sound.skip {g : Graph} {roots : List NodeId} {s : Sweep} {id child : NodeId}
    {more : List NodeId} {rest : List Frame}
    (h : Sound g roots s ((id, child :: more) :: rest))
    (hmark : s.marks[child]? = some .finished) : Sound g roots s ((id, more) :: rest) := by
  obtain ⟨⟨seen, hin, hseen⟩, hrest⟩ := h.path
  refine ⟨h.size, h.finished, h.active, h.nodup, h.order, ⟨⟨seen ++ [child], ?_, ?_⟩, hrest⟩,
    h.listed, h.stacked⟩
  · rw [hin]
    simp
  · intro c hc
    rcases List.mem_append.1 hc with hc | hc
    · exact hseen c hc
    · exact (List.mem_singleton.1 hc) ▸ (h.finished child).1 hmark

/-- An input that was not met before is entered. -/
theorem Sound.enter {g : Graph} {roots : List NodeId} {s : Sweep} {id child : NodeId}
    {more : List NodeId} {rest : List Frame}
    (h : Sound g roots s ((id, child :: more) :: rest))
    (hmark : s.marks[child]? = some .unseen) :
    Sound g roots (s.enter child) ((child, g.inputsOf child) :: (id, more) :: rest) := by
  have hnot : child ∉ ((id, child :: more) :: rest).map Prod.fst := by
    intro hmem
    rw [(h.active child).2 hmem] at hmark
    cases hmark
  obtain ⟨⟨seen, hin, hseen⟩, hrest⟩ := h.path
  have hstep : g.Holds id child := by
    show child ∈ g.inputsOf id
    rw [hin]
    simp
  refine ⟨?_, h.finished_enter hmark, h.active_enter hmark,
    List.nodup_cons.2 ⟨hnot, h.nodup⟩, h.order, ?_, h.listed, ?_⟩
  · simpa [Sweep.enter] using h.size
  · exact ⟨⟨[], by simp, by simp⟩, ⟨seen, by simpa using hin, hseen⟩, hrest⟩
  · intro j hj
    rcases List.mem_cons.1 hj with rfl | hj
    · obtain ⟨r, hr, hreach⟩ := h.stacked id (by simp)
      exact ⟨r, hr, hreach.tail hstep⟩
    · exact h.stacked j hj

theorem Sound.enter_root {g : Graph} {roots : List NodeId} {s : Sweep} {root : NodeId}
    (h : Sound g roots s []) (hroot : root ∈ roots) (hmark : s.marks[root]? = some .unseen) :
    Sound g roots (s.enter root) [(root, g.inputsOf root)] := by
  refine ⟨?_, h.finished_enter hmark, h.active_enter hmark, by simp, h.order,
    ⟨⟨[], by simp, by simp⟩, trivial⟩, h.listed, ?_⟩
  · simpa [Sweep.enter] using h.size
  · intro j hj
    rw [List.map_cons, List.map_nil, List.mem_singleton] at hj
    exact ⟨root, hroot, hj ▸ Relation.ReflTransGen.refl⟩

end Sweep

namespace Graph

/-! ## One step of a walk

The next step depends on the mark of the next input, and there is one way to go
on for each mark. -/

theorem walk_nil (g : Graph) (s : Sweep) : g.walk [] s = .ok s := by
  rw [walk]

theorem walk_leave (g : Graph) (id : NodeId) (rest : List Frame) (s : Sweep) :
    g.walk ((id, []) :: rest) s = g.walk rest (s.leave id) := by
  rw [walk]

theorem walk_unknown {g : Graph} {s : Sweep} {child : NodeId} (h : s.marks[child]? = none)
    (id : NodeId) (more : List NodeId) (rest : List Frame) :
    g.walk ((id, child :: more) :: rest) s = .error (.unknownNode child) := by
  rw [walk]
  split <;> simp_all

theorem walk_cycle {g : Graph} {s : Sweep} {child : NodeId} (h : s.marks[child]? = some .active)
    (id : NodeId) (more : List NodeId) (rest : List Frame) :
    g.walk ((id, child :: more) :: rest) s = .error (.cycle child) := by
  rw [walk]
  split <;> simp_all

theorem walk_skip {g : Graph} {s : Sweep} {child : NodeId}
    (h : s.marks[child]? = some .finished) (id : NodeId) (more : List NodeId)
    (rest : List Frame) :
    g.walk ((id, child :: more) :: rest) s = g.walk ((id, more) :: rest) s := by
  rw [walk]
  split <;> simp_all

theorem walk_enter {g : Graph} {s : Sweep} {child : NodeId} (h : s.marks[child]? = some .unseen)
    (id : NodeId) (more : List NodeId) (rest : List Frame) :
    g.walk ((id, child :: more) :: rest) s =
      g.walk ((child, g.inputsOf child) :: (id, more) :: rest) (s.enter child) := by
  rw [walk]
  split <;> simp_all

/-- A walk that succeeds has listed what was listed and everything on the stack. -/
theorem walk_sound {g : Graph} {roots : List NodeId} {stack : List Frame} {s s' : Sweep}
    (hs : s.Sound g roots stack) (hrun : g.walk stack s = .ok s') :
    s'.Sound g roots [] ∧ (∀ id ∈ s.order, id ∈ s'.order) ∧
      ∀ id ∈ stack.map Prod.fst, id ∈ s'.order := by
  induction stack, s using walk.induct g with
  | case1 s =>
      rw [walk_nil] at hrun
      cases hrun
      exact ⟨hs, fun _ h => h, by simp⟩
  | case2 s id rest ih =>
      rw [walk_leave] at hrun
      obtain ⟨hend, hkept, hmem⟩ := ih hs.leave hrun
      refine ⟨hend, fun j hj => hkept j (List.mem_cons_of_mem _ hj), fun j hj => ?_⟩
      rcases List.mem_cons.1 hj with rfl | hj
      · exact hkept j (List.mem_cons_self ..)
      · exact hmem j hj
  | case3 s id child more rest hmark =>
      rw [walk_unknown hmark] at hrun
      cases hrun
  | case4 s id child more rest hmark =>
      rw [walk_cycle hmark] at hrun
      cases hrun
  | case5 s id child more rest hmark ih =>
      rw [walk_skip hmark] at hrun
      exact ih (hs.skip hmark) hrun
  | case6 s id child more rest hmark ih =>
      rw [walk_enter hmark] at hrun
      obtain ⟨hend, hkept, hmem⟩ := ih (hs.enter hmark) hrun
      exact ⟨hend, hkept, fun j hj => hmem j (List.mem_cons_of_mem _ hj)⟩

/-- What a walk that fails may blame: a number below the roots that names no
node, or a node below the roots that lies below itself. -/
def Blames (g : Graph) (roots : List NodeId) : GraphError → Prop
  | .unknownNode c =>
      g.size ≤ c ∧ (c ∈ roots ∨ ∃ r ∈ roots, ∃ p, g.Reaches r p ∧ g.Holds p c)
  | .cycle c => (∃ r ∈ roots, g.Reaches r c) ∧ Relation.TransGen g.Holds c c
  | _ => False

theorem walk_blames {g : Graph} {roots : List NodeId} {stack : List Frame} {s : Sweep}
    {e : GraphError} (hs : s.Sound g roots stack) (hrun : g.walk stack s = .error e) :
    g.Blames roots e := by
  induction stack, s using walk.induct g with
  | case1 s =>
      rw [walk_nil] at hrun
      cases hrun
  | case2 s id rest ih =>
      rw [walk_leave] at hrun
      exact ih hs.leave hrun
  | case3 s id child more rest hmark =>
      rw [walk_unknown hmark] at hrun
      cases hrun
      obtain ⟨⟨seen, hin, -⟩, -⟩ := hs.path
      obtain ⟨r, hr, hreach⟩ := hs.stacked id (by simp)
      refine ⟨?_, Or.inr ⟨r, hr, id, hreach, ?_⟩⟩
      · rw [← hs.size]
        exact Array.getElem?_eq_none_iff.1 hmark
      · show child ∈ g.inputsOf id
        rw [hin]
        simp
  | case4 s id child more rest hmark =>
      rw [walk_cycle hmark] at hrun
      cases hrun
      -- The input is on the stack, so it lies above the node that holds it.
      have hmem := (hs.active child).1 hmark
      obtain ⟨⟨seen, hin, -⟩, hrest⟩ := hs.path
      have hstep : g.Holds id child := by
        show child ∈ g.inputsOf id
        rw [hin]
        simp
      refine ⟨hs.stacked child hmem, ?_⟩
      rcases List.mem_cons.1 hmem with rfl | hmem
      · exact Relation.TransGen.single hstep
      · exact (hrest.below child hmem).tail hstep
  | case5 s id child more rest hmark ih =>
      rw [walk_skip hmark] at hrun
      exact ih (hs.skip hmark) hrun
  | case6 s id child more rest hmark ih =>
      rw [walk_enter hmark] at hrun
      exact ih (hs.enter hmark) hrun

theorem sweepFrom_sound {g : Graph} {roots : List NodeId} {s s' : Sweep} {root : NodeId}
    (hs : s.Sound g roots []) (hroot : root ∈ roots) (hrun : g.sweepFrom s root = .ok s') :
    s'.Sound g roots [] ∧ (∀ id ∈ s.order, id ∈ s'.order) ∧ root ∈ s'.order := by
  unfold sweepFrom at hrun
  split at hrun
  · cases hrun
  · rename_i hmark
    obtain ⟨hend, hkept, hmem⟩ := walk_sound (hs.enter_root hroot hmark) hrun
    exact ⟨hend, hkept, hmem root (by simp)⟩
  · rename_i m hne hmark
    cases hrun
    refine ⟨hs, fun _ h => h, ?_⟩
    cases m with
    | unseen => exact absurd rfl hne
    | active => exact absurd ((hs.active root).1 hmark) (by simp)
    | finished => exact (hs.finished root).1 hmark

theorem sweepFrom_blames {g : Graph} {roots : List NodeId} {s : Sweep} {root : NodeId}
    {e : GraphError} (hs : s.Sound g roots []) (hroot : root ∈ roots)
    (hrun : g.sweepFrom s root = .error e) : g.Blames roots e := by
  unfold sweepFrom at hrun
  split at hrun
  · rename_i hmark
    cases hrun
    refine ⟨?_, Or.inl hroot⟩
    rw [← hs.size]
    exact Array.getElem?_eq_none_iff.1 hmark
  · rename_i hmark
    exact walk_blames (hs.enter_root hroot hmark) hrun
  · cases hrun

/-- The roots are walked one after the other, over the same records. -/
theorem sweepAll_sound {g : Graph} {roots : List NodeId} : ∀ {rs : List NodeId} {s s' : Sweep},
    s.Sound g roots [] → (∀ r ∈ rs, r ∈ roots) → rs.foldlM g.sweepFrom s = .ok s' →
    s'.Sound g roots [] ∧ (∀ id ∈ s.order, id ∈ s'.order) ∧ ∀ r ∈ rs, r ∈ s'.order := by
  intro rs
  induction rs with
  | nil =>
      intro s s' hs _ hrun
      cases hrun
      exact ⟨hs, fun _ h => h, by simp⟩
  | cons r rest ih =>
      intro s s' hs hsub hrun
      rw [List.foldlM_cons] at hrun
      cases hfirst : g.sweepFrom s r with
      | error e =>
          rw [hfirst] at hrun
          cases hrun
      | ok mid =>
          rw [hfirst] at hrun
          obtain ⟨hmid, hkept, hr⟩ := sweepFrom_sound hs (hsub r (List.mem_cons_self ..)) hfirst
          obtain ⟨hend, hkept', hrest⟩ :=
            ih hmid (fun q hq => hsub q (List.mem_cons_of_mem _ hq)) hrun
          refine ⟨hend, fun j hj => hkept' j (hkept j hj), fun q hq => ?_⟩
          rcases List.mem_cons.1 hq with rfl | hq
          · exact hkept' q hr
          · exact hrest q hq

theorem sweepAll_blames {g : Graph} {roots : List NodeId} {e : GraphError} :
    ∀ {rs : List NodeId} {s : Sweep}, s.Sound g roots [] → (∀ r ∈ rs, r ∈ roots) →
    rs.foldlM g.sweepFrom s = .error e → g.Blames roots e := by
  intro rs
  induction rs with
  | nil =>
      intro s _ _ hrun
      cases hrun
  | cons r rest ih =>
      intro s hs hsub hrun
      rw [List.foldlM_cons] at hrun
      have hr := hsub r (List.mem_cons_self ..)
      cases hfirst : g.sweepFrom s r with
      | error e' =>
          rw [hfirst] at hrun
          cases hrun
          exact sweepFrom_blames hs hr hfirst
      | ok mid =>
          rw [hfirst] at hrun
          exact ih (sweepFrom_sound hs hr hfirst).1
            (fun q hq => hsub q (List.mem_cons_of_mem _ hq)) hrun

theorem postorder_eq_ok_iff {g : Graph} {roots order : List NodeId} :
    g.postorder roots = .ok order ↔
      ∃ s, roots.foldlM g.sweepFrom (Sweep.start g.size) = .ok s ∧ order = s.order.reverse := by
  unfold postorder
  cases roots.foldlM g.sweepFrom (Sweep.start g.size) with
  | error e => simp [Except.map]
  | ok s =>
      simp only [Except.map, Except.ok.injEq, exists_eq_left']
      exact eq_comm

/-- The listed nodes are those below the roots, each once and children first. -/
theorem postorder_spec {g : Graph} {roots order : List NodeId}
    (h : g.postorder roots = .ok order) :
    g.ChildrenFirst order.reverse ∧ ∀ id, id ∈ order ↔ ∃ r ∈ roots, g.Reaches r id := by
  obtain ⟨s, hrun, rfl⟩ := postorder_eq_ok_iff.1 h
  obtain ⟨hs, -, hroots⟩ := sweepAll_sound (Sweep.start_sound g roots) (fun _ h => h) hrun
  refine ⟨by rw [List.reverse_reverse]; exact hs.order, fun id => ?_⟩
  rw [List.mem_reverse]
  constructor
  · exact hs.listed id
  · rintro ⟨r, hr, hreach⟩
    exact hs.order.mem_of_reaches (hroots r hr) hreach

theorem lt_of_mem_postorder {g : Graph} {roots order : List NodeId}
    (h : g.postorder roots = .ok order) {id : NodeId} (hid : id ∈ order) : id < g.size := by
  obtain ⟨s, hrun, rfl⟩ := postorder_eq_ok_iff.1 h
  obtain ⟨hs, -, -⟩ := sweepAll_sound (Sweep.start_sound g roots) (fun _ h => h) hrun
  exact hs.order_lt (List.mem_reverse.1 hid)

theorem mem_postorder_of_root {g : Graph} {roots order : List NodeId}
    (h : g.postorder roots = .ok order) {r : NodeId} (hr : r ∈ roots) : r ∈ order :=
  ((postorder_spec h).2 r).2 ⟨r, hr, Relation.ReflTransGen.refl⟩

theorem grounded_of_postorder {g : Graph} {roots order : List NodeId}
    (h : g.postorder roots = .ok order) {r id : NodeId} (hr : r ∈ roots)
    (hreach : g.Reaches r id) : g.Grounded id := by
  obtain ⟨hfirst, hmem⟩ := postorder_spec h
  exact hfirst.grounded (List.mem_reverse.2 ((hmem id).2 ⟨r, hr, hreach⟩))

theorem postorder_blames {g : Graph} {roots : List NodeId} {e : GraphError}
    (h : g.postorder roots = .error e) : g.Blames roots e := by
  unfold postorder at h
  cases hrun : roots.foldlM g.sweepFrom (Sweep.start g.size) with
  | ok s =>
      rw [hrun] at h
      cases h
  | error e' =>
      rw [hrun] at h
      cases h
      exact sweepAll_blames (Sweep.start_sound g roots) (fun _ h => h) hrun

/-- The walk succeeds exactly if all numbers below the roots name nodes, and none of
the nodes lies below itself. -/
theorem exists_postorder_iff {g : Graph} {roots : List NodeId} :
    (∃ order, g.postorder roots = .ok order) ↔
      (∀ r ∈ roots, ∀ id, g.Reaches r id → id < g.size) ∧
        ∀ r ∈ roots, ∀ id, g.Reaches r id → ¬ Relation.TransGen g.Holds id id := by
  constructor
  · rintro ⟨order, hpost⟩
    refine ⟨fun r hr id hreach => ?_, fun r hr id hreach => ?_⟩
    · exact lt_of_mem_postorder hpost (((postorder_spec hpost).2 id).2 ⟨r, hr, hreach⟩)
    · exact (grounded_of_postorder hpost hr hreach).not_below_self
  · rintro ⟨hlt, hacyclic⟩
    cases hpost : g.postorder roots with
    | ok order => exact ⟨order, rfl⟩
    | error e =>
        exfalso
        have hblame := postorder_blames hpost
        cases e with
        | unknownNode c =>
            obtain ⟨hge, hr | ⟨r, hr, p, hreach, hp⟩⟩ := hblame
            · exact absurd (hlt c hr c Relation.ReflTransGen.refl) (Nat.not_lt.2 hge)
            · exact absurd (hlt r hr c (hreach.tail hp)) (Nat.not_lt.2 hge)
        | cycle c =>
            obtain ⟨⟨r, hr, hreach⟩, hcycle⟩ := hblame
            exact hacyclic r hr c hreach hcycle
        | slotOutOfRange | missingParent | danglingParent | unequalCounts | notLiteral =>
            exact hblame

theorem exists_postorder_of_acyclic {g : Graph} {roots : List NodeId}
    (hroots : ∀ r ∈ roots, r < g.size) (hinputs : ∀ p c, g.Holds p c → c < g.size)
    (hacyclic : ∀ r ∈ roots, ∀ id, g.Reaches r id → ¬ Relation.TransGen g.Holds id id) :
    ∃ order, g.postorder roots = .ok order := by
  refine exists_postorder_iff.2 ⟨fun r hr id hreach => ?_, hacyclic⟩
  rcases Relation.ReflTransGen.cases_tail hreach with rfl | ⟨p, -, hp⟩
  · exact hroots id hr
  · exact hinputs p id hp

theorem exists_postorder {g : Graph} {roots : List NodeId} (hroots : ∀ r ∈ roots, r < g.size)
    (hinputs : ∀ p c, g.Holds p c → c < g.size) (hground : ∀ r ∈ roots, g.Grounded r) :
    ∃ order, g.postorder roots = .ok order :=
  exists_postorder_of_acyclic hroots hinputs fun r hr _ hreach =>
    ((hground r hr).of_reaches hreach).not_below_self

end Graph

end OpGraph
