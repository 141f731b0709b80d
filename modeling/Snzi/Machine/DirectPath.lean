import Snzi.Machine.Linearizability

/-!
# The full-contention class before a thread switches to the tree

A thread's `contention_status` moves one way.  It starts with every flag clear;
an `ArriveDirectly` whose exchange failed `MaxContentionNumFailures` times sets
`use_snzi_tree_flag`; the next `DepartDirectly` then sets both `use_snzi_in_*`
flags; nothing clears a flag again.  `ContentionStatus.Next` says what one step
may do to a status, and `runSchedule_status` carries it over every run.

Until its status switches it to the tree, a thread runs every operation on the
root alone: `ArriveDirectly` increments the root counter by a `compare_exchange`
loop and `DepartDirectly` decrements it.  The root counter is then exactly the
surplus of `Arrive`s (`DirectInvariant`), and every run in which no thread has
switched is linearizable (`direct_history_linearizable`).  What breaks the class
is the switch itself.  It does not look at how many of the thread's `Arrive`s are
outstanding: an `Arrive` made on the root is later undone by a `Depart` on the
thread's leaf.  That leaf's counter is decremented from zero, the root keeps the
unmatched `Arrive`, and `Query` reports a presence that no longer exists
(`escalation_query_true`).
-/

namespace Snzi.Machine

variable {τ : Type}

/-! ### `contention_status` -/

/-- How far a status has gone: on the root (`0`), asking for the tree (`1`), on
the tree (`2`). -/
def ContentionStatus.stage (c : ContentionStatus) : Nat :=
  if c.useSnziInArrive then 2 else if c.useSnziTreeFlag then 1 else 0

/-- The three values a status takes: every flag clear, only `use_snzi_tree_flag`
set, every flag set. -/
def ContentionStatus.Consistent (c : ContentionStatus) : Prop :=
  c.useSnziInArrive = c.useSnziInDepart ∧ (c.useSnziInArrive = true → c.useSnziTreeFlag = true)

/-- What one step may do to a thread's status: nothing, set `use_snzi_tree_flag`
(`ArriveDirectly`), or, once that flag is set, set both `use_snzi_in_*` flags
(`DepartDirectly`). -/
def ContentionStatus.Next (c c' : ContentionStatus) : Prop :=
  c' = c ∨ c' = { c with useSnziTreeFlag := true } ∨
    c.useSnziTreeFlag = true ∧ c' = { c with useSnziInArrive := true, useSnziInDepart := true }

theorem ContentionStatus.Next.consistent {c c' : ContentionStatus} (h : c.Next c')
    (hc : c.Consistent) : c'.Consistent ∧ c.stage ≤ c'.stage := by
  obtain ⟨arrive, depart, flag⟩ := c
  rcases h with rfl | rfl | ⟨hflag, rfl⟩ <;>
    cases arrive <;> cases depart <;> cases flag <;>
    simp_all [ContentionStatus.Consistent, ContentionStatus.stage]

theorem Thread.finish_next (th : Thread) (f : Frame) : th.status.Next (th.finish f).status := by
  cases f <;> simp only [Thread.finish]
  case arriveDirectly => split <;> simp [ContentionStatus.Next]
  case departDirectly => split <;> simp_all [ContentionStatus.Next]
  all_goals exact .inl rfl

theorem Thread.invoke_status {v : Variant} {leaf : Nat} {th th' : Thread} {op : Op}
    (h : th.invoke v leaf op = some th') : th'.status = th.status := by
  cases op <;> simp only [Thread.invoke] at h <;> (try split at h) <;> cases h <;> rfl

section Status

variable [DecidableEq τ] {v : Variant} {w : Wiring τ} {s s' : State τ}

theorem State.apply_status_next {t : τ} {f : Frame} {callers : List Frame} {a : Action} {e : Event}
    (h : s.apply t f callers a = some (s', e)) : (s.threads t).status.Next (s'.threads t).status := by
  cases a with
  | ret =>
    cases callers with
    | nil =>
      simp only [State.apply, Option.some.injEq, Prod.mk.injEq] at h
      obtain ⟨rfl, -⟩ := h
      simpa using Thread.finish_next (s.threads t) f
    | cons caller rest =>
      simp only [State.apply, Option.map_eq_some', Prod.exists, Prod.mk.injEq] at h
      obtain ⟨f', e', -, rfl, -⟩ := h
      exact .inl (by simp)
  | _ =>
    simp only [State.apply, Option.some.injEq, Prod.mk.injEq] at h
    obtain ⟨rfl, -⟩ := h
    exact .inl (by simp)

/-- A step moves every thread's status as `ContentionStatus.Next` allows. -/
theorem step_status_next {u : τ} {choice : Choice} {e : Event}
    (hstep : step v w s u choice = some (s', e)) (t : τ) :
    (s.threads t).status.Next (s'.threads t).status := by
  by_cases htu : t = u
  · subst htu
    rcases step_eq_some hstep with ⟨op, th', -, hinvoke, rfl, -⟩ | ⟨f, callers, a, -, -, happly⟩
    · exact .inl (by simpa using Thread.invoke_status hinvoke)
    · exact State.apply_status_next happly
  · exact .inl (by rw [step_other hstep htu])

/-- Every reachable status is one of the three values. -/
theorem Reach.status_consistent {trace : List (τ × Event)} (hreach : Reach v w trace s) (t : τ) :
    (s.threads t).status.Consistent := by
  induction hreach with
  | init => simp [State.init, ContentionStatus.Consistent]
  | step _ hstep ih => exact ((step_status_next hstep t).consistent ih).1

/-- Along every run from a reachable state of any class, each thread's
`contention_status` stays one of its three values and never goes back a stage:
once a thread asks for the tree it keeps asking, and once it is on the tree it
stays there. -/
theorem runSchedule_status {trace : List (τ × Event)} (hreach : Reach v w trace s)
    (schedule : List (τ × Choice)) {trace' : List (τ × Event)}
    (hrun : runSchedule v w s schedule = some (trace', s')) (t : τ) :
    (s'.threads t).status.Consistent ∧ (s.threads t).status.stage ≤ (s'.threads t).status.stage := by
  induction schedule generalizing trace s trace' with
  | nil =>
    simp only [runSchedule, Option.some.injEq, Prod.mk.injEq] at hrun
    obtain ⟨-, rfl⟩ := hrun
    exact ⟨hreach.status_consistent t, le_rfl⟩
  | cons head rest ih =>
    obtain ⟨u, c⟩ := head
    simp only [runSchedule, Option.bind_eq_some, Option.map_eq_some'] at hrun
    obtain ⟨⟨s₁, e⟩, hstep, ⟨trace₁, s₂⟩, hrest, hpair⟩ := hrun
    simp only [Prod.mk.injEq] at hpair
    obtain ⟨-, rfl⟩ := hpair
    have hfirst := (step_status_next hstep t).consistent (hreach.status_consistent t)
    have := ih (hreach.step hstep) hrest
    exact ⟨this.1, hfirst.2.trans this.2⟩

end Status

/-! ### The direct path -/

/-- A frame of `root_node`: its own operations and the direct path. -/
def Frame.AtRoot : Frame → Prop
  | .rootArrive _ | .rootDepart _ | .rootQuery _ | .arriveDirectly .. | .departDirectly _ => True
  | _ => False

theorem Frame.AtRoot.valid {f : Frame} (h : f.AtRoot) (nodes : Nat) :
    f.Valid .fullContention nodes := by
  cases f <;> simp_all [Frame.AtRoot, Frame.Valid]

theorem Frame.AtRoot.node_eq {f : Frame} (h : f.AtRoot) : f.node = 0 := by
  cases f <;> simp_all [Frame.AtRoot, Frame.node]

theorem Frame.AtRoot.parentShare_eq {f : Frame} (h : f.AtRoot) : f.parentShare = 0 := by
  cases f <;> simp_all [Frame.AtRoot, Frame.parentShare]

theorem Frame.atRoot_of_valid {v : Variant} {nodes : Nat} {f : Frame} (hvalid : f.Valid v nodes)
    (hnode : f.node = 0) : f.AtRoot := by
  cases f <;> simp_all [Frame.AtRoot, Frame.Valid, Frame.node]

/-- The invariant of the full-contention runs in which no thread has switched to
the tree: every stack is at most one frame of the root, and the root counter is
the surplus. -/
structure DirectInvariant [Fintype τ] (s : State τ) : Prop where
  atRoot : ∀ t, ∀ f ∈ (s.threads t).stack, f.AtRoot
  single : ∀ t, (s.threads t).stack.length ≤ 1
  root : s.X 0 = s.surplus

/-- A thread whose status keeps it on the root. -/
def ContentionStatus.Direct (c : ContentionStatus) : Prop :=
  c.useSnziInArrive = false ∧ c.useSnziInDepart = false

/-- A status on the root after a step was on the root before it. -/
theorem ContentionStatus.Next.direct {c c' : ContentionStatus} (h : c.Next c') (hd : c'.Direct) :
    c.Direct := by
  rcases h with rfl | rfl | ⟨-, rfl⟩
  · exact hd
  · exact hd
  · simp [ContentionStatus.Direct] at hd

theorem State.surplus_nonneg [Fintype τ] (s : State τ) : 0 ≤ s.surplus :=
  Finset.sum_nonneg fun t _ => (s.threads t).stake_nonneg

/-- What a root frame holds. -/
theorem Frame.AtRoot.share_le {f : Frame} (h : f.AtRoot) : 0 ≤ f.share ∧ f.share ≤ 1 := by
  have := counterShare_nonneg f
  have := counterShare_le_one f
  simp only [Frame.share, h.parentShare_eq]
  omega

/-- Invoking an operation on the direct path pushes a root frame holding what the
client gave up. -/
theorem direct_invoke [DecidableEq τ] {w : Wiring τ} {s : State τ} {t : τ} {op : Op} {th' : Thread} (hdirect : (s.threads t).status.Direct)
    (hidle : (s.threads t).stack = [])
    (hinvoke : (s.threads t).invoke .fullContention (w.leaf t) op = some th') :
    (∃ f, th'.stack = [f] ∧ f.AtRoot ∧ f.op = op ∧
      stackPosition [f] = .invoked op) ∧ th'.stake = (s.threads t).stake := by
  obtain ⟨harrive, hdepart⟩ := hdirect
  cases op <;> simp only [Thread.invoke, harrive, hdepart, and_self, if_true] at hinvoke
  case depart =>
    split at hinvoke
    · cases hinvoke
    · cases hinvoke
      refine ⟨⟨_, rfl, trivial, rfl, by simp [stackPosition, Frame.op, Frame.share,
        Frame.counterShare, Frame.parentShare]⟩, ?_⟩
      simp [Thread.stake, hidle, Frame.share, Frame.counterShare, Frame.parentShare]
      omega
  all_goals
    cases hinvoke
    exact ⟨⟨_, rfl, trivial, rfl, by simp [stackPosition, Frame.op, Frame.share,
      Frame.counterShare, Frame.parentShare]⟩, by simp [Thread.stake, hidle, Frame.share,
      Frame.counterShare, Frame.parentShare]⟩

theorem Frame.AtRoot.of_op_query {f : Frame} (h : f.AtRoot) (hq : f.op = .query) :
    ∃ result, f = .rootQuery result := by
  cases f <;> simp_all [Frame.AtRoot, Frame.op]

section Direct

variable [Fintype τ] {w : Wiring τ} {s s' : State τ} {t : τ} {e : Event}


theorem DirectInvariant.stack_eq (hinv : DirectInvariant s) {f : Frame} {callers : List Frame}
    (hstack : (s.threads t).stack = f :: callers) : callers = [] := by
  have := hinv.single t
  rw [hstack] at this
  exact List.length_eq_zero.mp (by simpa using this)

/-- In an invariant state every step of a root frame obeys `Action.Law`. -/
theorem DirectInvariant.law (hinv : DirectInvariant s) {f : Frame} {callers : List Frame}
    {a : Action} (hstack : (s.threads t).stack = f :: callers)
    (hact : f.step .fullContention w.parent s.X s.announce = some a ∨
      f.spuriousStep .fullContention s.X = some a) :
    a.Law .fullContention w.parent 1 s.X f := by
  have hroot := hinv.atRoot t f (by simp [hstack])
  rcases hact with h | h
  · exact Frame.step_law (hroot.valid 1) (by rw [hroot.node_eq, hinv.root]; exact s.surplus_nonneg) h
  · exact Frame.spuriousStep_law (hroot.valid 1) h

variable [DecidableEq τ]

/-- A step of a root frame keeps its thread on one root frame (or idle), and moves
the root counter by the thread's change of stake. -/
theorem DirectInvariant.apply (hinv : DirectInvariant s) {f : Frame} {a : Action}
    (hstack : (s.threads t).stack = [f]) (hlaw : a.Law .fullContention w.parent 1 s.X f)
    (happly : s.apply t f [] a = some (s', e)) :
    (∀ g ∈ (s'.threads t).stack, g.AtRoot) ∧ (s'.threads t).stack.length ≤ 1 ∧
      s'.X 0 - s.X 0 = (s'.threads t).stake - (s.threads t).stake := by
  have hroot := hinv.atRoot t f (by simp [hstack])
  have hshare := hroot.share_le
  cases a with
  | set f' | flag _ _ f' =>
    simp only [State.apply, Option.some.injEq, Prod.mk.injEq] at happly
    obtain ⟨rfl, -⟩ := happly
    obtain ⟨hnode, -, hcs, hps, hvalid⟩ := hlaw
    have hroot' := Frame.atRoot_of_valid hvalid (hnode.trans hroot.node_eq)
    simp [hroot', Thread.stake, hstack, Frame.share, hcs, hps]
  | write m value f' =>
    simp only [State.apply, Option.some.injEq, Prod.mk.injEq] at happly
    obtain ⟨rfl, -⟩ := happly
    obtain ⟨hm, hnode, -, hvalue, hcs, hps, hvalid⟩ := hlaw
    have hroot' := Frame.atRoot_of_valid hvalid (hnode.trans hroot.node_eq)
    have hshare' := hroot'.share_le
    rw [hroot.node_eq] at hm
    subst hm
    simp only [if_true, sub_self] at hps
    have hdelta : f'.share = f.share + f.op.delta := by simp only [Frame.share]; omega
    have hop : f.op.delta = 1 ∨ f.op.delta = -1 ∨ f.op.delta = 0 := by
      cases f.op <;> simp [Op.delta]
    simp only [State.setThread_threads, Function.update_same, Thread.stake, hstack,
      stackShare_cons, stackShare_nil, Function.update_same, hvalue]
    refine ⟨by simpa using hroot', by simp, ?_⟩
    split_ifs <;> omega
  | call caller callee => exact absurd hroot.node_eq hlaw.2.2.1
  | ret =>
    simp only [State.apply, Option.some.injEq, Prod.mk.injEq] at happly
    obtain ⟨rfl, -⟩ := happly
    obtain ⟨hps, hcs⟩ := hlaw
    simp only [State.setThread_threads, Function.update_same, Thread.finish_stack,
      List.not_mem_nil, false_implies, implies_true, List.length_nil, zero_le, State.setThread_X,
      sub_self, Thread.stake, Thread.finish_arrived, stackShare_nil, hstack, stackShare_cons,
      Frame.share, hps, hcs, true_and]
    split <;> simp

/-- One step of a thread whose status keeps it on the root keeps the invariant. -/
theorem DirectInvariant.step (hinv : DirectInvariant s) (hdirect : (s.threads t).status.Direct)
    {choice : Choice} (hstep : step .fullContention w s t choice = some (s', e)) :
    DirectInvariant s' := by
  have hother : ∀ u, u ≠ t → s'.threads u = s.threads u := fun u hu => step_other hstep hu
  suffices h : (∀ g ∈ (s'.threads t).stack, g.AtRoot) ∧ (s'.threads t).stack.length ≤ 1 ∧
      s'.X 0 - s.X 0 = (s'.threads t).stake - (s.threads t).stake by
    refine ⟨fun u => ?_, fun u => ?_, ?_⟩
    · by_cases hu : u = t
      · exact hu ▸ h.1
      · exact hother u hu ▸ hinv.atRoot u
    · by_cases hu : u = t
      · exact hu ▸ h.2.1
      · exact hother u hu ▸ hinv.single u
    · rw [State.surplus_step hother, ← hinv.root]
      omega
  rcases step_eq_some hstep with ⟨op, th', hidle, hinvoke, rfl, -⟩ |
    ⟨f, callers, a, hstack, hact, happly⟩
  · obtain ⟨⟨f, hf, hroot, -⟩, hstake⟩ := direct_invoke hdirect hidle hinvoke
    simp [hf, hroot, hstake]
  · obtain rfl := hinv.stack_eq hstack
    exact hinv.apply hstack (hinv.law hstack hact) happly

/-- A step of a thread on the root moves it as `Move` allows: `ArriveDirectly`
takes effect at its successful exchange, `DepartDirectly` at its decrement, and
`Query` at its load, answering whether the root is non-zero. -/
theorem direct_step_move (hinv : DirectInvariant s) (hdirect : (s.threads t).status.Direct)
    {choice : Choice} (hstep : step .fullContention w s t choice = some (s', e)) :
    Move (decide (s.X 0 ≠ 0)) (stackPosition (s.threads t).stack)
      (stackPosition (s'.threads t).stack) e (s.threads t).stake (s'.threads t).stake := by
  rcases step_eq_some hstep with ⟨op, th', hidle, hinvoke, rfl, rfl⟩ |
    ⟨f, callers, a, hstack, hact, happly⟩
  · obtain ⟨⟨f, hf, -, -, hpos⟩, hstake⟩ := direct_invoke hdirect hidle hinvoke
    simp only [State.setThread_threads, Function.update_same, hf, hpos, hstake, hidle]
    exact .invoke _ _
  obtain rfl := hinv.stack_eq hstack
  have hroot := hinv.atRoot t f (by simp [hstack])
  have hlaw := hinv.law hstack hact
  by_cases hq : f.op = .query
  · obtain ⟨result, rfl⟩ := hroot.of_op_query hq
    cases result with
    | none =>
      obtain rfl : a = .set (.rootQuery (some (decide (s.X 0 ≠ 0)))) := by
        rcases hact with h | h <;> cases h; rfl
      simp only [State.apply, Option.some.injEq, Prod.mk.injEq] at happly
      obtain ⟨rfl, rfl⟩ := happly
      simp only [State.setThread_threads, Function.update_same, Thread.stake, hstack]
      exact .query _ _ rfl
    | some b =>
      obtain rfl : a = .ret := by
        rcases hact with h | h <;> cases h; rfl
      simp only [State.apply, Option.some.injEq, Prod.mk.injEq] at happly
      obtain ⟨rfl, rfl⟩ := happly
      simp only [State.setThread_threads, Function.update_same, Thread.stake, Thread.finish,
        hstack]
      exact .respond _ _ _
  have hb : bottomOp (s.threads t).stack ≠ some .query := by simpa [hstack] using hq
  cases a with
  | set f' | flag _ _ f' =>
    simp only [State.apply, Option.some.injEq, Prod.mk.injEq] at happly
    obtain ⟨rfl, rfl⟩ := happly
    obtain ⟨-, hop, hcs, hps, -⟩ := hlaw
    simp only [State.setThread_threads, Function.update_same]
    exact Thread.move_same hb (by simp [hstack, hop]) (by simp [hstack, Frame.share, hcs, hps]) rfl
  | write m value f' =>
    simp only [State.apply, Option.some.injEq, Prod.mk.injEq] at happly
    obtain ⟨rfl, rfl⟩ := happly
    obtain ⟨hm, -, hop, -, hcs, hps, -⟩ := hlaw
    rw [hroot.node_eq] at hm
    subst hm
    simp only [if_true, sub_self] at hps
    have hshare : f'.share = f.share + f.op.delta := by simp only [Frame.share]; omega
    have := hroot.share_le
    simp only [State.setThread_threads, Function.update_same, Thread.stake, hstack]
    refine move_of_shares hq (by simp) (by simp [hop]) rfl (fun hop hpos => ?_)
      (fun hop hpos => ?_) <;>
      simp only [stackShare_cons, stackShare_nil, hop, Op.delta] at hpos hshare ⊢ <;> omega
  | call caller callee => exact absurd hroot.node_eq hlaw.2.2.1
  | ret =>
    simp only [State.apply, Option.some.injEq, Prod.mk.injEq] at happly
    obtain ⟨rfl, rfl⟩ := happly
    obtain ⟨hps, hcs⟩ := hlaw
    have hdone : stackPosition [f] = .linearized f.op false := by
      cases hfop : f.op <;> simp_all [stackPosition, Frame.share]
    have hk : ((s.threads t).finish f).stake = (s.threads t).stake := by
      simp only [Thread.stake, Thread.finish_arrived, Thread.finish_stack, stackShare_nil, hstack,
        stackShare_cons, Frame.share, hps, hcs]
      split <;> simp
    simp only [State.setThread_threads, Function.update_same, hk, hstack, hdone,
      Thread.finish_stack, Frame.result_of_ne_query hq]
    exact .respond _ _ _

/-- Every reachable trace of the full-contention class that ends with every
thread on the root has a linearization in which every thread stands where its
stack does and whose sequential run ends at the surplus; the root counter is the
surplus. -/
theorem direct_linearization {trace : List (τ × Event)} (hreach : Reach .fullContention w trace s)
    (hdirect : ∀ t, (s.threads t).status.Direct) :
    DirectInvariant s ∧ ∃ L : List (τ × Mark), erase L = history trace ∧
      (∀ t, position L t = some (stackPosition (s.threads t).stack)) ∧
      seqRun L = some s.surplus := by
  induction hreach with
  | init =>
    refine ⟨⟨by simp [State.init], by simp [State.init], ?_⟩, [], rfl, fun _ => rfl, ?_⟩ <;>
      simp [seqRun, State.surplus, Thread.stake, State.init]
  | @step trace s s' t choice e _ hstep ih =>
    have hprev : ∀ u, (s.threads u).status.Direct := fun u =>
      (step_status_next hstep u).direct (hdirect u)
    obtain ⟨hinv, L, herase, hpos, hrun⟩ := ih hprev
    have hanswer : decide (s.X 0 ≠ 0) = decide (0 < s.surplus) := by
      have := s.surplus_nonneg
      rw [hinv.root, decide_eq_decide]
      omega
    obtain ⟨M, hM, hposM, hother, hrunM⟩ :=
      (direct_step_move hinv (hprev t) hstep).extend (hpos t) hrun hanswer
    refine ⟨hinv.step (hprev t) hstep, L ++ M, by simp [herase, hM], fun u => ?_, ?_⟩
    · by_cases hu : u = t
      · subst hu; exact hposM
      · rw [hother u hu, hpos u, step_other hstep hu]
    · rw [hrunM, State.surplus_step fun u hu => step_other hstep hu]

end Direct

/-- In the full-contention class, over every wiring, every interleaving of the
atomic steps (spurious failures of the weak exchanges included) that ends with no
thread's `contention_status` switched to the tree (`use_snzi_in_arrive` and
`use_snzi_in_depart` clear) has a linearizable history, and the root counter is
then exactly the number of `Arrive`s in effect. -/
theorem direct_history_linearizable [Fintype τ] [DecidableEq τ] (w : Wiring τ)
    {trace : List (τ × Event)} {s : State τ} (hreach : Reach .fullContention w trace s)
    (hdirect : ∀ t, (s.threads t).status.useSnziInArrive = false ∧
      (s.threads t).status.useSnziInDepart = false) :
    Linearizable (history trace) ∧ s.X 0 = s.surplus := by
  obtain ⟨hinv, L, herase, hpos, hrun⟩ := direct_linearization hreach hdirect
  exact ⟨⟨L, herase, fun t => by simp [hpos t], by simp [hrun]⟩, hinv.root⟩

/-- One thread on leaf `1` under the root. -/
def oneLeaf : Wiring (Fin 1) where
  parent _ := 0
  leaf _ := 1

/-- A direct `Arrive`, a `Query` and a direct `Depart`, each run to completion. -/
def directSchedule : List (Fin 1 × Choice) :=
  [(0, .invoke .arrive), (0, .run), (0, .run), (0, .run),
   (0, .invoke .query), (0, .run), (0, .run),
   (0, .invoke .depart), (0, .run), (0, .run)]

/-- `direct_history_linearizable` along `directSchedule`. -/
theorem direct_history_linearizable_run :
    ∃ trace s, Reach .fullContention oneLeaf trace s ∧
      (∀ t, (s.threads t).status.useSnziInArrive = false ∧
        (s.threads t).status.useSnziInDepart = false) ∧
      Linearizable (history trace) ∧ s.X 0 = s.surplus := by
  have hcheck : (runSchedule .fullContention oneLeaf (State.init (Fin 1)) directSchedule).map
      (fun r => decide ((r.2.threads 0).status.useSnziInArrive = false ∧
        (r.2.threads 0).status.useSnziInDepart = false)) = some true := by
    decide
  obtain ⟨⟨trace, s⟩, hrun, hfacts⟩ := Option.map_eq_some'.mp hcheck
  have hreach : Reach .fullContention oneLeaf trace s := by
    simpa using runSchedule_reach _ Reach.init hrun
  have hdirect : ∀ t, (s.threads t).status.useSnziInArrive = false ∧
      (s.threads t).status.useSnziInDepart = false := fun t => by
    rw [Subsingleton.elim t 0]; simpa using hfacts
  exact ⟨trace, s, hreach, hdirect, direct_history_linearizable oneLeaf hreach hdirect⟩

/-- A direct `Arrive` whose exchange fails spuriously five times, and a direct
`Depart`, which then switches the thread to the tree. -/
def switchSchedule : List (Fin 1 × Choice) :=
  [(0, .invoke .arrive), (0, .run), (0, .spurious), (0, .spurious), (0, .spurious),
   (0, .spurious), (0, .spurious), (0, .run), (0, .run),
   (0, .invoke .depart), (0, .run), (0, .run)]

/-- `runSchedule_status` along `switchSchedule`, which takes the thread through
all three stages. -/
theorem runSchedule_status_switch :
    ∃ trace' s', runSchedule .fullContention oneLeaf (State.init (Fin 1)) switchSchedule =
        some (trace', s') ∧
      ((s'.threads 0).status.Consistent ∧
        ((State.init (Fin 1)).threads 0).status.stage ≤ (s'.threads 0).status.stage) ∧
      (s'.threads 0).status.stage = 2 := by
  have hcheck : (runSchedule .fullContention oneLeaf (State.init (Fin 1)) switchSchedule).map
      (fun r => decide ((r.2.threads 0).status.stage = 2)) = some true := by
    decide
  obtain ⟨⟨trace', s'⟩, hrun, hstage⟩ := Option.map_eq_some'.mp hcheck
  exact ⟨trace', s', hrun, runSchedule_status Reach.init _ hrun 0, by simpa using hstage⟩

/-! ### The switch with an `Arrive` outstanding -/

/-- One thread with `tid` `0` on leaf `1` of the binary tree of height one: a direct
`Arrive` whose `compare_exchange_weak` fails spuriously five times (so the
thread's status asks for the tree), a second direct `Arrive`, a direct `Depart`
(which switches the thread to the tree), and a `Depart` on the leaf. -/
def escalationSchedule : List (Fin 1 × Choice) :=
  [(0, .invoke .arrive), (0, .run), (0, .spurious), (0, .spurious), (0, .spurious),
   (0, .spurious), (0, .spurious), (0, .run), (0, .run),
   (0, .invoke .arrive), (0, .run), (0, .run), (0, .run),
   (0, .invoke .depart), (0, .run), (0, .run),
   (0, .invoke .depart), (0, .run), (0, .run), (0, .run)]

/-- `Query` run alone. -/
def querySchedule : List (Fin 1 × Choice) :=
  [(0, .invoke .query), (0, .run), (0, .run)]

open Snzi.Tree in
/-- In the full-contention class with `K = 2`, `H = 1`, `T = 1`, after
`escalationSchedule` the only thread is idle, has completed two `Arrive`s and two
`Depart`s, and its leaf's counter was taken below zero; a `Query` it then runs
returns `true`. -/
theorem escalation_query_true :
    ∃ shape, construct (fun _ _ => 1) (fun _ => true) 2#64 1#64 1#64 = .returned shape ∧
      ∃ trace s, Reach .fullContention (shape.wiring fun _ : Fin 1 => 0#64) trace s ∧
        (s.threads 0).stack = [] ∧
        completed trace 0 .arrive = 2 ∧ completed trace 0 .depart = 2 ∧
        s.X 1 = -1 ∧ s.X 0 = 1 ∧
        (runSchedule .fullContention (shape.wiring fun _ : Fin 1 => 0#64) s querySchedule).map
          Prod.fst = some [(0, .invoke .query), (0, .internal), (0, .respond .query true)] := by
  refine ⟨⟨2#64, 3#64, 2#64, 1#64, 1#64⟩, rfl, ?_⟩
  have hcheck : (runSchedule .fullContention
      (Shape.wiring ⟨2#64, 3#64, 2#64, 1#64, 1#64⟩ fun _ : Fin 1 => 0#64)
      (State.init (Fin 1)) escalationSchedule).map (fun r => decide ((r.2.threads 0).stack = [] ∧
      completed r.1 0 .arrive = 2 ∧ completed r.1 0 .depart = 2 ∧ r.2.X 1 = -1 ∧ r.2.X 0 = 1 ∧
      (runSchedule .fullContention
        (Shape.wiring ⟨2#64, 3#64, 2#64, 1#64, 1#64⟩ fun _ : Fin 1 => 0#64) r.2
        querySchedule).map Prod.fst =
        some [(0, .invoke .query), (0, .internal), (0, .respond .query true)])) = some true := by
    decide
  obtain ⟨⟨trace, s⟩, hrun, hfacts⟩ := Option.map_eq_some'.mp hcheck
  exact ⟨trace, s, by simpa using runSchedule_reach _ Reach.init hrun, by simpa using hfacts⟩

end Snzi.Machine
