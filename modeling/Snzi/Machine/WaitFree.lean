import Snzi.Machine.Step

/-!
# `Query` is wait-free

`Query` is one load of the root's counter, and the root's own `Arrive` and
`Depart` are one `fetch_add` and one `fetch_sub`; `DepartDirectly` is the root's
`Depart`.  None of them retries, so unlike an `Arrive` on the tree, whose
`compare_exchange` other threads can make fail again and again, each can always
take its next step and finishes within two steps of its own thread, whatever the
other threads do in between.  This holds in every class, on every wiring, from
every state and under every schedule: for `Query`, for every operation of the no-
and semi-contention classes whose thread has the root as its leaf (every thread of
a tree of height `0`), and for the direct `Depart` of the full-contention class.

The argument follows one thread.  Another thread's step leaves its stack as it was
(`step_other`); its own step lowers the steps its lone frame has left, or returns
it with a response (`step_straight`); a frame that cannot retry has no spurious
step; and a lone straight frame's next step is always enabled
(`step_straight_enabled`).
-/

namespace Snzi.Machine

variable {τ : Type}

/-- The steps left to a frame that runs straight through on the root: its load or
read-modify-write, then its return.  `none` for a frame that may retry or call. -/
def Frame.straightSteps : Frame → Option Nat
  | .rootArrive done | .rootDepart done | .departDirectly done => some (if done then 1 else 2)
  | .rootQuery result => some (if result.isSome then 1 else 2)
  | _ => none

/-- What a step does to a straight frame with `n + 1` steps left: the frame left in
its place runs the same operation with `n` steps left, or the frame returns from
its last step. -/
def Action.Straightens (n : Nat) (f : Frame) : Action → Prop
  | .set f' | .write _ _ f' => f'.straightSteps = some n ∧ f'.op = f.op
  | .ret => n = 0
  | .flag .. | .call .. => False

section Frames

variable {v : Variant} {parent : Nat → Nat} {X : Nat → Int} {announce : Nat → Bool}
  {f : Frame} {n : Nat} {a : Action}

theorem Frame.straightSteps_pos (hf : f.straightSteps = some n) : 0 < n := by
  cases f <;> simp only [Frame.straightSteps, Option.some.injEq, reduceCtorEq] at hf <;>
    subst hf <;> split <;> omega

theorem Frame.step_straightens (hf : f.straightSteps = some (n + 1))
    (h : f.step v parent X announce = some a) : a.Straightens n f := by
  cases f with
  | rootArrive b | rootDepart b | departDirectly b =>
    cases b <;> cases h <;> simp_all [Frame.straightSteps, Action.Straightens, Frame.op]
  | rootQuery r =>
    cases r <;> cases h <;> simp_all [Frame.straightSteps, Action.Straightens, Frame.op]
  | _ => simp [Frame.straightSteps] at hf

/-- A straight frame has no `compare_exchange_weak` to fail. -/
theorem Frame.spuriousStep_straight (hf : f.straightSteps = some n) : f.spuriousStep v X = none := by
  cases f <;> simp_all [Frame.straightSteps, Frame.spuriousStep]

end Frames

section Runs

variable [DecidableEq τ] {v : Variant} {w : Wiring τ} {t : τ}

/-- An invocation step starts the operation on an idle thread. -/
theorem step_invoke_eq_some {s s' : State τ} {op : Op} {e : Event}
    (h : step v w s t (.invoke op) = some (s', e)) :
    (s.threads t).stack = [] ∧ ∃ th', (s.threads t).invoke v (w.leaf t) op = some th' ∧
      s' = s.setThread t th' ∧ e = .invoke op := by
  cases hidle : (s.threads t).stack with
  | nil =>
    simp only [step, hidle, Option.map_eq_some', Prod.mk.injEq] at h
    obtain ⟨th', hth', rfl, rfl⟩ := h
    exact ⟨rfl, th', hth', rfl, rfl⟩
  | cons g callers => simp [step, hidle] at h

/-- A step of thread `t`, whose stack is a lone straight frame with `n + 1` steps
left, either returns the frame with its response or leaves a straight frame of the
same operation with `n` steps left. -/
theorem step_straight {s s' : State τ} {f : Frame} {n : Nat} {c : Choice} {e : Event}
    (hstack : (s.threads t).stack = [f]) (hf : f.straightSteps = some (n + 1))
    (h : step v w s t c = some (s', e)) :
    e = .respond f.op f.result ∨
      ∃ f', (s'.threads t).stack = [f'] ∧ f'.straightSteps = some n ∧ f'.op = f.op := by
  rcases step_eq_some h with ⟨_, _, hidle, -⟩ | ⟨g, callers, a, hstack', hact, happly⟩
  · simp [hstack] at hidle
  obtain ⟨rfl, rfl⟩ := List.cons.inj (hstack.symm.trans hstack')
  have ha : a.Straightens n f :=
    hact.elim (Frame.step_straightens hf) fun h' => by simp [Frame.spuriousStep_straight hf] at h'
  cases a with
  | set f' | write m value f' =>
    simp only [State.apply, Option.some.injEq, Prod.mk.injEq] at happly
    obtain ⟨rfl, -⟩ := happly
    exact .inr ⟨f', by simp, ha⟩
  | ret =>
    simp only [State.apply, Option.some.injEq, Prod.mk.injEq] at happly
    exact .inl happly.2.symm
  | flag | call => exact ha.elim

/-- A lone straight frame can always take its next step. -/
theorem step_straight_enabled {s : State τ} {f : Frame} {n : Nat}
    (hstack : (s.threads t).stack = [f]) (hf : f.straightSteps = some n) :
    ∃ r, step v w s t .run = some r := by
  cases f with
  | rootArrive b | rootDepart b | departDirectly b =>
    cases b <;> simp [step, hstack, Frame.step, State.apply]
  | rootQuery r => cases r <;> simp [step, hstack, Frame.step, State.apply]
  | _ => simp [Frame.straightSteps] at hf

/-- Along every run, a lone straight frame of thread `t` with `n` steps left either
responds, or can still take its next step after fewer than `n` runs of `t`. -/
theorem runSchedule_straight : ∀ (schedule : List (τ × Choice)) {s s' : State τ} {f : Frame}
    {n : Nat} {trace' : List (τ × Event)}, (s.threads t).stack = [f] → f.straightSteps = some n →
    runSchedule v w s schedule = some (trace', s') →
    (∃ r, (t, Event.respond f.op r) ∈ trace') ∨
      (∃ r, step v w s' t .run = some r) ∧ schedule.count (t, .run) < n
  | [], _, _, _, _, _, hstack, hf, hrun => by
    simp only [runSchedule, Option.some.injEq, Prod.mk.injEq] at hrun
    obtain ⟨-, rfl⟩ := hrun
    exact .inr ⟨step_straight_enabled hstack hf, by simpa using Frame.straightSteps_pos hf⟩
  | (u, c) :: rest, s, s', f, n, trace', hstack, hf, hrun => by
    simp only [runSchedule, Option.bind_eq_some, Option.map_eq_some'] at hrun
    obtain ⟨⟨s₁, e⟩, hstep, ⟨trace₁, s''⟩, hrest, hpair⟩ := hrun
    simp only [Prod.mk.injEq] at hpair
    obtain ⟨rfl, rfl⟩ := hpair
    by_cases hu : u = t
    · subst u
      obtain ⟨m, rfl⟩ : ∃ m, n = m + 1 := ⟨n - 1, by have := Frame.straightSteps_pos hf; omega⟩
      rcases step_straight hstack hf hstep with rfl | ⟨f', hstack₁, hf', hop⟩
      · exact .inl ⟨f.result, List.mem_cons_self _ _⟩
      · have hcount : (List.count (t, Choice.run) ((t, c) :: rest)) ≤ rest.count (t, .run) + 1 := by
          rw [List.count_cons]; split <;> omega
        rcases runSchedule_straight rest hstack₁ hf' hrest with ⟨r, hr⟩ | ⟨henabled, hlt⟩
        · exact .inl ⟨r, List.mem_cons_of_mem _ (hop ▸ hr)⟩
        · exact .inr ⟨henabled, by omega⟩
    · have hstack₁ : (s₁.threads t).stack = [f] := by rw [step_other hstep (Ne.symm hu), hstack]
      rw [List.count_cons_of_ne (by simp [Ne.symm hu])]
      rcases runSchedule_straight rest hstack₁ hf hrest with ⟨r, hr⟩ | hstuck
      · exact .inl ⟨r, List.mem_cons_of_mem _ hr⟩
      · exact .inr hstuck

end Runs

/-- `Query` in every class, the root's `Arrive` and `Depart` in the no- and
semi-contention classes, and `DepartDirectly` start as a lone straight frame of the
invoked operation with two steps left. -/
theorem Thread.invoke_straight {v : Variant} {leaf : Nat} {th th' : Thread} {op : Op}
    (hop : op = .query ∨ (v ≠ .fullContention ∧ leaf = 0) ∨
      (v = .fullContention ∧ op = .depart ∧ th.status.useSnziInDepart = false))
    (h : th.invoke v leaf op = some th') :
    ∃ f, th'.stack = [f] ∧ f.straightSteps = some 2 ∧ f.op = op := by
  rcases hop with rfl | ⟨hv, rfl⟩ | ⟨rfl, rfl, hdirect⟩
  · cases h; exact ⟨_, rfl, rfl, rfl⟩
  · cases op <;> simp only [Thread.invoke, hv, false_and, if_false] at h <;> (try split at h) <;>
      cases h <;> exact ⟨_, rfl, rfl, rfl⟩
  · simp only [Thread.invoke, hdirect, and_self, if_true] at h
    split at h <;> cases h
    exact ⟨_, rfl, rfl, rfl⟩

/-- In every class, on every wiring and from every state, an operation that runs
straight through on the root is wait-free: its invocation is enabled on an idle
thread (for a `Depart`, one holding a completed `Arrive`), and along every run that
follows, whatever the other threads do in between, it has responded, or its thread
can take its next step and has been run fewer than twice.  This covers `Query`
everywhere, every `Arrive` and `Depart` of the no- and semi-contention classes by a
thread whose leaf is the root, and `DepartDirectly`. -/
theorem root_ops_wait_free [DecidableEq τ] (v : Variant) (w : Wiring τ) (s : State τ) (t : τ)
    (op : Op) (hop : op = .query ∨ (v ≠ .fullContention ∧ w.leaf t = 0) ∨
      (v = .fullContention ∧ op = .depart ∧ (s.threads t).status.useSnziInDepart = false)) :
    ((s.threads t).stack = [] → (op = .depart → 0 < (s.threads t).arrived) →
        ∃ r, step v w s t (.invoke op) = some r) ∧
      ∀ (schedule : List (τ × Choice)) (trace' : List (τ × Event)) (s' : State τ),
        runSchedule v w s ((t, .invoke op) :: schedule) = some (trace', s') →
        (∃ r, (t, Event.respond op r) ∈ trace') ∨
          (∃ r, step v w s' t .run = some r) ∧ schedule.count (t, .run) < 2 := by
  refine ⟨fun hidle hpos => Option.isSome_iff_exists.mp ?_, fun schedule trace' s' hrun => ?_⟩
  · cases op <;> simp only [step, hidle, Thread.invoke, Option.isSome_map']
    case depart => split <;> simp_all
    all_goals rfl
  simp only [runSchedule, Option.bind_eq_some, Option.map_eq_some'] at hrun
  obtain ⟨⟨s₁, e⟩, hstep, ⟨trace₁, s''⟩, hrest, hpair⟩ := hrun
  simp only [Prod.mk.injEq] at hpair
  obtain ⟨rfl, rfl⟩ := hpair
  obtain ⟨-, th', hth', rfl, -⟩ := step_invoke_eq_some hstep
  obtain ⟨f, hstack, hf, rfl⟩ := Thread.invoke_straight hop hth'
  have hlone : ((s.setThread t th').threads t).stack = [f] := by simpa using hstack
  rcases runSchedule_straight schedule hlone hf hrest with ⟨r, hr⟩ | hstuck
  · exact .inl ⟨r, List.mem_cons_of_mem _ hr⟩
  · exact .inr hstuck

open Snzi.Tree in
/-- `root_ops_wait_free` for a `Query` of thread `0` on the binary tree of height
one, interleaved with an `Arrive` of thread `1` on its leaf. -/
theorem query_wait_free_interleaved :
    ∃ trace' s', runSchedule .semiContention
        (Shape.wiring ⟨2#64, 3#64, 2#64, 2#64, 4#64⟩ fun t : Fin 2 => BitVec.ofNat 64 t.val)
        (State.init (Fin 2))
        [(0, .invoke .query), (1, .invoke .arrive), (1, .run), (0, .run), (1, .run), (0, .run)] =
          some (trace', s') ∧
      ∃ r, ((0 : Fin 2), Event.respond .query r) ∈ trace' := by
  have hcheck : (runSchedule .semiContention
      (Shape.wiring ⟨2#64, 3#64, 2#64, 2#64, 4#64⟩ fun t : Fin 2 => BitVec.ofNat 64 t.val)
      (State.init (Fin 2))
      [(0, .invoke .query), (1, .invoke .arrive), (1, .run), (0, .run), (1, .run), (0, .run)]).isSome =
        true := by
    decide
  obtain ⟨⟨trace', s'⟩, hrun⟩ := Option.isSome_iff_exists.mp hcheck
  rcases (root_ops_wait_free _ _ _ 0 .query (.inl rfl)).2 _ trace' s' hrun with hdone | ⟨-, hlt⟩
  · exact ⟨trace', s', hrun, hdone⟩
  · exact absurd hlt (by decide)

end Snzi.Machine
