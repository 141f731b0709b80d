import Snzi.Machine.Thread

/-!
# One step of one thread

A step is taken by the innermost frame of one thread and performs at most one
shared access.  The scheduler picks the thread and, where the code leaves a
choice, resolves it: which operation an idle thread invokes, and whether a
`compare_exchange_weak` fails spuriously.  Clients are well formed: a thread
invokes `Depart` only while its completed `Arrive`s outnumber its invoked
`Depart`s.
-/

namespace Snzi.Machine

/-- How the scheduler resolves the next step of a thread: an idle thread invokes
an operation, a busy one runs its innermost frame, or its `compare_exchange_weak`
fails spuriously although the values are equal. -/
inductive Choice
  | invoke (op : Op)
  | run
  | spurious
  deriving DecidableEq, Repr

/-- The effect of one step of the innermost frame: replace the frame (a load or a
local step), store into `X[node]` or `announce[node]` and replace it, become
`caller` waiting for the pushed `callee`, or return. -/
inductive Action
  | set (frame : Frame)
  | write (node : Nat) (value : Int) (frame : Frame)
  | flag (node : Nat) (value : Bool) (frame : Frame)
  | call (caller callee : Frame)
  | ret
  deriving DecidableEq, Repr

/-- `compare_exchange(oldx, new)` on `X[n]` from program point `onSuccess`: store and
move on when `X[n] = oldx`, otherwise reload `oldx` and go back to `loop`. -/
def casStep (X : Nat → Int) (n : Nat) (oldx new : Int) (onSuccess onFailure : Int → Frame) :
    Action :=
  if X n = oldx then .write n new (onSuccess oldx) else .set (onFailure (X n))

/-- One step of `node::Arrive` on `others[n]`. -/
def nodeArriveStep (v : Variant) (parent : Nat → Nat) (X : Nat → Int) (announce : Nat → Bool)
    (n : Nat) (oldx : Int) (pArrInv : Bool) : ArrivePc → Option Action
  | .start => some (.set (.nodeArrive n .loop (X n) pArrInv))
  | .loop =>
      if oldx = 0 ∧ pArrInv = false then
        match v with
        | .noContention => some (.set (.nodeArrive n .propagate oldx pArrInv))
        | _ => some (.set (.nodeArrive n (if announce n then .wait 0 else .setAnnounce) oldx pArrInv))
      else
        some (casStep X n oldx (oldx + 1) (fun o => .nodeArrive n .after o pArrInv)
          (fun o => .nodeArrive n .loop o pArrInv))
  | .wait i =>
      if X n ≠ 0 then some (.set (.nodeArrive n .loop (X n) pArrInv))
      else if i + 1 < delayAmount then some (.set (.nodeArrive n (.wait (i + 1)) 0 pArrInv))
      else some (.set (.nodeArrive n .setAnnounce 0 pArrInv))
  | .setAnnounce => some (.flag n true (.nodeArrive n .propagate oldx pArrInv))
  | .propagate => some (.call (.nodeArrive n .inParentArrive oldx pArrInv) (arriveOn (parent n)))
  | .inParentArrive => none
  | .after =>
      if pArrInv = true ∧ oldx ≠ 0 then
        some (.call (.nodeArrive n .inParentDepart oldx pArrInv) (departOn (parent n)))
      else some .ret
  | .inParentDepart => none
  | .done => some .ret

/-- One step of `node::Depart` on `others[n]`.  The no-contention class loops on a
weak `compare_exchange`; the other two clear `announce` before a strong one when
they are about to take the counter from `1` to `0`. -/
def nodeDepartStep (v : Variant) (parent : Nat → Nat) (X : Nat → Int) (n : Nat) (oldx : Int) :
    DepartPc → Option Action
  | .start => some (.set (.nodeDepart n .loop (X n)))
  | .loop =>
      if v ≠ .noContention ∧ oldx = 1 then some (.flag n false (.nodeDepart n .cas oldx))
      else some (casStep X n oldx (oldx - 1) (.nodeDepart n .after) (.nodeDepart n .loop))
  | .cas => some (casStep X n oldx (oldx - 1) (.nodeDepart n .after) (.nodeDepart n .loop))
  | .after =>
      if oldx = 1 then some (.call (.nodeDepart n .inParentDepart oldx) (departOn (parent n)))
      else some .ret
  | .inParentDepart => none
  | .done => some .ret

/-- One ordinary step of a frame (no spurious failure). -/
def Frame.step (v : Variant) (parent : Nat → Nat) (X : Nat → Int) (announce : Nat → Bool) :
    Frame → Option Action
  | .rootArrive false => some (.write 0 (X 0 + 1) (.rootArrive true))
  | .rootArrive true => some .ret
  | .rootDepart false => some (.write 0 (X 0 - 1) (.rootDepart true))
  | .rootDepart true => some .ret
  | .rootQuery none => some (.set (.rootQuery (some (decide (X 0 ≠ 0)))))
  | .rootQuery (some _) => some .ret
  | .arriveDirectly .start _ k => some (.set (.arriveDirectly .cas (X 0) k))
  | .arriveDirectly .cas oldx k =>
      some (casStep X 0 oldx (oldx + 1) (fun o => .arriveDirectly .done o k)
        (fun o => .arriveDirectly .cas o (k + 1)))
  | .arriveDirectly .done _ _ => some .ret
  | .departDirectly false => some (.write 0 (X 0 - 1) (.departDirectly true))
  | .departDirectly true => some .ret
  | .nodeArrive n pc oldx pArrInv => nodeArriveStep v parent X announce n oldx pArrInv pc
  | .nodeDepart n pc oldx => nodeDepartStep v parent X n oldx pc

/-- A spurious failure of a `compare_exchange_weak`: `oldx` is reloaded and the
loop goes round again.  Only the weak exchanges can fail so. -/
def Frame.spuriousStep (v : Variant) (X : Nat → Int) : Frame → Option Action
  | .nodeArrive n .loop oldx pArrInv =>
      if oldx = 0 ∧ pArrInv = false then none else some (.set (.nodeArrive n .loop (X n) pArrInv))
  | .nodeDepart n .loop _ =>
      if v = .noContention then some (.set (.nodeDepart n .loop (X n))) else none
  | .arriveDirectly .cas _ k => some (.set (.arriveDirectly .cas (X 0) (k + 1)))
  | _ => none

/-- Where a caller continues once its callee returns, and the event of that return. -/
def Frame.resume : Frame → Option (Frame × Event)
  | .nodeArrive n .inParentArrive oldx _ => some (.nodeArrive n .loop oldx true, .returnArrive n)
  | .nodeArrive n .inParentDepart oldx p => some (.nodeArrive n .done oldx p, .returnDepart n)
  | .nodeDepart n .inParentDepart oldx => some (.nodeDepart n .done oldx, .returnDepart n)
  | _ => none

/-- The event of a call. -/
def callEvent (caller callee : Frame) : Event :=
  match callee.op with
  | .arrive => .callArrive caller.node
  | _ => .callDepart caller.node

/-- The client-visible result of an operation whose outermost frame returns
(`Query`'s value; `false` for the two `void` operations). -/
def Frame.result : Frame → Bool
  | .rootQuery (some b) => b
  | _ => false

/-- The thread after its outermost frame returns: a completed `Arrive` is counted,
and `ArriveDirectly`/`DepartDirectly` update the thread's `contention_status`. -/
def Thread.finish (th : Thread) : Frame → Thread
  | .arriveDirectly _ _ k =>
      { th with
        stack := []
        arrived := th.arrived + 1
        status := if maxContentionNumFailures ≤ k then { th.status with useSnziTreeFlag := true }
          else th.status }
  | .departDirectly _ =>
      { th with
        stack := []
        status := if th.status.useSnziTreeFlag then
            { th.status with useSnziInArrive := true, useSnziInDepart := true }
          else th.status }
  | frame =>
      { th with
        stack := []
        arrived := if frame.op = .arrive then th.arrived + 1 else th.arrived }

@[simp] theorem Thread.finish_stack (th : Thread) (f : Frame) : (th.finish f).stack = [] := by
  cases f <;> rfl

/-- A completed `Arrive` is counted, whichever path it took. -/
@[simp] theorem Thread.finish_arrived (th : Thread) (f : Frame) :
    (th.finish f).arrived = th.arrived + if f.op = .arrive then 1 else 0 := by
  cases f <;> simp [Thread.finish, Frame.op]

/-- The outermost frame of a newly invoked operation: the leaf's (or the root's,
when the leaf is `0`), or the direct path of the full-contention class while the
thread's status says so. -/
def Thread.invoke (v : Variant) (leaf : Nat) (th : Thread) : Op → Option Thread
  | .arrive =>
      some { th with stack := [if v = .fullContention ∧ th.status.useSnziInArrive = false
        then .arriveDirectly .start 0 0 else arriveOn leaf] }
  | .depart =>
      if th.arrived = 0 then none
      else some { th with
        arrived := th.arrived - 1
        stack := [if v = .fullContention ∧ th.status.useSnziInDepart = false
          then .departDirectly false else departOn leaf] }
  | .query => some { th with stack := [.rootQuery none] }

/-- The outermost frame of an operation invoked on the tree path. -/
def Op.frameOn (leaf : Nat) : Op → Frame
  | .arrive => arriveOn leaf
  | .depart => departOn leaf
  | .query => .rootQuery none

/-- Outside the full-contention class, invoking an operation pushes its tree-path
frame; a `Depart` also gives up one completed `Arrive`, and needs one. -/
theorem Thread.invoke_eq_some {v : Variant} {leaf : Nat} {th th' : Thread} {op : Op}
    (hv : v ≠ .fullContention) (h : th.invoke v leaf op = some th') :
    (op = .depart → 0 < th.arrived) ∧
      th' = { th with stack := [op.frameOn leaf],
                      arrived := if op = .depart then th.arrived - 1 else th.arrived } := by
  cases op <;> simp only [Thread.invoke, hv, false_and, if_false, Option.some.injEq] at h
  case depart =>
    split at h
    · cases h
    · cases h; exact ⟨fun _ => Nat.pos_of_ne_zero ‹_›, rfl⟩
  all_goals subst h; exact ⟨nofun, rfl⟩

variable {τ : Type} [DecidableEq τ]

/-- Replace thread `t`'s state. -/
def State.setThread (s : State τ) (t : τ) (th : Thread) : State τ :=
  { s with threads := Function.update s.threads t th }

/-- Apply a frame's action for thread `t`, whose stack is `frame :: callers`. -/
def State.apply (s : State τ) (t : τ) (frame : Frame) (callers : List Frame) :
    Action → Option (State τ × Event)
  | .set f => some (s.setThread t { s.threads t with stack := f :: callers }, .internal)
  | .write n value f =>
      some ({ s.setThread t { s.threads t with stack := f :: callers } with
        X := Function.update s.X n value }, .internal)
  | .flag n value f =>
      some ({ s.setThread t { s.threads t with stack := f :: callers } with
        announce := Function.update s.announce n value }, .internal)
  | .call caller callee =>
      some (s.setThread t { s.threads t with stack := callee :: caller :: callers },
        callEvent caller callee)
  | .ret =>
      match callers with
      | [] => some (s.setThread t ((s.threads t).finish frame),
          .respond frame.op frame.result)
      | caller :: rest =>
          caller.resume.map fun (f, e) =>
            (s.setThread t { s.threads t with stack := f :: rest }, e)

/-- One step of thread `t` under the scheduler's `choice`; `none` when that step
is not possible. -/
def step (v : Variant) (w : Wiring τ) (s : State τ) (t : τ) (choice : Choice) :
    Option (State τ × Event) :=
  match (s.threads t).stack, choice with
  | [], .invoke op =>
      ((s.threads t).invoke v (w.leaf t) op).map fun th => (s.setThread t th, .invoke op)
  | frame :: callers, .run =>
      (frame.step v w.parent s.X s.announce).bind (s.apply t frame callers)
  | frame :: callers, .spurious =>
      (frame.spuriousStep v s.X).bind (s.apply t frame callers)
  | _, _ => none

@[simp] theorem State.setThread_X (s : State τ) (t : τ) (th : Thread) :
    (s.setThread t th).X = s.X := rfl

@[simp] theorem State.setThread_threads (s : State τ) (t : τ) (th : Thread) :
    (s.setThread t th).threads = Function.update s.threads t th := rfl

/-- What a step can be: an idle thread invokes an operation, or the innermost
frame of a busy thread takes an ordinary or a spurious step and its action is
applied. -/
theorem step_eq_some {v : Variant} {w : Wiring τ} {s s' : State τ} {t : τ} {choice : Choice}
    {e : Event} (h : step v w s t choice = some (s', e)) :
    (∃ op th', (s.threads t).stack = [] ∧ (s.threads t).invoke v (w.leaf t) op = some th' ∧
        s' = s.setThread t th' ∧ e = .invoke op) ∨
      ∃ frame callers a, (s.threads t).stack = frame :: callers ∧
        (frame.step v w.parent s.X s.announce = some a ∨ frame.spuriousStep v s.X = some a) ∧
        s.apply t frame callers a = some (s', e) := by
  unfold step at h
  split at h
  · simp only [Option.map_eq_some', Prod.mk.injEq] at h
    obtain ⟨th', hinvoke, rfl, rfl⟩ := h
    exact .inl ⟨_, th', ‹_›, hinvoke, rfl, rfl⟩
  · obtain ⟨a, ha, happly⟩ := Option.bind_eq_some.mp h
    exact .inr ⟨_, _, _, ‹_›, .inl ha, happly⟩
  · obtain ⟨a, ha, happly⟩ := Option.bind_eq_some.mp h
    exact .inr ⟨_, _, _, ‹_›, .inr ha, happly⟩
  · cases h

/-- Applying an action of thread `t` leaves every other thread as it was. -/
theorem State.apply_other {s s' : State τ} {t u : τ} {frame : Frame} {callers : List Frame}
    {a : Action} {e : Event} (h : s.apply t frame callers a = some (s', e)) (hu : u ≠ t) :
    s'.threads u = s.threads u := by
  cases a <;> (try cases callers) <;>
    simp only [State.apply, Option.some.injEq, Prod.mk.injEq, Option.map_eq_some',
      Prod.exists] at h
  all_goals first
    | (obtain ⟨rfl, -⟩ := h; simp [hu])
    | (obtain ⟨_, _, -, rfl, -⟩ := h; simp [hu])

/-- A step of thread `t` leaves every other thread as it was. -/
theorem step_other {v : Variant} {w : Wiring τ} {s s' : State τ} {t u : τ} {choice : Choice}
    {e : Event} (h : step v w s t choice = some (s', e)) (hu : u ≠ t) :
    s'.threads u = s.threads u := by
  rcases step_eq_some h with ⟨_, _, -, -, rfl, -⟩ | ⟨_, _, _, -, -, happly⟩
  · simp [hu]
  · exact State.apply_other happly hu

/-- The traces of the system from its initial state, in chronological order,
each with the state it ends in. -/
inductive Reach (v : Variant) (w : Wiring τ) : List (τ × Event) → State τ → Prop
  | init : Reach v w [] (State.init τ)
  | step {trace : List (τ × Event)} {s s' : State τ} {t : τ} {choice : Choice} {e : Event} :
      Reach v w trace s → step v w s t choice = some (s', e) → Reach v w (trace ++ [(t, e)]) s'

/-- Run a schedule from `s`, collecting the trace; `none` if some step is not
possible. -/
def runSchedule (v : Variant) (w : Wiring τ) :
    State τ → List (τ × Choice) → Option (List (τ × Event) × State τ)
  | s, [] => some ([], s)
  | s, (t, c) :: rest =>
      (step v w s t c).bind fun (s', e) =>
        (runSchedule v w s' rest).map fun (trace, s'') => ((t, e) :: trace, s'')

theorem runSchedule_reach {v : Variant} {w : Wiring τ} :
    ∀ (schedule : List (τ × Choice)) {trace₀ : List (τ × Event)} {s₀ : State τ}
      {trace : List (τ × Event)} {s : State τ},
      Reach v w trace₀ s₀ → runSchedule v w s₀ schedule = some (trace, s) →
      Reach v w (trace₀ ++ trace) s := by
  intro schedule
  induction schedule with
  | nil =>
    intro trace₀ s₀ trace s hreach hrun
    simp only [runSchedule, Option.some.injEq, Prod.mk.injEq] at hrun
    obtain ⟨rfl, rfl⟩ := hrun
    simpa using hreach
  | cons head rest ih =>
    obtain ⟨t, c⟩ := head
    intro trace₀ s₀ trace s hreach hrun
    simp only [runSchedule, Option.bind_eq_some, Option.map_eq_some'] at hrun
    obtain ⟨⟨s', e⟩, hstep, ⟨trace', s''⟩, hrest, hpair⟩ := hrun
    simp only [Prod.mk.injEq] at hpair
    obtain ⟨rfl, rfl⟩ := hpair
    have := ih (Reach.step hreach hstep) hrest
    simpa using this

/-- Running two schedules one after the other. -/
theorem runSchedule_append {v : Variant} {w : Wiring τ} (s : State τ) (l l' : List (τ × Choice)) :
    runSchedule v w s (l ++ l') = (runSchedule v w s l).bind fun r =>
      (runSchedule v w r.2 l').map fun r' => (r.1 ++ r'.1, r'.2) := by
  induction l generalizing s with
  | nil =>
    show runSchedule v w s l' = (runSchedule v w s l').map _
    cases runSchedule v w s l' <;> rfl
  | cons c l ih =>
    obtain ⟨t, c⟩ := c
    show (step v w s t c).bind _ = ((step v w s t c).bind _).bind _
    cases step v w s t c with
    | none => rfl
    | some r =>
      show (runSchedule v w r.1 (l ++ l')).map _ = ((runSchedule v w r.1 l).map _).bind _
      rw [ih]
      cases runSchedule v w r.1 l with
      | none => rfl
      | some a =>
        simp only [Option.some_bind, Option.map_some']
        cases runSchedule v w a.2 l' <;> rfl

end Snzi.Machine
