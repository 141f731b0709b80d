import Snzi.Machine.Presence

/-!
# What each thread has completed

`Thread.arrived` is the client's own count: completed `Arrive`s minus invoked
`Depart`s.  Along every trace it equals the thread's completed `Arrive`s minus its
completed `Depart`s, less one while a `Depart` is in flight.  The operation in
flight is the one of the outermost frame, `bottomOp`.
-/

namespace Snzi.Machine

variable {τ : Type}

/-- The operation of the outermost frame of a stack: the one the client invoked. -/
def bottomOp : List Frame → Option Op
  | [] => none
  | [f] => some f.op
  | _ :: g :: rest => bottomOp (g :: rest)

@[simp] theorem bottomOp_nil : bottomOp [] = none := rfl
@[simp] theorem bottomOp_singleton (f : Frame) : bottomOp [f] = some f.op := rfl
@[simp] theorem bottomOp_cons_cons (f g : Frame) (l : List Frame) :
    bottomOp (f :: g :: l) = bottomOp (g :: l) := rfl

/-- Replacing the innermost frame by one running the same operation keeps the
operation in flight. -/
theorem bottomOp_replaceTop {f f' : Frame} (l : List Frame) (hop : f'.op = f.op) :
    bottomOp (f' :: l) = bottomOp (f :: l) := by
  cases l <;> simp [hop]

/-- How many operations `op` thread `t` has completed along a trace. -/
def completed [DecidableEq τ] (trace : List (τ × Event)) (t : τ) (op : Op) : Nat :=
  trace.count (t, .respond op false)

@[simp] theorem completed_snoc [DecidableEq τ] (trace : List (τ × Event)) (u t : τ) (e : Event)
    (op : Op) :
    completed (trace ++ [(u, e)]) t op =
      completed trace t op + if u = t ∧ e = .respond op false then 1 else 0 := by
  simp [completed, List.count_cons, Prod.ext_iff]

/-- The client's count, with the `Depart` in flight added back. -/
def Thread.pendingArrived (th : Thread) : Int :=
  th.arrived + if bottomOp th.stack = some .depart then 1 else 0

variable [Fintype τ] [DecidableEq τ] {v : Variant} {w : Wiring τ} {nodes : Nat}
  {s s' : State τ} {t : τ}

/-- Invoking an operation leaves the client's count, with the `Depart` in flight
added back, where it was. -/
theorem Thread.pendingArrived_push {th : Thread} {f : Frame} {op : Op} (hidle : th.stack = [])
    (hop : f.op = op) (hpos : op = .depart → 0 < th.arrived) :
    ({ th with
        stack := [f]
        arrived := if op = .depart then th.arrived - 1 else th.arrived } : Thread).pendingArrived =
      th.pendingArrived := by
  simp only [Thread.pendingArrived, hidle, bottomOp_singleton, hop, bottomOp_nil]
  cases op <;> simp at hpos ⊢
  omega

/-- A step of a frame of thread `t` moves its client's count exactly as its completed
`Arrive`s minus completed `Depart`s move. -/
theorem pendingArrived_apply (hinv : Invariant v w nodes s) {f : Frame} {callers : List Frame}
    {a : Action} {e : Event} (hstack : (s.threads t).stack = f :: callers)
    (hlaw : a.Law v w.parent nodes s.X f) (happly : s.apply t f callers a = some (s', e)) :
    (s'.threads t).pendingArrived + (if e = .respond .depart false then 1 else 0) =
      (s.threads t).pendingArrived + (if e = .respond .arrive false then 1 else 0) := by
  cases a with
  | set f' | flag _ _ f' =>
    simp only [State.apply, Option.some.injEq, Prod.mk.injEq] at happly
    obtain ⟨rfl, rfl⟩ := happly
    simp [Thread.pendingArrived, hstack, bottomOp_replaceTop callers hlaw.2.1]
  | write m value f' =>
    simp only [State.apply, Option.some.injEq, Prod.mk.injEq] at happly
    obtain ⟨rfl, rfl⟩ := happly
    simp [Thread.pendingArrived, hstack, bottomOp_replaceTop callers hlaw.2.2.1]
  | call caller callee =>
    simp only [State.apply, Option.some.injEq, Prod.mk.injEq] at happly
    obtain ⟨rfl, rfl⟩ := happly
    have hcall : callEvent caller callee ≠ .respond .arrive false ∧
        callEvent caller callee ≠ .respond .depart false := by
      unfold callEvent; split <;> simp
    simp [Thread.pendingArrived, hstack, bottomOp_replaceTop callers hlaw.2.1, hcall]
  | ret =>
    cases callers with
    | nil =>
      simp only [State.apply, Option.some.injEq, Prod.mk.injEq] at happly
      obtain ⟨rfl, rfl⟩ := happly
      simp only [Thread.pendingArrived, State.setThread_threads, Function.update_same, hstack,
        Thread.finish_stack, Thread.finish_arrived, bottomOp_nil, bottomOp_singleton,
        Event.respond.injEq, Nat.cast_add, Nat.cast_ite, Nat.cast_one, Nat.cast_zero]
      have hresult : f.op ≠ .query → f.result = false := by
        intro hq; cases f <;> simp_all [Frame.result, Frame.op]
      cases hop : f.op <;> simp_all
    | cons caller rest =>
      simp only [State.apply, Option.map_eq_some', Prod.exists, Prod.mk.injEq] at happly
      obtain ⟨f', e', hresume, rfl, rfl⟩ := happly
      have hchain : Chain w.parent (w.leaf t) (f :: caller :: rest) := hstack ▸ hinv.chain t
      obtain ⟨-, hop, -, -, -, rfl⟩ :=
        Frame.resume_law (hinv.valid t caller (by simp [hstack])) hchain.1 hresume
      have hevent : ∀ op, (if f.op = .arrive then Event.returnArrive caller.node
          else .returnDepart caller.node) ≠ .respond op false := by
        intro op; split <;> simp
      simp [Thread.pendingArrived, hstack, bottomOp_replaceTop rest hop, hevent]

/-- A step of thread `t` moves its client's count exactly as its completed
`Arrive`s minus completed `Depart`s move. -/
theorem pendingArrived_step (hw : w.WellShaped nodes) (hv : v ≠ .fullContention)
    (hinv : Invariant v w nodes s) {choice : Choice} {e : Event}
    (hstep : step v w s t choice = some (s', e)) :
    (s'.threads t).pendingArrived + (if e = .respond .depart false then 1 else 0) =
      (s.threads t).pendingArrived + (if e = .respond .arrive false then 1 else 0) := by
  rcases step_eq_some hstep with ⟨op, th', hidle, hinvoke, rfl, rfl⟩ |
    ⟨f, callers, a, hstack, hact, happly⟩
  · obtain ⟨hpos, rfl⟩ := Thread.invoke_eq_some hv hinvoke
    simpa using Thread.pendingArrived_push hidle (Op.frameOn_op _ op) hpos
  · exact pendingArrived_apply hinv hstack (hinv.law hw hstack hact) happly

/-- Along every trace of the no- and semi-contention classes, each thread's
completed `Arrive`s minus completed `Depart`s is its client's count with the
`Depart` in flight added back. -/
theorem completed_count (hw : w.WellShaped nodes) (hv : v ≠ .fullContention)
    {trace : List (τ × Event)} {s : State τ} (hreach : Reach v w trace s) (t : τ) :
    (completed trace t .arrive : Int) - completed trace t .depart =
      (s.threads t).pendingArrived := by
  induction hreach with
  | init => simp [completed, Thread.pendingArrived, State.init]
  | @step trace s s' u choice e hreach' hstep ih =>
    simp only [completed_snoc, Nat.cast_add]
    by_cases hut : u = t
    · subst hut
      have := pendingArrived_step hw hv (Invariant.reach hw hv hreach') hstep
      split <;> split <;> simp_all <;> omega
    · have hother : s'.threads t = s.threads t := step_other hstep (Ne.symm hut)
      simp [hut, hother, ih]

end Snzi.Machine
