import Snzi.Machine.DirectPath
import Snzi.Machine.Solo
import Snzi.Machine.WaitFree

/-!
# No switch to the tree without contention

The full-contention class sends a thread to the tree once one of its
`ArriveDirectly` calls has failed its `compare_exchange_weak`
`MaxContentionNumFailures` times.  An exchange fails only when another thread has
written the root counter since the load, or spuriously.  So the switch needs
contention: a thread whose only company is readers (threads that only `Query`)
keeps every flag of its `contention_status` clear along every run without a
spurious failure, and every one of its `ArriveDirectly` calls succeeds at its
first exchange.

`LoneWriter` is what such a run keeps: the writer's status is clear, and its stack
is at most one frame that has failed no exchange and, about to exchange, holds the
root counter's value; the readers' stacks hold `Query` frames only, which write
nothing.
-/

namespace Snzi.Machine

variable {τ : Type}

/-- A frame of the writer on the direct path that has met no contention, with the
root counter at `x`: no exchange of it has failed, and the value it is about to
exchange is the counter's. -/
def Frame.Uncontended (x : Int) : Frame → Prop
  | .arriveDirectly .start _ k | .arriveDirectly .done _ k => k = 0
  | .arriveDirectly .cas oldx k => k = 0 ∧ oldx = x
  | .departDirectly _ | .rootQuery _ => True
  | _ => False

/-- What the step of an uncontended frame does: the frame left in its place is
uncontended at the root counter the step leaves, and only the root counter is
written. -/
def Action.Uncontended (X : Nat → Int) : Action → Prop
  | .set f' => f'.Uncontended (X 0)
  | .write n value f' => n = 0 ∧ f'.Uncontended value
  | .ret => True
  | .flag .. | .call .. => False

section Frames

variable {parent : Nat → Nat} {X : Nat → Int} {announce : Nat → Bool} {f : Frame} {a : Action}

theorem Frame.step_uncontended (hf : f.Uncontended (X 0))
    (h : f.step .fullContention parent X announce = some a) : a.Uncontended X := by
  cases f with
  | arriveDirectly pc oldx k =>
    cases pc <;> simp only [Frame.Uncontended] at hf
    · cases h; exact ⟨hf, rfl⟩
    · obtain ⟨rfl, rfl⟩ := hf
      cases h
      simp [casStep, Action.Uncontended, Frame.Uncontended]
    · cases h; trivial
  | departDirectly b => cases b <;> cases h <;> trivial
  | rootQuery r => cases r <;> cases h <;> trivial
  | _ => exact hf.elim

/-- An uncontended frame returns without touching a clear status: its
`ArriveDirectly` failed fewer than `MaxContentionNumFailures` times, and
`DepartDirectly` finds `use_snzi_tree_flag` clear. -/
theorem Frame.Uncontended.finish_status {x : Int} (hf : f.Uncontended x) {th : Thread}
    (hclear : th.status = {}) : (th.finish f).status = {} := by
  cases f with
  | arriveDirectly pc oldx k =>
    have hk : k = 0 := by cases pc <;> simp_all [Frame.Uncontended]
    simp [Thread.finish, hk, maxContentionNumFailures, hclear]
  | departDirectly b => simp [Thread.finish, hclear]
  | rootQuery r => exact hclear
  | _ => exact hf.elim

/-- A `Query` frame loads the root counter and returns: it writes nothing and
leaves a `Query` frame or nothing. -/
theorem Frame.step_query {v : Variant} (hq : f.op = .query)
    (h : f.step v parent X announce = some a) : a = .ret ∨ ∃ f', a = .set f' ∧ f'.op = .query := by
  cases f <;> simp only [Frame.op, reduceCtorEq] at hq
  rename_i r
  cases r <;> cases h
  · exact .inr ⟨_, rfl, rfl⟩
  · exact .inl rfl

end Frames

/-- What a run keeps in which thread `t` writes alone among readers. -/
structure LoneWriter (t : τ) (s : State τ) : Prop where
  status : (s.threads t).status = {}
  single : (s.threads t).stack.length ≤ 1
  writer : ∀ f ∈ (s.threads t).stack, f.Uncontended (s.X 0)
  readers : ∀ u, u ≠ t → ∀ f ∈ (s.threads u).stack, f.op = .query

theorem LoneWriter.init (t : τ) : LoneWriter t (State.init τ) :=
  ⟨rfl, by simp [State.init], by simp [State.init], fun _ _ => by simp [State.init]⟩

section Runs

variable [DecidableEq τ] {w : Wiring τ} {t u : τ} {s s' : State τ} {c : Choice} {e : Event}

/-- A reader's step writes nothing and leaves it a reader. -/
theorem reader_step {v : Variant} (hread : ∀ f ∈ (s.threads u).stack, f.op = .query)
    (hstep : step v w s u c = some (s', e)) (hc : c = .run ∨ c = .invoke .query) :
    s'.X = s.X ∧ ∀ f ∈ (s'.threads u).stack, f.op = .query := by
  rcases hc with rfl | rfl
  · obtain ⟨f, callers, a, hstack, hf, happly⟩ := step_run_eq_some hstep
    rcases Frame.step_query (hread f (by simp [hstack])) hf with rfl | ⟨f', rfl, hq⟩
    · cases callers with
      | nil =>
        simp only [State.apply, Option.some.injEq, Prod.mk.injEq] at happly
        obtain ⟨rfl, -⟩ := happly
        simp
      | cons caller rest =>
        have hcaller : caller.op = .query := hread caller (by simp [hstack])
        have : caller.resume = none := by
          cases caller <;> simp_all [Frame.op, Frame.resume]
        simp [State.apply, this] at happly
    · simp only [State.apply, Option.some.injEq, Prod.mk.injEq] at happly
      obtain ⟨rfl, -⟩ := happly
      simp only [State.setThread_threads, Function.update_same, State.setThread_X, true_and]
      intro g hg
      rcases List.mem_cons.mp hg with rfl | hg
      · exact hq
      · exact hread g (by simp [hstack, hg])
  · obtain ⟨-, th', hth', rfl, -⟩ := step_invoke_eq_some hstep
    cases hth'
    simp [Frame.op]

/-- The writer's own step, other than a spurious failure, keeps it uncontended. -/
theorem LoneWriter.writer_step (hinv : LoneWriter t s)
    (hstep : step .fullContention w s t c = some (s', e)) (hc : c ≠ .spurious) :
    (s'.threads t).status = {} ∧ (s'.threads t).stack.length ≤ 1 ∧
      ∀ f ∈ (s'.threads t).stack, f.Uncontended (s'.X 0) := by
  have hstatus := hinv.status
  cases c with
  | invoke op =>
    obtain ⟨-, th', hth', rfl, -⟩ := step_invoke_eq_some hstep
    cases op <;> simp only [Thread.invoke, hstatus, and_self, if_true] at hth' <;>
      (try split at hth') <;> cases hth' <;> simp [hstatus, Frame.Uncontended]
  | run =>
    obtain ⟨f, callers, a, hstack, hf, happly⟩ := step_run_eq_some hstep
    obtain rfl : callers = [] := by simpa [hstack] using hinv.single
    have hfree := hinv.writer f (by simp [hstack])
    have ha := Frame.step_uncontended hfree hf
    cases a with
    | set f' =>
      simp only [State.apply, Option.some.injEq, Prod.mk.injEq] at happly
      obtain ⟨rfl, -⟩ := happly
      exact ⟨by simpa using hstatus, by simp, by simpa using ha⟩
    | write n value f' =>
      obtain ⟨rfl, ha⟩ := ha
      simp only [State.apply, Option.some.injEq, Prod.mk.injEq] at happly
      obtain ⟨rfl, -⟩ := happly
      exact ⟨by simpa using hstatus, by simp, by simpa using ha⟩
    | ret =>
      simp only [State.apply, Option.some.injEq, Prod.mk.injEq] at happly
      obtain ⟨rfl, -⟩ := happly
      exact ⟨by simpa using hfree.finish_status hstatus, by simp, by simp⟩
    | flag | call => exact ha.elim
  | spurious => exact absurd rfl hc

/-- One step of the run, by the writer or by a reader, keeps `LoneWriter`. -/
theorem LoneWriter.step (hinv : LoneWriter t s) (hstep : step .fullContention w s u c = some (s', e))
    (hc : c ≠ .spurious) (hreader : u ≠ t → c = .run ∨ c = .invoke .query) : LoneWriter t s' := by
  by_cases hu : u = t
  · subst u
    obtain ⟨hstatus, hsingle, hwriter⟩ := hinv.writer_step hstep hc
    exact ⟨hstatus, hsingle, hwriter, fun u hu => step_other hstep hu ▸ hinv.readers u hu⟩
  · have ht : s'.threads t = s.threads t := step_other hstep (Ne.symm hu)
    obtain ⟨hX, hread⟩ := reader_step (hinv.readers u hu) hstep (hreader hu)
    refine ⟨ht ▸ hinv.status, ht ▸ hinv.single, by rw [ht, hX]; exact hinv.writer, fun u' hu' => ?_⟩
    by_cases hu'u : u' = u
    · subst u'; exact hread
    · rw [step_other hstep hu'u]
      exact hinv.readers u' hu'

/-- Along every run without a spurious failure in which every thread but `t` only
queries, `LoneWriter` holds throughout. -/
theorem runSchedule_loneWriter : ∀ (schedule : List (τ × Choice)) {s s' : State τ}
    {trace' : List (τ × Event)}, LoneWriter t s → (∀ p ∈ schedule, p.2 ≠ .spurious) →
    (∀ p ∈ schedule, p.1 ≠ t → p.2 = .run ∨ p.2 = .invoke .query) →
    runSchedule .fullContention w s schedule = some (trace', s') → LoneWriter t s'
  | [], _, _, _, hinv, _, _, hrun => by
    simp only [runSchedule, Option.some.injEq, Prod.mk.injEq] at hrun
    exact hrun.2 ▸ hinv
  | (u, c) :: rest, _, _, _, hinv, hspur, hreaders, hrun => by
    simp only [runSchedule, Option.bind_eq_some, Option.map_eq_some'] at hrun
    obtain ⟨⟨s₁, e⟩, hstep, ⟨trace₁, s''⟩, hrest, hpair⟩ := hrun
    simp only [Prod.mk.injEq] at hpair
    obtain ⟨-, rfl⟩ := hpair
    have hinv₁ := hinv.step hstep (hspur (u, c) (by simp)) (hreaders (u, c) (by simp))
    exact runSchedule_loneWriter rest hinv₁ (fun p hp => hspur p (by simp [hp]))
      (fun p hp => hreaders p (by simp [hp])) hrest

end Runs

/-- In the full-contention class, the switch to the tree needs contention: along
every run from the initial state in which no `compare_exchange_weak` fails
spuriously and every thread but `t` only queries, thread `t` keeps every flag of
its `contention_status` clear, so each of its operations takes the direct path, and
no exchange of its `ArriveDirectly` has failed. -/
theorem uncontended_stays_direct [DecidableEq τ] (w : Wiring τ) (t : τ)
    (schedule : List (τ × Choice)) (trace' : List (τ × Event)) (s' : State τ)
    (hspur : ∀ p ∈ schedule, p.2 ≠ .spurious)
    (hreaders : ∀ p ∈ schedule, p.1 ≠ t → p.2 = .run ∨ p.2 = .invoke .query)
    (hrun : runSchedule .fullContention w (State.init τ) schedule = some (trace', s')) :
    (s'.threads t).status = {} ∧ ∀ f ∈ (s'.threads t).stack, f.Uncontended (s'.X 0) := by
  have hinv := runSchedule_loneWriter schedule (LoneWriter.init t) hspur hreaders hrun
  exact ⟨hinv.status, hinv.writer⟩

open Snzi.Tree in
/-- `uncontended_stays_direct` for thread `0` running an `Arrive` and a `Depart`
while thread `1` queries between the load and the exchange of `ArriveDirectly`. -/
theorem uncontended_stays_direct_reader :
    ∃ trace' s', runSchedule .fullContention
        (Shape.wiring ⟨2#64, 3#64, 2#64, 2#64, 4#64⟩ fun t : Fin 2 => BitVec.ofNat 64 t.val)
        (State.init (Fin 2))
        [(0, .invoke .arrive), (0, .run), (1, .invoke .query), (1, .run), (0, .run), (1, .run),
         (0, .run), (0, .invoke .depart), (0, .run), (0, .run)] = some (trace', s') ∧
      (s'.threads 0).status = {} ∧ ∀ f ∈ (s'.threads 0).stack, f.Uncontended (s'.X 0) := by
  have hcheck : (runSchedule .fullContention
      (Shape.wiring ⟨2#64, 3#64, 2#64, 2#64, 4#64⟩ fun t : Fin 2 => BitVec.ofNat 64 t.val)
      (State.init (Fin 2))
      [(0, .invoke .arrive), (0, .run), (1, .invoke .query), (1, .run), (0, .run), (1, .run),
       (0, .run), (0, .invoke .depart), (0, .run), (0, .run)]).isSome = true := by
    decide
  obtain ⟨⟨trace', s'⟩, hrun⟩ := Option.isSome_iff_exists.mp hcheck
  exact ⟨trace', s', hrun,
    uncontended_stays_direct _ 0 _ trace' s' (by decide) (by decide) hrun⟩

end Snzi.Machine
