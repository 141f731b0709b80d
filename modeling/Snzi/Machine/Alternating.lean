import Snzi.Machine.DirectPath

/-!
# The full-contention class for clients that alternate `Arrive` and `Depart`

A thread of the full-contention class runs its `Arrive`s and `Depart`s on the root
(`ArriveDirectly`, `DepartDirectly`) until a `DepartDirectly` finds
`use_snzi_tree_flag` set and moves it to its leaf for good.  A completed `Arrive`
leaves its share where it ran, so the move is sound exactly when the thread holds
no `Arrive` at that moment.  The run of `escalation_query_true` moves while one is
still held, and its last `Depart` then takes that `Arrive` from the leaf.

A client that alternates `Arrive` and `Depart` on each thread (`Alternating`) never
holds two `Arrive`s, so the `DepartDirectly` that moves a thread gives up the only
one it had.  Every thread then has a home, the node its operations land on: the
root before the move and its leaf after it (`Wiring.homed`).  The presence
invariant holds over the homes at every reachable state (`AlternatingInvariant`),
and from it, as in the other classes, every history is linearizable, no counter
goes below zero, and a `Query` at a quiescent state answers by the completed
operations.
-/

namespace Snzi.Machine

variable {τ : Type}

/-! ### The client -/

/-- How many operations `op` thread `t` has invoked along a trace. -/
def invoked [DecidableEq τ] (trace : List (τ × Event)) (t : τ) (op : Op) : Nat :=
  trace.count (t, .invoke op)

@[simp] theorem invoked_snoc [DecidableEq τ] (trace : List (τ × Event)) (u t : τ) (e : Event)
    (op : Op) :
    invoked (trace ++ [(u, e)]) t op =
      invoked trace t op + if u = t ∧ e = .invoke op then 1 else 0 := by
  simp [invoked, List.count_cons, Prod.ext_iff]

/-- A client that alternates `Arrive` and `Depart` on each thread: a thread invokes an
`Arrive` only once it has invoked a `Depart` for every `Arrive` it completed. -/
def Alternating [DecidableEq τ] (trace : List (τ × Event)) : Prop :=
  ∀ pre t, pre ++ [(t, Event.invoke .arrive)] <+: trace →
    completed pre t .arrive = invoked pre t .depart

theorem Alternating.of_snoc [DecidableEq τ] {trace : List (τ × Event)} {p : τ × Event}
    (h : Alternating (trace ++ [p])) : Alternating trace :=
  fun pre t hpre => h pre t (hpre.trans (List.prefix_append _ _))

/-! ### Homes -/

/-- The node thread `t`'s `Arrive`s and `Depart`s land on: its leaf once its status
has moved it to the tree, the root while it runs the direct path. -/
def Wiring.homed (w : Wiring τ) (s : State τ) : Wiring τ where
  parent := w.parent
  leaf t := if (s.threads t).status.useSnziInArrive then w.leaf t else 0

theorem Wiring.homed_wellShaped {w : Wiring τ} {nodes : Nat} (hw : w.WellShaped nodes)
    (s : State τ) : (w.homed s).WellShaped nodes where
  root_lt := hw.root_lt
  parent_lt := hw.parent_lt
  leaf_lt t := by
    simp only [Wiring.homed]
    split
    exacts [hw.leaf_lt t, hw.root_lt]

theorem Wiring.homed_congr (w : Wiring τ) (s s' : State τ)
    (h : ∀ u, (s'.threads u).status = (s.threads u).status) : w.homed s' = w.homed s := by
  simp only [Wiring.homed, h]

/-- Moving the home of threads that are idle and hold nothing keeps the presence
invariant. -/
theorem Invariant.rehome [Fintype τ] {v : Variant} {w w' : Wiring τ} {nodes : Nat}
    {s : State τ} (hinv : Invariant v w nodes s) (hparent : w'.parent = w.parent)
    (hleaf : ∀ u, w'.leaf u ≠ w.leaf u → (s.threads u).stack = [] ∧ (s.threads u).arrived = 0) :
    Invariant v w' nodes s := by
  have hweight : ∀ u n, (s.threads u).weight w.parent (w'.leaf u) n =
      (s.threads u).weight w.parent (w.leaf u) n := by
    intro u n
    by_cases h : w'.leaf u = w.leaf u
    · rw [h]
    · simp [Thread.weight, hleaf u h]
  refine ⟨fun n hn => ?_, hinv.valid, fun u => ?_⟩
  · have hpres := hinv.presence n hn
    unfold State.Presence at hpres ⊢
    simpa only [hparent, hweight] using hpres
  · rw [hparent]
    by_cases h : w'.leaf u = w.leaf u
    · exact h ▸ hinv.chain u
    · rw [(hleaf u h).1]; trivial

/-- The `Arrive`s a thread holds: those it completed and has not given up to a
`Depart`, and the operation in flight when that is an `Arrive` or a `Depart`. -/
def Thread.held (th : Thread) : Nat :=
  th.arrived + if bottomOp th.stack = some .arrive ∨ bottomOp th.stack = some .depart then 1 else 0

/-! ### What a step does to its thread -/

/-- In the full-contention class an invocation pushes a fresh frame on the thread's
home: `ArriveDirectly` or `DepartDirectly` on the root before the move, the leaf's
frame after it. -/
theorem Thread.invoke_full {nodes leaf : Nat} {th th' : Thread} {op : Op}
    (hc : th.status.Consistent) (hleaf : leaf < nodes)
    (h : th.invoke .fullContention leaf op = some th') :
    (op = .depart → 0 < th.arrived) ∧
      ∃ f, f.Fresh .fullContention nodes (if th.status.useSnziInArrive then leaf else 0) op ∧
        th' = { th with
          stack := [f]
          arrived := if op = .depart then th.arrived - 1 else th.arrived } := by
  obtain ⟨hsame, -⟩ := hc
  cases htree : th.status.useSnziInArrive with
  | false =>
    have hdirect : th.status.useSnziInDepart = false := hsame ▸ htree
    cases op <;> simp only [Thread.invoke, htree, hdirect, and_self, if_true] at h
    case depart =>
      split at h
      · cases h
      · cases h
        exact ⟨fun _ => Nat.pos_of_ne_zero ‹_›, .departDirectly false,
          ⟨rfl, .inr rfl, rfl, rfl, rfl, nofun⟩, rfl⟩
    all_goals cases h
    · exact ⟨nofun, .arriveDirectly .start 0 0, ⟨rfl, .inr rfl, rfl, rfl, rfl, nofun⟩, rfl⟩
    · exact ⟨nofun, .rootQuery none, ⟨rfl, .inl rfl, rfl, rfl, trivial, fun _ => rfl⟩, rfl⟩
  | true =>
    have hsemi : th.invoke .fullContention leaf op = th.invoke .semiContention leaf op := by
      cases op <;> simp [Thread.invoke, htree, ← hsame]
    obtain ⟨hpos, rfl⟩ := Thread.invoke_eq_some (by decide) (hsemi ▸ h)
    exact ⟨hpos, _, Op.frameOn_fresh _ hleaf op, rfl⟩

/-- Returning its outermost frame moves a thread's home only from `DepartDirectly`. -/
theorem Thread.finish_useSnziInArrive (th : Thread) (f : Frame) :
    (th.finish f).status.useSnziInArrive = th.status.useSnziInArrive ∨ f.op = .depart := by
  cases f with
  | departDirectly => exact .inr rfl
  | arriveDirectly => left; simp only [Thread.finish]; split <;> rfl
  | _ => exact .inl rfl

section Apply

variable [Fintype τ] [DecidableEq τ] {v : Variant} {w : Wiring τ} {nodes : Nat}
  {s s' : State τ} {t : τ}

/-- What a step of a frame does to its thread: it changes only the stack, keeping the
operation in flight and emitting no client event, or it returns the outermost frame
with its response. -/
theorem State.apply_cases (hinv : Invariant v w nodes s) {f : Frame} {callers : List Frame}
    {a : Action} {e : Event} (hstack : (s.threads t).stack = f :: callers)
    (hlaw : a.Law v w.parent nodes s.X f) (happly : s.apply t f callers a = some (s', e)) :
    (∃ l, s'.threads t = { s.threads t with stack := l } ∧ bottomOp l = bottomOp (f :: callers) ∧
        e.isClient = false) ∨
      callers = [] ∧ s'.threads t = (s.threads t).finish f ∧ e = .respond f.op f.result := by
  cases a with
  | set f' | flag _ _ f' =>
    simp only [State.apply, Option.some.injEq, Prod.mk.injEq] at happly
    obtain ⟨rfl, rfl⟩ := happly
    exact .inl ⟨f' :: callers, by simp, bottomOp_replaceTop callers hlaw.2.1, rfl⟩
  | write m value f' =>
    simp only [State.apply, Option.some.injEq, Prod.mk.injEq] at happly
    obtain ⟨rfl, rfl⟩ := happly
    exact .inl ⟨f' :: callers, by simp, bottomOp_replaceTop callers hlaw.2.2.1, rfl⟩
  | call caller callee =>
    simp only [State.apply, Option.some.injEq, Prod.mk.injEq] at happly
    obtain ⟨rfl, rfl⟩ := happly
    exact .inl ⟨callee :: caller :: callers, by simp,
      by rw [bottomOp_cons_cons, bottomOp_replaceTop callers hlaw.2.1],
      callEvent_isClient _ _⟩
  | ret =>
    cases callers with
    | nil =>
      simp only [State.apply, Option.some.injEq, Prod.mk.injEq] at happly
      obtain ⟨rfl, rfl⟩ := happly
      exact .inr ⟨rfl, by simp, rfl⟩
    | cons caller rest =>
      simp only [State.apply, Option.map_eq_some', Prod.exists, Prod.mk.injEq] at happly
      obtain ⟨f', e', hresume, rfl, rfl⟩ := happly
      have hchain : Chain w.parent (w.leaf t) (f :: caller :: rest) := hstack ▸ hinv.chain t
      obtain ⟨-, hop, -, -, -, rfl⟩ :=
        Frame.resume_law (hinv.valid t caller (by simp [hstack])) hchain.1 hresume
      exact .inl ⟨f' :: rest, by simp, by rw [bottomOp_cons_cons, bottomOp_replaceTop rest hop],
        by split <;> rfl⟩

end Apply

/-! ### The invariant -/

section Invariant

variable [DecidableEq τ] {trace : List (τ × Event)} {t u : τ}

/-- What the invariant says of one thread: its status is one of the three values, it
holds at most one `Arrive`, and its client count is what the trace says. -/
structure ThreadInvariant (trace : List (τ × Event)) (t : τ) (th : Thread) : Prop where
  status : th.status.Consistent
  held : th.held ≤ 1
  arrived : th.arrived + invoked trace t .depart = completed trace t .arrive
  pending : (completed trace t .arrive : Int) - completed trace t .depart = th.pendingArrived

/-- A step of another thread leaves what the invariant says of a thread. -/
theorem ThreadInvariant.snoc_other {th : Thread} (h : ThreadInvariant trace u th) (hu : t ≠ u)
    (e : Event) : ThreadInvariant (trace ++ [(t, e)]) u th where
  status := h.status
  held := h.held
  arrived := by simpa [hu] using h.arrived
  pending := by simpa [hu] using h.pending

variable [Fintype τ] {w : Wiring τ} {nodes : Nat} {s s' : State τ}

/-- The invariant of the alternating runs of the full-contention class: the presence
invariant over the homes, and the invariant of every thread. -/
structure AlternatingInvariant (w : Wiring τ) (nodes : Nat) (trace : List (τ × Event))
    (s : State τ) : Prop where
  presence : Invariant .fullContention (w.homed s) nodes s
  threads : ∀ t, ThreadInvariant trace t (s.threads t)

theorem AlternatingInvariant.init : AlternatingInvariant w nodes [] (State.init τ) where
  presence := Invariant.init
  threads _ := ⟨by simp [State.init, ContentionStatus.Consistent], by simp [State.init, Thread.held],
    by simp [State.init, invoked, completed],
    by simp [State.init, completed, Thread.pendingArrived]⟩

/-- A state that differs from an invariant one only in thread `t`, with the event of
thread `t` appended to the trace, keeps the invariant when the presence invariant
holds over its homes and thread `t` keeps its part. -/
theorem AlternatingInvariant.update (hinv : AlternatingInvariant w nodes trace s) {e : Event}
    (hother : ∀ u, u ≠ t → s'.threads u = s.threads u)
    (hpresence : Invariant .fullContention (w.homed s') nodes s')
    (hthread : ThreadInvariant (trace ++ [(t, e)]) t (s'.threads t)) :
    AlternatingInvariant w nodes (trace ++ [(t, e)]) s' where
  presence := hpresence
  threads u := by
    rcases eq_or_ne u t with rfl | hu
    · exact hthread
    · exact hother u hu ▸ (hinv.threads u).snoc_other hu.symm e

/-- An invocation keeps the invariant, provided an `Arrive` is invoked only by a thread
that holds none. -/
theorem AlternatingInvariant.invoke (hw : w.WellShaped nodes)
    (hinv : AlternatingInvariant w nodes trace s) {op : Op} {th' : Thread}
    (hidle : (s.threads t).stack = [])
    (hinvoke : (s.threads t).invoke .fullContention (w.leaf t) op = some th')
    (halt : Alternating (trace ++ [(t, .invoke op)])) :
    AlternatingInvariant w nodes (trace ++ [(t, .invoke op)]) (s.setThread t th') := by
  have hth := hinv.threads t
  obtain ⟨hpos, f, hf, rfl⟩ := Thread.invoke_full hth.status (hw.leaf_lt t) hinvoke
  have hfree : op = .arrive → (s.threads t).arrived = 0 := by
    rintro rfl
    have := halt trace t (List.prefix_refl _)
    have := hth.arrived
    omega
  have hheld := hth.held
  simp only [Thread.held, hidle, bottomOp_nil] at hheld
  refine hinv.update (fun u hu => by simp [hu]) ?_ ?_
  · rw [Wiring.homed_congr w s _ fun u => ?_]
    · exact hinv.presence.push hidle hf hpos
    · by_cases hu : u = t
      · subst hu; simp
      · simp [hu]
  · simp only [State.setThread_threads, Function.update_same]
    refine ⟨hth.status, ?_, ?_, ?_⟩
    · simp only [Thread.held, bottomOp_singleton, hf.op_eq]
      cases op <;> simp at hpos hfree ⊢ <;> omega
    · have := hth.arrived
      cases op <;> simp at hpos ⊢ <;> omega
    · simpa [Thread.pendingArrived_push hidle hf.op_eq hpos] using hth.pending

/-- A step of a frame keeps the invariant.  The one that returns a `DepartDirectly`
may move its thread to the tree; the thread then holds nothing. -/
theorem AlternatingInvariant.apply (hw : w.WellShaped nodes)
    (hinv : AlternatingInvariant w nodes trace s) {f : Frame} {callers : List Frame} {a : Action}
    {e : Event} (hstack : (s.threads t).stack = f :: callers)
    (hact : f.step .fullContention w.parent s.X s.announce = some a ∨
      f.spuriousStep .fullContention s.X = some a)
    (happly : s.apply t f callers a = some (s', e)) :
    AlternatingInvariant w nodes (trace ++ [(t, e)]) s' := by
  have hw' := Wiring.homed_wellShaped hw s
  have hlaw := hinv.presence.law hw' hstack hact
  have hpres := hinv.presence.apply hw' hstack hlaw happly
  have hth := hinv.threads t
  have hother : ∀ u, u ≠ t → s'.threads u = s.threads u := fun u hu => State.apply_other happly hu
  rcases State.apply_cases hinv.presence hstack hlaw happly with
    ⟨l, hl, hbottom, hclient⟩ | ⟨rfl, hfinish, rfl⟩
  · -- the operation stays in flight
    have hstatus : ∀ u, (s'.threads u).status = (s.threads u).status := fun u => by
      rcases eq_or_ne u t with rfl | hu
      · rw [hl]
      · rw [hother u hu]
    refine hinv.update hother (Wiring.homed_congr w s s' hstatus ▸ hpres) ?_
    have hinvoke : ∀ op, e ≠ .invoke op := fun op h => by simp [h, Event.isClient] at hclient
    have hrespond : ∀ op b, e ≠ .respond op b := fun op b h => by
      simp [h, Event.isClient] at hclient
    rw [hl]
    exact ⟨hth.status, by simpa [Thread.held, hbottom, hstack] using hth.held,
      by simpa [hinvoke, hrespond] using hth.arrived,
      by simpa [Thread.pendingArrived, hrespond, hbottom, hstack] using hth.pending⟩
  · -- the outermost frame returns
    have hone : bottomOp (s.threads t).stack = some f.op := by rw [hstack]; rfl
    have hheld := hth.held
    simp only [Thread.held, hone] at hheld
    refine hinv.update hother (hpres.rehome rfl fun u hu => ?_) ?_
    · rcases eq_or_ne u t with rfl | hne
      · have hdepart : f.op = .depart :=
          (Thread.finish_useSnziInArrive (s.threads u) f).resolve_left fun heq =>
            hu (by simp only [Wiring.homed, hfinish, heq])
        simp only [hdepart, Option.some.injEq, or_true, if_true] at hheld
        simp [hfinish, hdepart]
        omega
      · exact absurd (by simp only [Wiring.homed, hother u hne]) hu
    · have hresult : f.op = .arrive → f.result = false := fun h =>
        Frame.result_of_ne_query (by simp [h])
      have harrived := hth.arrived
      have hpending := hth.pending
      rw [hfinish]
      refine ⟨((Thread.finish_next _ f).consistent hth.status).1, ?_, ?_, ?_⟩
      · simp only [Thread.held, Thread.finish_stack, Thread.finish_arrived, bottomOp_nil]
        cases hop : f.op <;> simp_all
      · cases hop : f.op <;> simp_all
        omega
      · have hres : f.op ≠ .query → f.result = false := Frame.result_of_ne_query
        simp only [Thread.pendingArrived, Thread.finish_stack, Thread.finish_arrived, bottomOp_nil,
          hone, completed_snoc, true_and, Event.respond.injEq, Option.some.injEq] at hpending ⊢
        cases hop : f.op <;>
          simp only [hop, hres, ne_eq, reduceCtorEq, not_false_eq_true, and_true, and_false,
            if_true, if_false, Nat.cast_add, Nat.cast_one, Nat.cast_zero, add_zero] at hpending ⊢ <;>
          omega

/-- Every step of the full-contention class keeps the invariant, provided the client
alternates. -/
theorem AlternatingInvariant.step (hw : w.WellShaped nodes)
    (hinv : AlternatingInvariant w nodes trace s) {choice : Choice} {e : Event}
    (hstep : step .fullContention w s t choice = some (s', e))
    (halt : Alternating (trace ++ [(t, e)])) :
    AlternatingInvariant w nodes (trace ++ [(t, e)]) s' := by
  rcases step_eq_some hstep with ⟨op, th', hidle, hinvoke, rfl, rfl⟩ |
    ⟨f, callers, a, hstack, hact, happly⟩
  · exact hinv.invoke hw hidle hinvoke halt
  · exact hinv.apply hw hstack hact happly

/-- Every reachable state of an alternating run of the full-contention class
satisfies the invariant. -/
theorem AlternatingInvariant.reach (hw : w.WellShaped nodes)
    (hreach : Reach .fullContention w trace s) (halt : Alternating trace) :
    AlternatingInvariant w nodes trace s := by
  induction hreach with
  | init => exact .init
  | step _ hstep ih => exact (ih halt.of_snoc).step hw hstep halt

/-- Every step of an alternating run moves its thread as `Move` allows, with a
`Query` taking effect now answering whether the root is non-zero. -/
theorem step_move_alternating (hw : w.WellShaped nodes)
    (hinv : AlternatingInvariant w nodes trace s) {choice : Choice} {e : Event}
    (hstep : step .fullContention w s t choice = some (s', e)) :
    Move (decide (s.X 0 ≠ 0)) (stackPosition (s.threads t).stack)
      (stackPosition (s'.threads t).stack) e (s.threads t).stake (s'.threads t).stake := by
  rcases step_eq_some hstep with ⟨op, th', hidle, hinvoke, rfl, rfl⟩ |
    ⟨f, callers, a, hstack, hact, happly⟩
  · obtain ⟨hpos, f, hf, rfl⟩ := Thread.invoke_full (hinv.threads t).status (hw.leaf_lt t) hinvoke
    simp only [State.setThread_threads, Function.update_same]
    exact hf.move hidle hpos
  · exact frame_move (Wiring.homed_wellShaped hw s) hinv.presence hstack hact happly

/-- Every reachable trace of an alternating client of the full-contention class has a
linearization in which every thread stands where its stack does, and whose
sequential run ends at the surplus. -/
theorem linearization_of_alternating (hw : w.WellShaped nodes)
    (hreach : Reach .fullContention w trace s) (halt : Alternating trace) :
    ∃ L : List (τ × Mark), erase L = history trace ∧
      (∀ t, position L t = some (stackPosition (s.threads t).stack)) ∧
      seqRun L = some s.surplus := by
  induction hreach with
  | init => exact ⟨[], rfl, fun _ => rfl, by simp [seqRun, State.surplus, Thread.stake, State.init]⟩
  | @step trace s s' t choice e hreach' hstep ih =>
    obtain ⟨L, herase, hpos, hrun⟩ := ih halt.of_snoc
    have hinv := AlternatingInvariant.reach hw hreach' halt.of_snoc
    have hanswer : decide (s.X 0 ≠ 0) = decide (0 < s.surplus) :=
      decide_eq_decide.mpr (hinv.presence.root_iff_surplus (Wiring.homed_wellShaped hw s))
    exact linearization_snoc herase hpos hrun (hanswer ▸ step_move_alternating hw hinv hstep)
      fun u hu => step_other hstep hu

end Invariant

open Snzi.Tree in
/-- In the full-contention class, over every constructed tree with `K ≥ 2` and
`K^(H+1) < 2^64`, for every assignment of `tid`s to threads and every interleaving of
the atomic steps (spurious failures of the weak exchanges included), whenever the
client alternates `Arrive` and `Depart` on each thread: the history is linearizable
to the sequential nonzero indicator, no counter goes below zero, and at a quiescent
state a `Query` returns `true` exactly when the threads have completed more
`Arrive`s than `Depart`s. -/
theorem alternating_history_linearizable (ceilQuotient : SizeType → SizeType → SizeType)
    (allocates : SizeType → Bool) (K H T : SizeType) (hK : 2 ≤ K.toNat)
    (hfit : K.toNat ^ (H.toNat + 1) < 2 ^ 64) (shape : Shape)
    (hshape : construct ceilQuotient allocates K H T = .returned shape) :
    ∀ {τ : Type} [Fintype τ] [DecidableEq τ] (tidOf : τ → SizeType)
      (trace : List (τ × Event)) (s : State τ),
        Reach .fullContention (shape.wiring tidOf) trace s → Alternating trace →
        Linearizable (history trace) ∧ (∀ n < shape.totalNodes.toNat, 0 ≤ s.X n) ∧
        (s.Quiescent → ∀ t, (s.threads t).stack = [] →
          (runSchedule .fullContention (shape.wiring tidOf) s
            [(t, .invoke .query), (t, .run), (t, .run)]).map Prod.fst =
            some [(t, .invoke .query), (t, .internal), (t, .respond .query
              (decide (∑ u, completed trace u .depart < ∑ u, completed trace u .arrive)))]) := by
  obtain ⟨-, hwired⟩ := construct_wellShaped ceilQuotient allocates K H T hK hfit shape hshape
  refine fun tidOf trace s hreach halt => ?_
  have hw := (hwired tidOf).1
  have hinv := AlternatingInvariant.reach hw hreach halt
  obtain ⟨L, herase, hpos, hrun⟩ := linearization_of_alternating hw hreach halt
  exact ⟨⟨L, herase, fun t => by simp [hpos t], by simp [hrun]⟩,
    fun n hn => hinv.presence.X_nonneg hn, fun hq t hidle =>
      State.quiescent_query hq (fun u => (hinv.threads u).pending)
        (hinv.presence.root_iff_surplus (Wiring.homed_wellShaped hw s)) hidle⟩

open Snzi.Tree in
/-- `alternating_history_linearizable` for the binary tree of height one. -/
theorem alternating_history_linearizable_binary :
    ∃ shape, construct (fun _ _ => 1) (fun _ => true) 2#64 1#64 2#64 =
        .returned shape ∧
      ∀ {τ : Type} [Fintype τ] [DecidableEq τ] (tidOf : τ → SizeType)
        (trace : List (τ × Event)) (s : State τ),
          Reach .fullContention (shape.wiring tidOf) trace s → Alternating trace →
          Linearizable (history trace) ∧ (∀ n < shape.totalNodes.toNat, 0 ≤ s.X n) ∧
          (s.Quiescent → ∀ t, (s.threads t).stack = [] →
            (runSchedule .fullContention (shape.wiring tidOf) s
              [(t, .invoke .query), (t, .run), (t, .run)]).map Prod.fst =
              some [(t, .invoke .query), (t, .internal), (t, .respond .query
                (decide (∑ u, completed trace u .depart < ∑ u, completed trace u .arrive)))]) :=
  ⟨_, rfl, alternating_history_linearizable (fun _ _ => 1) (fun _ => true) 2#64 1#64 2#64
    (by decide) (by decide) _ rfl⟩

end Snzi.Machine
