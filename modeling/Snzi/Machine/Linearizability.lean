import Snzi.Machine.History
import Snzi.Machine.Indicator
import Snzi.Machine.Quiescence

/-!
# Linearizability of the no- and semi-contention classes

Each operation takes effect at one step of its thread.  A `Query` takes effect at
its load of the root.  An `Arrive` takes effect at the first step after which its
stack holds a share of some counter, and a `Depart` at the step after which its
stack holds none: that is where the surplus the root stands for goes up or down
(`Invariant.root_iff_surplus`).  An `Arrive`'s stack never gives its share back
(a compensating `Depart` runs only while the `Arrive` below it holds its
increment) and a `Depart`'s never gets one again, so each operation takes effect
once.

`step_move` says what one step of the machine does to the position of its
thread, and `linearization_of_reach` builds, step by step, a linearization of
every reachable trace whose sequential run ends at the surplus.
-/

namespace Snzi.Machine

variable {τ : Type}

/-- Where the operation on a stack stands. -/
def stackPosition (l : List Frame) : Position :=
  match bottomOp l, l with
  | none, _ => .idle
  | some .arrive, _ => if 0 < stackShare l then .linearized .arrive false else .invoked .arrive
  | some .depart, _ => if 0 < stackShare l then .invoked .depart else .linearized .depart false
  | some .query, [.rootQuery (some result)] => .linearized .query result
  | some .query, _ => .invoked .query

/-! ### Positions of stacks -/

section Positions

variable {l l' : List Frame}

theorem stackPosition_arrive (h : bottomOp l = some .arrive) :
    stackPosition l = if 0 < stackShare l then .linearized .arrive false else .invoked .arrive := by
  simp [stackPosition, h]

theorem stackPosition_depart (h : bottomOp l = some .depart) :
    stackPosition l = if 0 < stackShare l then .invoked .depart else .linearized .depart false := by
  simp [stackPosition, h]

@[simp] theorem Op.frameOn_share (leaf : Nat) (op : Op) :
    (op.frameOn leaf).share = if op = .depart then 1 else 0 := by
  simp [Frame.share]

@[simp] theorem stackPosition_frameOn (leaf : Nat) (op : Op) :
    stackPosition [op.frameOn leaf] = .invoked op := by
  cases op
  · simp [stackPosition]
  · simp [stackPosition]
  · rfl

theorem stackPosition_congr (hq : bottomOp l ≠ some .query) (hb : bottomOp l' = bottomOp l)
    (hs : stackShare l' = stackShare l) : stackPosition l' = stackPosition l := by
  rcases hbl : bottomOp l with _ | ⟨_ | _ | _⟩
  · simp [stackPosition, hb, hbl]
  · rw [stackPosition_arrive hbl, stackPosition_arrive (hb.trans hbl), hs]
  · rw [stackPosition_depart hbl, stackPosition_depart (hb.trans hbl), hs]
  · exact absurd hbl hq

/-- A step that keeps an `Arrive` or a `Depart` in flight, and the client's count,
moves the thread as its stack's share moves: an `Arrive` takes effect when the
share becomes positive, a `Depart` when it drops to zero. -/
theorem move_of_shares {answer : Bool} {op : Op} {e : Event} {k : Int} (hop : op ≠ .query)
    (hb : bottomOp l = some op) (hb' : bottomOp l' = some op) (he : e.isClient = false)
    (harr : op = .arrive → 0 < stackShare l → 0 < stackShare l')
    (hdep : op = .depart → 0 < stackShare l' → 0 < stackShare l) :
    Move answer (stackPosition l) (stackPosition l') e
      (k + if 0 < stackShare l then 1 else 0) (k + if 0 < stackShare l' then 1 else 0) := by
  cases op with
  | arrive =>
    rw [stackPosition_arrive hb, stackPosition_arrive hb']
    by_cases h : 0 < stackShare l
    · simp only [h, harr rfl h, if_true]; exact .stay _ _ _ he
    · by_cases h' : 0 < stackShare l'
      · simp only [h, h', if_true, if_false]
        exact .update _ _ _ _ (by decide) he (by simp [nziStep])
      · simp only [h, h', if_false]; exact .stay _ _ _ he
  | depart =>
    rw [stackPosition_depart hb, stackPosition_depart hb']
    by_cases h' : 0 < stackShare l'
    · simp only [h', hdep rfl h', if_true]; exact .stay _ _ _ he
    · by_cases h : 0 < stackShare l
      · simp only [h, h', if_true, if_false]
        exact .update _ _ _ _ (by decide) he (by simp [nziStep])
      · simp only [h, h', if_false]; exact .stay _ _ _ he
  | query => exact absurd rfl hop

/-- A step that keeps the operation in flight, the share its stack holds and the
client's count leaves the thread where it is. -/
theorem Thread.move_same {answer : Bool} {th : Thread} {e : Event}
    (hq : bottomOp th.stack ≠ some .query) (hb : bottomOp l' = bottomOp th.stack)
    (hs : stackShare l' = stackShare th.stack) (he : e.isClient = false) :
    Move answer (stackPosition th.stack) (stackPosition l') e th.stake
      { th with stack := l' }.stake := by
  rw [stackPosition_congr hq hb hs]
  simp only [Thread.stake, hs]
  exact .stay _ _ _ he

end Positions

theorem bottomOp_cons_ne_none : ∀ (f : Frame) (l : List Frame), bottomOp (f :: l) ≠ none
  | _, [] => by simp
  | _, g :: l => by rw [bottomOp_cons_cons]; exact bottomOp_cons_ne_none g l

/-- The innermost frame of an `Arrive`'s stack is the `Arrive`'s own, or a
compensating `Depart` above a share. -/
theorem Chain.arrive_top {parent : Nat → Nat} {leaf : Nat} {f : Frame} {l : List Frame}
    (h : Chain parent leaf (f :: l)) (hb : bottomOp (f :: l) = some .arrive) :
    f.op = .arrive ∨ f.op = .depart ∧ 0 < stackShare l := by
  cases hf : f.op with
  | arrive => exact .inl rfl
  | depart => exact .inr ⟨rfl, h.arrive_share hb hf⟩
  | query =>
    cases l with
    | nil => simp_all
    | cons g l => exact absurd hf h.1.callee_ne_query

theorem Frame.result_of_ne_query {f : Frame} (h : f.op ≠ .query) : f.result = false := by
  cases f <;> simp_all [Frame.result, Frame.op]

theorem callEvent_isClient (caller callee : Frame) : (callEvent caller callee).isClient = false := by
  unfold callEvent; split <;> rfl

/-! ### One step -/

section Step

variable [Fintype τ] [DecidableEq τ] {v : Variant} {w : Wiring τ} {nodes : Nat}
  {s s' : State τ} {t : τ}

/-- A step of a thread running an `Arrive` or a `Depart` moves it as the share of
its stack moves. -/
theorem busy_move (hinv : Invariant v w nodes s) {answer : Bool}
    {f : Frame} {callers : List Frame} {a : Action} {e : Event} {op : Op}
    (hstack : (s.threads t).stack = f :: callers) (hop : op ≠ .query)
    (hb : bottomOp (f :: callers) = some op) (hlaw : a.Law v w.parent nodes s.X f)
    (happly : s.apply t f callers a = some (s', e)) :
    Move answer (stackPosition (s.threads t).stack) (stackPosition (s'.threads t).stack) e
      (s.threads t).stake (s'.threads t).stake := by
  have hchain : Chain w.parent (w.leaf t) (f :: callers) := hstack ▸ hinv.chain t
  have hq : bottomOp (s.threads t).stack ≠ some .query := by simpa [hstack, hb] using hop
  cases a with
  | set f' | flag _ _ f' =>
    simp only [State.apply, Option.some.injEq, Prod.mk.injEq] at happly
    obtain ⟨rfl, rfl⟩ := happly
    obtain ⟨-, hop', hcs, hps, -⟩ := hlaw
    simp only [State.setThread_threads, Function.update_same]
    exact Thread.move_same hq (by rw [hstack, bottomOp_replaceTop callers hop'])
      (by simp [hstack, Frame.share, hcs, hps]) rfl
  | write m value f' =>
    simp only [State.apply, Option.some.injEq, Prod.mk.injEq] at happly
    obtain ⟨rfl, rfl⟩ := happly
    obtain ⟨-, -, hop', -, hcs, hps, -⟩ := hlaw
    have hd : -1 ≤ (if m = 0 then 0 else pos (s.X m) - pos value) ∧
        (if m = 0 then 0 else pos (s.X m) - pos value) ≤ 1 := by
      have := pos_nonneg (s.X m); have := pos_le_one (s.X m)
      have := pos_nonneg value; have := pos_le_one value
      split <;> omega
    have hshare : f'.share = f.share + f.op.delta + if m = 0 then 0 else pos (s.X m) - pos value := by
      unfold Frame.share; omega
    have := f'.share_nonneg
    simp only [State.setThread_threads, Function.update_same, Thread.stake, hstack]
    refine move_of_shares hop hb (by rw [bottomOp_replaceTop callers hop', hb]) rfl
      (fun harr hpos => ?_) (fun hdep hpos => ?_)
    · subst harr
      rcases hchain.arrive_top hb with hfop | ⟨-, hcallers⟩
      · simp only [stackShare_cons, hfop, Op.delta] at hpos hshare ⊢; omega
      · simp only [stackShare_cons]; omega
    · subst hdep
      have hfop := hchain.top_depart hb
      simp only [stackShare_cons, hfop, Op.delta] at hpos hshare ⊢; omega
  | call caller callee =>
    simp only [State.apply, Option.some.injEq, Prod.mk.injEq] at happly
    obtain ⟨rfl, rfl⟩ := happly
    obtain ⟨-, hop', -, hcallee, hcs, hps, -⟩ := hlaw
    have hcalleeShare : callee.parentShare = 0 := by rcases hcallee with rfl | rfl <;> simp
    simp only [State.setThread_threads, Function.update_same]
    exact Thread.move_same hq (by rw [hstack, bottomOp_cons_cons, bottomOp_replaceTop callers hop'])
      (by simp only [hstack, stackShare_cons, Frame.share]; omega) (callEvent_isClient _ _)
  | ret =>
    cases callers with
    | nil =>
      simp only [State.apply, Option.some.injEq, Prod.mk.injEq] at happly
      obtain ⟨rfl, rfl⟩ := happly
      obtain ⟨hps, hcs⟩ := hlaw
      have hfop : f.op = op := by simpa using hb
      subst hfop
      have hdone : stackPosition [f] = .linearized f.op false := by
        cases hfop : f.op <;> simp_all [stackPosition, Frame.share]
      have hk : ((s.threads t).finish f).stake = (s.threads t).stake := by
        simp only [Thread.stake, Thread.finish_stack, Thread.finish_arrived, hstack, stackShare_cons,
          stackShare_nil, Frame.share, hps, hcs]
        split <;> simp
      simp only [State.setThread_threads, Function.update_same, hk, hstack, hdone,
        Thread.finish_stack, Frame.result_of_ne_query hop]
      exact .respond _ _ _
    | cons caller rest =>
      simp only [State.apply, Option.map_eq_some', Prod.exists, Prod.mk.injEq] at happly
      obtain ⟨f', e', hresume, rfl, rfl⟩ := happly
      obtain ⟨-, hop', hcs, hps, -, rfl⟩ :=
        Frame.resume_law (hinv.valid t caller (by simp [hstack])) hchain.1 hresume
      obtain ⟨hfps, hfcs⟩ := hlaw
      simp only [State.setThread_threads, Function.update_same]
      refine Thread.move_same hq (by rw [hstack, bottomOp_cons_cons, bottomOp_replaceTop rest hop'])
        (by simp only [hstack, stackShare_cons, Frame.share]; omega)
        (by split <;> rfl)

/-- A `Query` takes effect at its load of the root, with the answer the root
gives, and responds with it. -/
theorem query_move (hinv : Invariant v w nodes s) {f : Frame} {callers : List Frame} {a : Action}
    {e : Event} (hstack : (s.threads t).stack = f :: callers)
    (hb : bottomOp (f :: callers) = some .query)
    (hact : f.step v w.parent s.X s.announce = some a ∨ f.spuriousStep v s.X = some a)
    (happly : s.apply t f callers a = some (s', e)) :
    Move (decide (s.X 0 ≠ 0)) (stackPosition (s.threads t).stack)
      (stackPosition (s'.threads t).stack) e (s.threads t).stake (s'.threads t).stake := by
  have hchain : Chain w.parent (w.leaf t) (f :: callers) := hstack ▸ hinv.chain t
  obtain ⟨rfl, hfop⟩ := hchain.query_alone hb
  obtain ⟨result, rfl⟩ : ∃ result, f = .rootQuery result := by
    cases f <;> simp_all [Frame.op]
  cases result with
  | none =>
    obtain rfl : a = .set (.rootQuery (some (decide (s.X 0 ≠ 0)))) := by
      rcases hact with h | h
      · exact (Option.some.inj h).symm
      · cases h
    simp only [State.apply, Option.some.injEq, Prod.mk.injEq] at happly
    obtain ⟨rfl, rfl⟩ := happly
    simp only [State.setThread_threads, Function.update_same, Thread.stake, hstack]
    exact .query _ _ rfl
  | some b =>
    obtain rfl : a = .ret := by
      rcases hact with h | h
      · exact (Option.some.inj h).symm
      · cases h
    simp only [State.apply, Option.some.injEq, Prod.mk.injEq] at happly
    obtain ⟨rfl, rfl⟩ := happly
    simp only [State.setThread_threads, Function.update_same, Thread.stake, Thread.finish, hstack]
    exact .respond _ _ _

/-- An invocation that pushes a fresh frame moves an idle thread to the invoked
operation and keeps its stake. -/
theorem Frame.Fresh.move {answer : Bool} {nodes home : Nat} {th : Thread} {f : Frame} {op : Op}
    (hf : f.Fresh v nodes home op) (hidle : th.stack = []) (hpos : op = .depart → 0 < th.arrived) :
    Move answer (stackPosition th.stack) (stackPosition [f]) (.invoke op) th.stake
      ({ th with
          stack := [f]
          arrived := if op = .depart then th.arrived - 1 else th.arrived } : Thread).stake := by
  have hshare : f.share = if op = .depart then 1 else 0 := by
    simp [Frame.share, hf.parentShare_eq, hf.counterShare_eq]
  have hinvoked : stackPosition [f] = .invoked op := by
    cases op with
    | arrive | depart => simp [stackPosition, hf.op_eq, hshare]
    | query => rw [hf.query_eq rfl]; rfl
  have hk : ({ th with
      stack := [f]
      arrived := if op = .depart then th.arrived - 1 else th.arrived } : Thread).stake = th.stake := by
    simp only [Thread.stake, hidle, stackShare_cons, stackShare_nil, hshare]
    cases op <;> simp at hpos ⊢
    omega
  rw [hidle, hinvoked, hk]
  exact .invoke _ _

/-- Every step of a frame moves its thread as `Move` allows, with a `Query` taking
effect now answering whether the root is non-zero. -/
theorem frame_move (hw : w.WellShaped nodes) (hinv : Invariant v w nodes s) {f : Frame}
    {callers : List Frame} {a : Action} {e : Event} (hstack : (s.threads t).stack = f :: callers)
    (hact : f.step v w.parent s.X s.announce = some a ∨ f.spuriousStep v s.X = some a)
    (happly : s.apply t f callers a = some (s', e)) :
    Move (decide (s.X 0 ≠ 0)) (stackPosition (s.threads t).stack)
      (stackPosition (s'.threads t).stack) e (s.threads t).stake (s'.threads t).stake := by
  cases hb : bottomOp (f :: callers) with
  | none => exact absurd hb (bottomOp_cons_ne_none f callers)
  | some op =>
    by_cases hq : op = .query
    · subst hq
      exact query_move hinv hstack hb hact happly
    · exact busy_move hinv hstack hq hb (hinv.law hw hstack hact) happly

/-- Outside the full-contention class, every step moves its thread as `Move`
allows, with a `Query` taking effect now answering whether the root is non-zero. -/
theorem step_move (hw : w.WellShaped nodes) (hv : v ≠ .fullContention)
    (hinv : Invariant v w nodes s) {choice : Choice} {e : Event}
    (hstep : step v w s t choice = some (s', e)) :
    Move (decide (s.X 0 ≠ 0)) (stackPosition (s.threads t).stack)
      (stackPosition (s'.threads t).stack) e (s.threads t).stake (s'.threads t).stake := by
  rcases step_eq_some hstep with ⟨op, th', hidle, hinvoke, rfl, rfl⟩ |
    ⟨f, callers, a, hstack, hact, happly⟩
  · obtain ⟨hpos, rfl⟩ := Thread.invoke_eq_some hv hinvoke
    simp only [State.setThread_threads, Function.update_same]
    exact (Op.frameOn_fresh v (hw.leaf_lt t) op).move hidle hpos
  · exact frame_move hw hinv hstack hact happly

end Step

/-! ### Every trace -/

section Trace

variable [Fintype τ] [DecidableEq τ] {v : Variant} {w : Wiring τ} {nodes : Nat}

/-- A step of one thread moves the surplus by that thread's change of stake. -/
theorem State.surplus_step {s s' : State τ} {t : τ}
    (hother : ∀ u, u ≠ t → s'.threads u = s.threads u) :
    s'.surplus = s.surplus + ((s'.threads t).stake - (s.threads t).stake) := by
  have hrest : ∑ u ∈ Finset.univ.erase t, (s'.threads u).stake =
      ∑ u ∈ Finset.univ.erase t, (s.threads u).stake :=
    Finset.sum_congr rfl fun u hu => by rw [hother u (Finset.ne_of_mem_erase hu)]
  unfold State.surplus
  rw [← Finset.add_sum_erase _ _ (Finset.mem_univ t), ← Finset.add_sum_erase _ _ (Finset.mem_univ t),
    hrest]
  omega

/-- A linearization in which every thread stands where its stack does, and whose
sequential run ends at the surplus, extends over a step that moves its thread as
`Move` allows, a `Query` taking effect at the step answering by the surplus. -/
theorem linearization_snoc {trace : List (τ × Event)} {s s' : State τ} {t : τ} {e : Event}
    {L : List (τ × Mark)} (herase : erase L = history trace)
    (hpos : ∀ u, position L u = some (stackPosition (s.threads u).stack))
    (hrun : seqRun L = some s.surplus)
    (hmove : Move (decide (0 < s.surplus)) (stackPosition (s.threads t).stack)
      (stackPosition (s'.threads t).stack) e (s.threads t).stake (s'.threads t).stake)
    (hother : ∀ u, u ≠ t → s'.threads u = s.threads u) :
    ∃ L' : List (τ × Mark), erase L' = history (trace ++ [(t, e)]) ∧
      (∀ u, position L' u = some (stackPosition (s'.threads u).stack)) ∧
      seqRun L' = some s'.surplus := by
  obtain ⟨M, hM, hposM, hotherM, hrunM⟩ := hmove.extend (hpos t) hrun rfl
  refine ⟨L ++ M, by simp [herase, hM], fun u => ?_, ?_⟩
  · by_cases hu : u = t
    · subst hu; exact hposM
    · rw [hotherM u hu, hpos u, hother u hu]
  · rw [hrunM, State.surplus_step hother]

/-- Every reachable trace of the no- and semi-contention classes has a
linearization in which every thread stands where its stack does, and whose
sequential run ends at the surplus. -/
theorem linearization_of_reach (hw : w.WellShaped nodes) (hv : v ≠ .fullContention)
    {trace : List (τ × Event)} {s : State τ} (hreach : Reach v w trace s) :
    ∃ L : List (τ × Mark), erase L = history trace ∧
      (∀ t, position L t = some (stackPosition (s.threads t).stack)) ∧
      seqRun L = some s.surplus := by
  induction hreach with
  | init => exact ⟨[], rfl, fun _ => rfl, by simp [seqRun, State.surplus, Thread.stake, State.init]⟩
  | @step trace s s' t choice e hreach' hstep ih =>
    obtain ⟨L, herase, hpos, hrun⟩ := ih
    have hinv := Invariant.reach hw hv hreach'
    have hanswer : decide (s.X 0 ≠ 0) = decide (0 < s.surplus) :=
      decide_eq_decide.mpr (hinv.root_iff_surplus hw)
    exact linearization_snoc herase hpos hrun (hanswer ▸ step_move hw hv hinv hstep)
      fun u hu => step_other hstep hu

/-- The history of every reachable trace of the no- and semi-contention classes
is linearizable. -/
theorem Reach.linearizable (hw : w.WellShaped nodes) (hv : v ≠ .fullContention)
    {trace : List (τ × Event)} {s : State τ} (hreach : Reach v w trace s) :
    Linearizable (history trace) := by
  obtain ⟨L, herase, hpos, hrun⟩ := linearization_of_reach hw hv hreach
  exact ⟨L, herase, fun t => by simp [hpos t], by simp [hrun]⟩

theorem Frame.share_of_query {f : Frame} (h : f.op = .query) : f.share = 0 := by
  cases f <;> simp_all [Frame.op, Frame.share, Frame.counterShare, Frame.parentShare]

/-- At a quiescent state whose threads' client counts match their completions, the
surplus is the threads' completed `Arrive`s minus their completed `Depart`s. -/
theorem State.quiescent_surplus {s : State τ} {trace : List (τ × Event)} (hq : s.Quiescent)
    (hcount : ∀ t, (completed trace t .arrive : Int) - completed trace t .depart =
      (s.threads t).pendingArrived) :
    s.surplus = ∑ t, ((completed trace t .arrive : Int) - completed trace t .depart) := by
  refine Finset.sum_congr rfl fun t _ => ?_
  have hshare : stackShare (s.threads t).stack = 0 := List.sum_eq_zero fun x hx => by
    obtain ⟨f, hf, rfl⟩ := List.mem_map.mp hx
    exact Frame.share_of_query (hq t f hf)
  rw [Thread.stake, hshare, hcount t, Thread.pendingArrived, if_neg (bottomOp_of_query (hq t))]
  simp

end Trace

/-- A `Query` run alone by an idle thread returns whether the root is non-zero. -/
theorem runSchedule_query [DecidableEq τ] (v : Variant) (w : Wiring τ) (s : State τ) (t : τ)
    (hidle : (s.threads t).stack = []) :
    (runSchedule v w s [(t, .invoke .query), (t, .run), (t, .run)]).map Prod.fst =
      some [(t, .invoke .query), (t, .internal), (t, .respond .query (decide (s.X 0 ≠ 0)))] := by
  simp only [runSchedule, step, hidle, Thread.invoke, Option.map_some', Option.some_bind,
    State.setThread_threads, Function.update_same, Frame.step, State.apply, Frame.op, Frame.result,
    State.setThread_X]

/-- At a quiescent state whose root stands for the surplus and whose threads' client
counts match their completions, a `Query` run alone by an idle thread answers
whether the threads have completed more `Arrive`s than `Depart`s. -/
theorem State.quiescent_query [Fintype τ] [DecidableEq τ] {v : Variant} {w : Wiring τ}
    {s : State τ} {trace : List (τ × Event)} (hq : s.Quiescent)
    (hcount : ∀ t, (completed trace t .arrive : Int) - completed trace t .depart =
      (s.threads t).pendingArrived)
    (hroot : s.X 0 ≠ 0 ↔ 0 < s.surplus) {t : τ} (hidle : (s.threads t).stack = []) :
    (runSchedule v w s [(t, .invoke .query), (t, .run), (t, .run)]).map Prod.fst =
      some [(t, .invoke .query), (t, .internal), (t, .respond .query
        (decide (∑ u, completed trace u .depart < ∑ u, completed trace u .arrive)))] := by
  have hsurplus := State.quiescent_surplus hq hcount
  rw [Finset.sum_sub_distrib, ← Nat.cast_sum, ← Nat.cast_sum] at hsurplus
  have hcompleted : 0 < s.surplus ↔
      ∑ u, completed trace u .depart < ∑ u, completed trace u .arrive := by
    rw [hsurplus]; omega
  rw [runSchedule_query _ _ _ _ hidle, decide_eq_decide.mpr (hroot.trans hcompleted)]

open Snzi.Tree

/-- In the no- and semi-contention classes, over every constructed tree with
`K ≥ 2` and `K^(H+1) < 2^64`, for every assignment of `tid`s to threads, every
well-formed client and every interleaving of the atomic steps (spurious failures
of the weak exchanges included): the history is linearizable to the sequential
nonzero indicator, and at a quiescent state a `Query` returns `true` exactly when
the threads have completed more `Arrive`s than `Depart`s. -/
theorem history_linearizable (ceilQuotient : SizeType → SizeType → SizeType)
    (allocates : SizeType → Bool) (K H T : SizeType) (hK : 2 ≤ K.toNat)
    (hfit : K.toNat ^ (H.toNat + 1) < 2 ^ 64) (shape : Shape)
    (hshape : construct ceilQuotient allocates K H T = .returned shape) :
    ∀ {τ : Type} [Fintype τ] [DecidableEq τ] (tidOf : τ → SizeType) (v : Variant),
      v ≠ .fullContention → ∀ (trace : List (τ × Event)) (s : State τ),
        Reach v (shape.wiring tidOf) trace s →
        Linearizable (history trace) ∧
        (s.Quiescent → ∀ t, (s.threads t).stack = [] →
          (runSchedule v (shape.wiring tidOf) s
            [(t, .invoke .query), (t, .run), (t, .run)]).map Prod.fst =
            some [(t, .invoke .query), (t, .internal), (t, .respond .query
              (decide (∑ u, completed trace u .depart < ∑ u, completed trace u .arrive)))]) := by
  obtain ⟨-, hwired⟩ := construct_wellShaped ceilQuotient allocates K H T hK hfit shape hshape
  refine fun tidOf v hv trace s hreach =>
    ⟨hreach.linearizable (hwired tidOf).1 hv, fun hq t hidle => ?_⟩
  have hw := (hwired tidOf).1
  exact State.quiescent_query hq (completed_count hw hv hreach)
    ((Invariant.reach hw hv hreach).root_iff_surplus hw) hidle

theorem history_linearizable_binary :
    ∃ shape, construct (fun _ _ => 1) (fun _ => true) 2#64 1#64 2#64 =
        .returned shape ∧
      ∀ {τ : Type} [Fintype τ] [DecidableEq τ] (tidOf : τ → SizeType) (v : Variant),
        v ≠ .fullContention → ∀ (trace : List (τ × Event)) (s : State τ),
          Reach v (shape.wiring tidOf) trace s →
          Linearizable (history trace) ∧
          (s.Quiescent → ∀ t, (s.threads t).stack = [] →
            (runSchedule v (shape.wiring tidOf) s
              [(t, .invoke .query), (t, .run), (t, .run)]).map Prod.fst =
              some [(t, .invoke .query), (t, .internal), (t, .respond .query
                (decide (∑ u, completed trace u .depart < ∑ u, completed trace u .arrive)))]) :=
  ⟨_, rfl, history_linearizable (fun _ _ => 1) (fun _ => true) 2#64 1#64 2#64
    (by decide) (by decide) _ rfl⟩

end Snzi.Machine
