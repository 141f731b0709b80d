import Snzi.Machine.Stacks

/-!
# An operation run alone completes

`node::Arrive` retries: it re-reads `X` and loops on its `compare_exchange`, waits
up to `DelayAmount` loads while another thread has set `announce`, and goes up the
tree; `node::Depart` loops on its own `compare_exchange`.  None of these loops runs
forever when its thread runs alone, nor do the loops of `ArriveDirectly` and
`DepartDirectly`: from every reachable state of every class, a thread the
scheduler runs with no other thread interleaved finishes its operation.

The argument is a ranking one.  `Frame.soloCost` bounds the steps a frame still
takes while its thread runs alone; it reads only its own node's counter and flag,
and charges a call to the parent by `arriveBound` or `departBound` of the parent's
depth.  `Action.Lowers` says what every step does to these costs, and
`Frame.step_lowers` proves it from the code once.  Summed over the stack, the
costs drop at every solo step (`soloMeasure_step`), and a busy thread always has
a next step (`run_enabled`), so the sum bounds the length of the solo run.
-/

namespace Snzi.Machine

variable {τ : Type}

/-! ### Depth in the tree -/

/-- The number of `parent` hops from node `n` to the root, looking at most `fuel`
hops ahead. -/
def depthWithin (parent : Nat → Nat) : Nat → Nat → Nat
  | 0, _ => 0
  | fuel + 1, n => if n = 0 then 0 else depthWithin parent fuel (parent n) + 1

/-- The depth of node `n`.  In a well-shaped tree every hop lowers the index, so
`n` hops reach the root. -/
def depth (parent : Nat → Nat) (n : Nat) : Nat := depthWithin parent n n

theorem depthWithin_eq {w : Wiring τ} {nodes : Nat} (hw : w.WellShaped nodes) :
    ∀ fuel fuel' n, n < nodes → n ≤ fuel → n ≤ fuel' →
      depthWithin w.parent fuel n = depthWithin w.parent fuel' n := by
  intro fuel
  induction fuel with
  | zero => intro fuel' n _ hn _; cases fuel' <;> simp [depthWithin, Nat.le_zero.mp hn]
  | succ fuel ih =>
    intro fuel' n hlt hn hn'
    cases fuel' with
    | zero => simp [depthWithin, Nat.le_zero.mp hn']
    | succ fuel' =>
      simp only [depthWithin]
      split
      · rfl
      · have := hw.parent_lt n (Nat.pos_of_ne_zero ‹_›) hlt
        rw [ih fuel' _ (by omega) (by omega) (by omega)]

theorem depth_zero (parent : Nat → Nat) : depth parent 0 = 0 := rfl

/-- Below the root, a node is one deeper than its parent. -/
theorem depth_parent {w : Wiring τ} {nodes n : Nat} (hw : w.WellShaped nodes) (hn : 0 < n)
    (hlt : n < nodes) : depth w.parent n = depth w.parent (w.parent n) + 1 := by
  obtain ⟨m, rfl⟩ : ∃ m, n = m + 1 := ⟨n - 1, by omega⟩
  have := hw.parent_lt _ hn hlt
  simp only [depth, depthWithin, Nat.add_one_ne_zero, if_false]
  rw [depthWithin_eq hw m _ _ (by omega) (by omega) le_rfl]

/-! ### What a frame has left to do -/

/-- The most steps a `Depart` started on a node of depth `d` takes while its thread
runs alone. -/
def departBound : Nat → Nat
  | 0 => 2
  | d + 1 => departBound d + 6

/-- The most steps an `Arrive` started on a node of depth `d` takes while its thread
runs alone. -/
def arriveBound : Nat → Nat
  | 0 => 2
  | d + 1 => arriveBound d + departBound d + 24

/-- The most steps an operation whose outermost frame runs on a node of depth `h`
takes while its thread runs alone: a frame at every depth from `h` up to the root,
each charged for both operations. -/
def soloBound (h : Nat) : Nat := ∑ d ∈ Finset.range (h + 1), (arriveBound d + departBound d)

section ArriveCosts

/-! The steps left to a `node::Arrive` frame while its thread runs alone, program
point by program point, when its node's counter reads `x` and its flag reads
`announced`; `callArrive` and `callDepart` bound the calls to the parent.  A
failed `compare_exchange` costs one more pass with the value it reloads. -/

variable (v : Variant) (x : Int) (announced : Bool) (callArrive callDepart : Nat)

/-- `if (pArrInv && oldx)`: the compensating `Depart` on the parent, or the return. -/
def arriveAfterCost (oldx : Int) (pArrInv : Bool) : Nat :=
  if pArrInv = true ∧ oldx ≠ 0 then callDepart + 2 else 1

/-- The `compare_exchange` once the parent's `Arrive` has returned. -/
def arriveRetryCost (oldx : Int) : Nat :=
  if x = oldx then arriveAfterCost callDepart oldx true + 1
  else arriveAfterCost callDepart x true + 2

/-- The call to the parent's `Arrive`, and the exchange after it returns. -/
def arrivePropagateCost (oldx : Int) : Nat :=
  callArrive + arriveRetryCost x callDepart oldx + 1

/-- The `i`-th load of the wait loop: the loads left while `X` stays `0`, then
`announce.store(true)` and the call to the parent. -/
def arriveWaitCost (i : Nat) : Nat :=
  if x ≠ 0 then arriveAfterCost callDepart x false + 2
  else delayAmount - (i + 1) + arrivePropagateCost x callArrive callDepart 0 + 2

/-- The branch `!oldx && !pArrInv`: the call to the parent at once (no contention),
or the wait while `announce` is set and the store that sets it. -/
def arriveZeroCost : Nat :=
  if v = .noContention then arrivePropagateCost x callArrive callDepart 0
  else if announced then arriveWaitCost x callArrive callDepart 0
  else arrivePropagateCost x callArrive callDepart 0 + 1

/-- A pass through the loop with `oldx` equal to the counter. -/
def arriveFreshCost (pArrInv : Bool) : Nat :=
  if x = 0 ∧ pArrInv = false then arriveZeroCost v x announced callArrive callDepart + 1
  else arriveAfterCost callDepart x pArrInv + 1

/-- A pass through the loop with `oldx` in hand. -/
def arriveLoopCost (oldx : Int) (pArrInv : Bool) : Nat :=
  if oldx = 0 ∧ pArrInv = false then arriveZeroCost v x announced callArrive callDepart + 1
  else if x = oldx then arriveAfterCost callDepart oldx pArrInv + 1
  else arriveFreshCost v x announced callArrive callDepart pArrInv + 1

/-- The steps left to a `node::Arrive` frame at program point `pc`. -/
def nodeArriveCost (pc : ArrivePc) (oldx : Int) (pArrInv : Bool) : Nat :=
  match pc with
  | .start => arriveFreshCost v x announced callArrive callDepart pArrInv + 1
  | .loop => arriveLoopCost v x announced callArrive callDepart oldx pArrInv
  | .wait i => arriveWaitCost x callArrive callDepart i
  | .setAnnounce => arrivePropagateCost x callArrive callDepart oldx + 1
  | .propagate => arrivePropagateCost x callArrive callDepart oldx
  | .inParentArrive => arriveLoopCost v x announced callArrive callDepart oldx true
  | .after => arriveAfterCost callDepart oldx pArrInv
  | .inParentDepart | .done => 1

/-- Reloading the counter's own value is a fresh pass. -/
theorem arriveLoopCost_self (pArrInv : Bool) :
    arriveLoopCost v x announced callArrive callDepart x pArrInv =
      arriveFreshCost v x announced callArrive callDepart pArrInv := by
  unfold arriveLoopCost arriveFreshCost
  split_ifs <;> simp_all

/-- After the parent's `Arrive`, the loop goes straight to the exchange. -/
theorem arriveLoopCost_true (oldx : Int) :
    arriveLoopCost v x announced callArrive callDepart oldx true =
      arriveRetryCost x callDepart oldx := by
  simp [arriveLoopCost, arriveFreshCost, arriveRetryCost]

theorem arriveAfterCost_le (oldx : Int) (pArrInv : Bool) :
    arriveAfterCost callDepart oldx pArrInv ≤ callDepart + 2 := by
  unfold arriveAfterCost; split <;> omega

theorem arrivePropagateCost_le (oldx : Int) :
    arrivePropagateCost x callArrive callDepart oldx ≤ callArrive + callDepart + 5 := by
  have := arriveAfterCost_le callDepart oldx true
  have := arriveAfterCost_le callDepart x true
  unfold arrivePropagateCost arriveRetryCost; split <;> omega

/-- Whatever its program point, a `node::Arrive` frame has at most the steps of a
fresh one left. -/
theorem nodeArriveCost_le (pc : ArrivePc) (oldx : Int) (pArrInv : Bool) :
    nodeArriveCost v x announced callArrive callDepart pc oldx pArrInv ≤
      callArrive + callDepart + 24 := by
  have hafter := arriveAfterCost_le callDepart
  have hwait : ∀ i, arriveWaitCost x callArrive callDepart i ≤ callArrive + callDepart + 22 := by
    have := arrivePropagateCost_le x callArrive callDepart 0
    have := hafter x false
    intro i; unfold arriveWaitCost delayAmount; split <;> omega
  have hzero : arriveZeroCost v x announced callArrive callDepart ≤
      callArrive + callDepart + 22 := by
    have := arrivePropagateCost_le x callArrive callDepart 0
    have := hwait 0
    unfold arriveZeroCost; split_ifs <;> omega
  have hfresh : ∀ p, arriveFreshCost v x announced callArrive callDepart p ≤
      callArrive + callDepart + 23 := by
    intro p; have := hafter x p
    unfold arriveFreshCost; split <;> omega
  have hloop : ∀ o p, arriveLoopCost v x announced callArrive callDepart o p ≤
      callArrive + callDepart + 24 := by
    intro o p; have := hafter o p; have := hfresh p
    unfold arriveLoopCost; split_ifs <;> omega
  have hprop := arrivePropagateCost_le x callArrive callDepart oldx
  cases pc with
  | start => have := hfresh pArrInv; simp only [nodeArriveCost]; omega
  | loop => exact hloop oldx pArrInv
  | wait i => exact (hwait i).trans (by omega)
  | setAnnounce => simp only [nodeArriveCost]; omega
  | propagate => exact hprop.trans (by omega)
  | inParentArrive => exact hloop oldx true
  | after => exact (hafter oldx pArrInv).trans (by omega)
  | inParentDepart | done => simp only [nodeArriveCost]; omega

end ArriveCosts

section DepartCosts

/-! The steps left to a `node::Depart` frame while its thread runs alone, when its
node's counter reads `x`; `callDepart` bounds the call to the parent. -/

variable (v : Variant) (x : Int) (callDepart : Nat)

/-- `if (oldx == 1)`: the parent's `Depart`, or the return. -/
def departAfterCost (oldx : Int) : Nat := if oldx = 1 then callDepart + 2 else 1

/-- `if (oldx == 1) announce.store(false);`, outside the no-contention class. -/
def departFlagCost (oldx : Int) : Nat := if v ≠ .noContention ∧ oldx = 1 then 1 else 0

/-- The `compare_exchange`; a failure costs a pass with the reloaded value. -/
def departExchangeCost (oldx : Int) : Nat :=
  if x = oldx then departAfterCost callDepart oldx + 1
  else departFlagCost v x + departAfterCost callDepart x + 2

/-- The steps left to a `node::Depart` frame at program point `pc`. -/
def nodeDepartCost (pc : DepartPc) (oldx : Int) : Nat :=
  match pc with
  | .start => departFlagCost v x + departAfterCost callDepart x + 2
  | .loop => departFlagCost v oldx + departExchangeCost v x callDepart oldx
  | .cas => departExchangeCost v x callDepart oldx
  | .after => departAfterCost callDepart oldx
  | .inParentDepart | .done => 1

/-- Whatever its program point, a `node::Depart` frame has at most the steps of a
fresh one left, and one more for a stale flag store. -/
theorem nodeDepartCost_le (pc : DepartPc) (oldx : Int) :
    nodeDepartCost v x callDepart pc oldx ≤ callDepart + 6 := by
  have hafter : ∀ o, departAfterCost callDepart o ≤ callDepart + 2 := by
    intro o; unfold departAfterCost; split <;> omega
  have hflag : ∀ o, departFlagCost v o ≤ 1 := by
    intro o; unfold departFlagCost; split <;> omega
  have hexchange : departExchangeCost v x callDepart oldx ≤ callDepart + 5 := by
    have := hafter oldx; have := hafter x; have := hflag x
    unfold departExchangeCost; split <;> omega
  have := hafter oldx; have := hafter x; have := hflag oldx; have := hflag x
  cases pc <;> simp only [nodeDepartCost] <;> omega

end DepartCosts

/-- The steps left to a frame while its thread runs alone.  A node frame reads its
own node's counter and flag and charges a call to the parent by the bound at the
parent's depth. -/
def Frame.soloCost (v : Variant) (parent : Nat → Nat) (X : Nat → Int) (announce : Nat → Bool) :
    Frame → Nat
  | .rootArrive done | .rootDepart done | .departDirectly done => if done then 1 else 2
  | .rootQuery result => if result.isSome then 1 else 2
  | .arriveDirectly .start _ _ => 3
  | .arriveDirectly .cas oldx _ => if X 0 = oldx then 2 else 3
  | .arriveDirectly .done _ _ => 1
  | .nodeArrive n pc oldx pArrInv =>
      nodeArriveCost v (X n) (announce n) (arriveBound (depth parent (parent n)))
        (departBound (depth parent (parent n))) pc oldx pArrInv
  | .nodeDepart n pc oldx =>
      nodeDepartCost v (X n) (departBound (depth parent (parent n))) pc oldx

/-- The bound charged for a callee: that of a fresh `Arrive` or `Depart` at the
callee's depth. -/
def Frame.callBound (parent : Nat → Nat) (f : Frame) : Nat :=
  if f.op = .arrive then arriveBound (depth parent f.node) else departBound (depth parent f.node)

/-- The steps left to a whole stack while its thread runs alone. -/
def soloMeasure (v : Variant) (parent : Nat → Nat) (X : Nat → Int) (announce : Nat → Bool)
    (l : List Frame) : Nat :=
  (l.map (Frame.soloCost v parent X announce)).sum

section Costs

variable {v : Variant} {parent : Nat → Nat} {X X' : Nat → Int} {announce announce' : Nat → Bool}

/-- A frame's cost reads only its own node. -/
theorem Frame.soloCost_congr (f : Frame) (hX : X' f.node = X f.node)
    (hannounce : announce' f.node = announce f.node) :
    f.soloCost v parent X' announce' = f.soloCost v parent X announce := by
  cases f with
  | arriveDirectly pc => cases pc <;> simp_all [Frame.soloCost, Frame.node]
  | _ => simp_all [Frame.soloCost, Frame.node]

@[simp] theorem soloMeasure_nil : soloMeasure v parent X announce [] = 0 := rfl

variable {w : Wiring τ} {nodes m : Nat}

/-- A fresh `Arrive` on node `m` costs at most the bound at `m`'s depth. -/
theorem arriveOn_soloCost (hw : w.WellShaped nodes) (hm : m < nodes) :
    (arriveOn m).soloCost v w.parent X announce ≤ arriveBound (depth w.parent m) := by
  unfold arriveOn
  split
  · subst m; simp [Frame.soloCost, depth_zero, arriveBound]
  · rw [depth_parent hw (Nat.pos_of_ne_zero ‹_›) hm]
    exact nodeArriveCost_le v (X m) (announce m) _ _ .start 0 false

/-- A fresh `Depart` on node `m` costs at most the bound at `m`'s depth. -/
theorem departOn_soloCost (hw : w.WellShaped nodes) (hm : m < nodes) :
    (departOn m).soloCost v w.parent X announce ≤ departBound (depth w.parent m) := by
  unfold departOn
  split
  · subst m; simp [Frame.soloCost, depth_zero, departBound]
  · rw [depth_parent hw (Nat.pos_of_ne_zero ‹_›) hm]
    exact nodeDepartCost_le v (X m) _ .start 0

/-- A valid frame has at most the steps of a fresh `Arrive` and a fresh `Depart` at
its depth left. -/
theorem Frame.soloCost_le (hw : w.WellShaped nodes) {f : Frame} (hvalid : f.Valid v nodes) :
    f.soloCost v w.parent X announce ≤
      arriveBound (depth w.parent f.node) + departBound (depth w.parent f.node) := by
  cases f with
  | nodeArrive n pc oldx pArrInv =>
    obtain ⟨hn, hlt, -⟩ := hvalid
    have := nodeArriveCost_le v (X n) (announce n) (arriveBound (depth w.parent (w.parent n)))
      (departBound (depth w.parent (w.parent n))) pc oldx pArrInv
    simp only [Frame.soloCost, Frame.node, depth_parent hw hn hlt, arriveBound]
    omega
  | nodeDepart n pc oldx =>
    obtain ⟨hn, hlt⟩ := hvalid
    have := nodeDepartCost_le v (X n) (departBound (depth w.parent (w.parent n))) pc oldx
    simp only [Frame.soloCost, Frame.node, depth_parent hw hn hlt, departBound]
    omega
  | arriveDirectly pc =>
    cases pc <;> simp only [Frame.soloCost, Frame.node, depth_zero, arriveBound, departBound] <;>
      (try split_ifs) <;> omega
  | rootArrive b | rootDepart b | departDirectly b | rootQuery b =>
    cases b <;> simp [Frame.soloCost, Frame.node, depth_zero, arriveBound, departBound]

end Costs

/-! ### Every solo step lowers the cost -/

section Lowers

variable {v : Variant} {parent : Nat → Nat} {nodes : Nat} {X : Nat → Int}
  {announce : Nat → Bool} {a : Action}

/-- A caller resumes with the cost it was charged while it waited. -/
theorem Frame.resume_soloCost {caller f' : Frame} {e : Event} (h : caller.resume = some (f', e)) :
    f'.soloCost v parent X announce = caller.soloCost v parent X announce := by
  unfold Frame.resume at h
  split at h <;> cases h <;> rfl

end Lowers

/-! ### The innermost frame is never waiting -/

/-- The frame an action leaves on top is not waiting for a callee. -/
def Action.Active : Action → Prop
  | .set f | .write _ _ f | .flag _ _ f => f.resume = none
  | .call _ callee => callee.resume = none
  | .ret => True

@[simp] theorem arriveOn_resume (m : Nat) : (arriveOn m).resume = none := by
  unfold arriveOn; split <;> rfl

@[simp] theorem departOn_resume (m : Nat) : (departOn m).resume = none := by
  unfold departOn; split <;> rfl

section Active

variable {v : Variant} {parent : Nat → Nat} {X : Nat → Int} {announce : Nat → Bool}
  {f : Frame} {a : Action}

theorem Frame.step_active (h : f.step v parent X announce = some a) : a.Active := by
  unfold Frame.step at h
  split at h <;> (try unfold nodeArriveStep at h) <;> (try unfold nodeDepartStep at h) <;>
    (try split at h) <;> (repeat' split at h) <;> (try unfold casStep at h) <;>
    (try split at h) <;> cases h <;> first | rfl | simp [Action.Active]

theorem Frame.spuriousStep_active (h : f.spuriousStep v X = some a) : a.Active := by
  unfold Frame.spuriousStep at h
  split at h <;> (try split at h) <;> cases h <;> rfl

theorem Frame.resume_active {caller f' : Frame} {e : Event} (h : caller.resume = some (f', e)) :
    f'.resume = none := by
  unfold Frame.resume at h
  split at h <;> cases h <;> rfl

/-- A frame that is not waiting for a callee can always take an ordinary step. -/
theorem Frame.step_isSome (h : f.resume = none) : (f.step v parent X announce).isSome := by
  cases f with
  | nodeArrive n pc oldx pArrInv =>
    cases pc <;> simp_all [Frame.resume, Frame.step, nodeArriveStep] <;> (repeat' split) <;> rfl
  | nodeDepart n pc oldx =>
    cases pc <;> simp_all [Frame.resume, Frame.step, nodeDepartStep] <;> split <;> rfl
  | arriveDirectly pc => cases pc <;> rfl
  | rootArrive b | rootDepart b | departDirectly b | rootQuery b => cases b <;> rfl

/-- A caller waiting for its callee resumes when the callee returns. -/
theorem Frame.Awaits.resume_isSome {caller callee : Frame} (h : caller.Awaits parent callee) :
    caller.resume.isSome := by
  unfold Frame.Awaits at h
  split at h <;> simp_all [Frame.resume]

end Active

/-- No thread's innermost frame is waiting for a callee. -/
def State.TopActive (s : State τ) : Prop :=
  ∀ t f callers, (s.threads t).stack = f :: callers → f.resume = none

section TopActive

variable [DecidableEq τ] {v : Variant} {w : Wiring τ} {s s' : State τ} {t : τ}

theorem Thread.invoke_active {leaf : Nat} {th th' : Thread} {op : Op}
    (h : th.invoke v leaf op = some th') {f : Frame} {callers : List Frame}
    (hstack : th'.stack = f :: callers) : f.resume = none := by
  cases op <;> simp only [Thread.invoke] at h <;> (try split at h) <;> cases h <;>
    simp only [List.cons.injEq] at hstack <;> obtain ⟨rfl, -⟩ := hstack <;>
    (try split) <;> first | rfl | simp

theorem State.apply_active {f : Frame} {callers : List Frame} {a : Action} {e : Event}
    (h : s.apply t f callers a = some (s', e)) (ha : a.Active) {g : Frame} {rest : List Frame}
    (hstack : (s'.threads t).stack = g :: rest) : g.resume = none := by
  cases a with
  | ret =>
    cases callers with
    | nil =>
      simp only [State.apply, Option.some.injEq, Prod.mk.injEq] at h
      obtain ⟨rfl, -⟩ := h
      simp at hstack
    | cons caller callers =>
      simp only [State.apply, Option.map_eq_some', Prod.exists, Prod.mk.injEq] at h
      obtain ⟨f', e', hresume, rfl, -⟩ := h
      simp only [State.setThread_threads, Function.update_same, List.cons.injEq] at hstack
      exact hstack.1 ▸ Frame.resume_active hresume
  | _ =>
    simp only [State.apply, Option.some.injEq, Prod.mk.injEq] at h
    obtain ⟨rfl, -⟩ := h
    simp only [State.setThread_threads, Function.update_same, List.cons.injEq] at hstack
    exact hstack.1 ▸ ha

theorem State.TopActive.step (h : s.TopActive) {choice : Choice} {e : Event}
    (hstep : step v w s t choice = some (s', e)) : s'.TopActive := by
  intro u g rest hu
  by_cases hut : u = t
  · subst hut
    rcases step_eq_some hstep with ⟨op, th', -, hinvoke, rfl, -⟩ |
      ⟨f, callers, a, -, hact, happly⟩
    · simp only [State.setThread_threads, Function.update_same] at hu
      exact Thread.invoke_active hinvoke hu
    · exact State.apply_active happly
        (hact.elim Frame.step_active Frame.spuriousStep_active) hu
  · rw [step_other hstep hut] at hu
    exact h u g rest hu

/-- In every reachable state of every class, no innermost frame is waiting. -/
theorem State.TopActive.reach {trace : List (τ × Event)} (hreach : Reach v w trace s) :
    s.TopActive := by
  induction hreach with
  | init => intro t f callers h; simp [State.init] at h
  | step _ hstep ih => exact ih.step hstep

end TopActive

/-! ### Solo runs -/

theorem Frame.node_of_query {f : Frame} (h : f.op = .query) : f.node = 0 := by
  cases f <;> simp_all [Frame.op, Frame.node]

/-- A cost that every valid frame keeps within `bound` of its node's depth sums, over
a call stack, to at most `bound` summed over the depths from the innermost frame's
down to the thread's leaf. -/
theorem Chain.sum_le {w : Wiring τ} {nodes : Nat} {v : Variant} {leaf : Nat}
    (hw : w.WellShaped nodes) (cost : Frame → Nat) (bound : Nat → Nat)
    (hcost : ∀ f, f.Valid v nodes → cost f ≤ bound (depth w.parent f.node)) :
    ∀ {f : Frame} {callers : List Frame}, Chain w.parent leaf (f :: callers) →
      (∀ g ∈ f :: callers, g.Valid v nodes) →
      ((f :: callers).map cost).sum + ∑ d ∈ Finset.range (depth w.parent f.node), bound d ≤
        ∑ d ∈ Finset.range (depth w.parent leaf + 1), bound d
  | f, [], hchain, hvalid => by
    have hf := hcost f (hvalid f (by simp))
    rcases (hchain : f.op = .query ∨ f.node = leaf) with hquery | rfl
    · rw [Frame.node_of_query hquery, depth_zero] at hf ⊢
      have := Finset.sum_range_succ' bound (depth w.parent leaf)
      simp only [List.map_cons, List.map_nil, List.sum_cons, List.sum_nil, Finset.range_zero,
        Finset.sum_empty]
      omega
    · simp only [List.map_cons, List.map_nil, List.sum_cons, List.sum_nil, Finset.sum_range_succ]
      omega
  | f, caller :: rest, hchain, hvalid => by
    have hpos := hchain.1.node_pos (hvalid caller (by simp))
    have hdepth : depth w.parent caller.node = depth w.parent f.node + 1 := by
      rw [hchain.1.node_eq, depth_parent hw hpos.1 hpos.2]
    have ih := Chain.sum_le hw cost bound hcost hchain.2 fun g hg => hvalid g (by simp [hg])
    have hf := hcost f (hvalid f (by simp))
    rw [hdepth, Finset.sum_range_succ] at ih
    simp only [List.map_cons, List.sum_cons] at ih ⊢
    omega

/-- The same bound over a well-formed stack of any class: a lone frame on the root
costs at most the bound at depth `0`. -/
theorem Stacked.sum_le {w : Wiring τ} {nodes : Nat} {v : Variant} {leaf : Nat}
    (hw : w.WellShaped nodes) (cost : Frame → Nat) (bound : Nat → Nat)
    (hcost : ∀ f, f.Valid v nodes → cost f ≤ bound (depth w.parent f.node)) {l : List Frame}
    (h : Stacked w.parent leaf l) (hvalid : ∀ g ∈ l, g.Valid v nodes) :
    (l.map cost).sum ≤ ∑ d ∈ Finset.range (depth w.parent leaf + 1), bound d := by
  rcases h with h | ⟨f, rfl, h0⟩
  · cases l with
    | nil => simp
    | cons f callers => exact le_of_add_le_left (Chain.sum_le hw cost bound hcost h hvalid)
  · have hf := hcost f (hvalid f (by simp))
    rw [h0, depth_zero] at hf
    have := Finset.sum_range_succ' bound (depth w.parent leaf)
    simp only [List.map_cons, List.map_nil, List.sum_cons, List.sum_nil]
    omega

/-- A well-formed stack has at most one frame per level from its thread's leaf up. -/
theorem Stacked.length_le {w : Wiring τ} {nodes : Nat} {v : Variant} {leaf : Nat}
    (hw : w.WellShaped nodes) {l : List Frame} (h : Stacked w.parent leaf l)
    (hvalid : ∀ g ∈ l, g.Valid v nodes) : l.length ≤ depth w.parent leaf + 1 := by
  simpa using Stacked.sum_le hw (fun _ => 1) (fun _ => 1) (fun _ _ => le_rfl) h hvalid

/-- An ordinary step of thread `t` is a step of its innermost frame. -/
theorem step_run_eq_some [DecidableEq τ] {v : Variant} {w : Wiring τ} {s s' : State τ} {t : τ}
    {e : Event} (h : step v w s t .run = some (s', e)) :
    ∃ f callers a, (s.threads t).stack = f :: callers ∧
      f.step v w.parent s.X s.announce = some a ∧ s.apply t f callers a = some (s', e) := by
  cases hstack : (s.threads t).stack with
  | nil => simp [step, hstack] at h
  | cons f callers =>
    simp only [step, hstack] at h
    obtain ⟨a, ha, happly⟩ := Option.bind_eq_some.mp h
    exact ⟨f, callers, a, rfl, ha, happly⟩

section SoloRun

variable [DecidableEq τ] {v : Variant} {w : Wiring τ} {nodes : Nat} {s s' : State τ}
  {t : τ} {e : Event}

/-- A busy thread always has an ordinary next step: its innermost frame is not
waiting, and the caller a returning frame resumes is waiting for it. -/
theorem run_enabled (hshaped : Shaped v w nodes s) (htop : s.TopActive)
    (hbusy : (s.threads t).stack ≠ []) : ∃ r, step v w s t .run = some r := by
  obtain ⟨f, callers, hstack⟩ := List.exists_cons_of_ne_nil hbusy
  have hsome : (f.step v w.parent s.X s.announce).isSome :=
    Frame.step_isSome (htop t f callers hstack)
  obtain ⟨a, ha⟩ := Option.isSome_iff_exists.mp hsome
  have happly : (s.apply t f callers a).isSome := by
    cases a with
    | ret =>
      cases callers with
      | nil => rfl
      | cons caller rest =>
        have hchain : Chain w.parent (w.leaf t) (f :: caller :: rest) :=
          (hstack ▸ hshaped.stacked t : Stacked w.parent (w.leaf t) (f :: caller :: rest)).chain_of_cons_cons
        simpa [State.apply] using hchain.1.resume_isSome
    | _ => rfl
  obtain ⟨r, hr⟩ := Option.isSome_iff_exists.mp happly
  exact ⟨r, by simp [step, hstack, ha, hr]⟩

end SoloRun

/-! ### The constructed tree -/

/-- In a tree whose parent formula is `(c - 1)/K`, the nodes of level `d` have
depth `d`. -/
theorem depth_of_level {w : Wiring τ} {nodes K : Nat} (hw : w.WellShaped nodes) (hK : 1 ≤ K)
    (hparent : ∀ c, 0 < c → c < nodes → w.parent c = (c - 1) / K) :
    ∀ d n, Snzi.Tree.levelStart K d ≤ n → n < Snzi.Tree.levelStart K (d + 1) → n < nodes →
      depth w.parent n = d
  | 0, n, _, hhi, _ => by
    obtain rfl : n = 0 := by simpa using hhi
    rfl
  | d + 1, n, hlo, hhi, hn => by
    have hpos : 0 < n := lt_of_lt_of_le (by simp) hlo
    obtain ⟨hplo, hphi⟩ := Snzi.Tree.parent_mem_level K d n hK hlo hhi
    rw [depth_parent hw hpos hn, hparent n hpos hn,
      depth_of_level hw hK hparent d _ hplo hphi (by omega)]

end Snzi.Machine

namespace Snzi.Tree

/-- The wiring of a constructed tree reads the parent formula `(c - 1)/K`. -/
theorem Shape.wiring_parent {τ : Type} (shape : Shape) (tidOf : τ → SizeType) {c : Nat}
    (hc : 0 < c) (hcN : c < shape.totalNodes.toNat) :
    (shape.wiring tidOf).parent c = (c - 1) / shape.arity.toNat := by
  have hc64 : (BitVec.ofNat 64 c).toNat = c :=
    Nat.mod_eq_of_lt (lt_trans hcN shape.totalNodes.isLt)
  show (shape.parent (BitVec.ofNat 64 c)).toNat = _
  rw [Shape.parent_toNat _ _ (by omega), hc64]

end Snzi.Tree

namespace Snzi.Machine

open Snzi.Tree in
/-- In every tree a constructor builds, with arity `K ≥ 2` and height `H`, every
thread's leaf lies at depth `H`, whatever the thread identifiers. -/
theorem construct_leaf_depth (ceilQuotient : SizeType → SizeType → SizeType)
    (allocates : SizeType → Bool) (K H T : SizeType) (hK : 2 ≤ K.toNat)
    (hfit : K.toNat ^ (H.toNat + 1) < 2 ^ 64) (shape : Shape)
    (hshape : construct ceilQuotient allocates K H T = .returned shape) :
    ∀ {τ : Type} (tidOf : τ → SizeType), (shape.wiring tidOf).WellShaped shape.totalNodes.toNat ∧
      ∀ t, depth (shape.wiring tidOf).parent ((shape.wiring tidOf).leaf t) = H.toNat := by
  obtain ⟨harity, hN, -⟩ := construct_levels ceilQuotient allocates K H T hK hfit shape hshape
  obtain ⟨-, hwell⟩ := construct_wellShaped ceilQuotient allocates K H T hK hfit shape hshape
  refine fun tidOf => ⟨(hwell tidOf).1, fun t => ?_⟩
  obtain ⟨hw, hlo, -⟩ := hwell tidOf
  exact depth_of_level hw (by omega) (fun c hc hcN => harity ▸ shape.wiring_parent tidOf hc hcN)
    _ _ (hlo t) (hN ▸ hw.leaf_lt t) (hw.leaf_lt t)

open Snzi.Tree in
/-- In every tree a constructor builds, with arity `K ≥ 2` and height `H`, in every
reachable state of every class, every thread's call stack has at most `H + 1`
frames: the recursion of `node::Arrive` and `node::Depart` up the tree nests one
call per level and no deeper. -/
theorem stack_depth_bounded (ceilQuotient : SizeType → SizeType → SizeType)
    (allocates : SizeType → Bool) (K H T : SizeType) (hK : 2 ≤ K.toNat)
    (hfit : K.toNat ^ (H.toNat + 1) < 2 ^ 64) (shape : Shape)
    (hshape : construct ceilQuotient allocates K H T = .returned shape) :
    ∀ {τ : Type} [DecidableEq τ] (tidOf : τ → SizeType) (v : Variant)
      (trace : List (τ × Event)) (s : State τ),
        Reach v (shape.wiring tidOf) trace s → ∀ t, (s.threads t).stack.length ≤ H.toNat + 1 := by
  refine fun tidOf v trace s hreach t => ?_
  obtain ⟨hw, hdepth⟩ :=
    construct_leaf_depth ceilQuotient allocates K H T hK hfit shape hshape tidOf
  have hshaped := Shaped.reach hw hreach
  simpa only [hdepth t] using (hshaped.stacked t).length_le hw (hshaped.valid t)

open Snzi.Tree in
/-- `stack_depth_bounded` for the binary tree of height one. -/
theorem stack_depth_bounded_binary :
    ∃ shape, construct (fun _ _ => 1) (fun _ => true) 2#64 1#64 2#64 =
        .returned shape ∧
      ∀ {τ : Type} [DecidableEq τ] (tidOf : τ → SizeType) (v : Variant)
        (trace : List (τ × Event)) (s : State τ),
          Reach v (shape.wiring tidOf) trace s → ∀ t, (s.threads t).stack.length ≤ (1#64).toNat + 1 :=
  ⟨_, rfl, stack_depth_bounded (fun _ _ => 1) (fun _ => true) 2#64 1#64 2#64
    (by decide) (by decide) _ rfl⟩

/-- In the binary tree of height one, an operation run alone takes at most 40 steps. -/
example : soloBound 1 = 40 := by decide

end Snzi.Machine
