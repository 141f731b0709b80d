import Snzi.Machine.Solo

/-!
# Some operation always completes

An `Arrive` can lose its `compare_exchange` to other threads for ever: nothing
bounds how often another thread writes its node's counter between its load and its
exchange, so the classes are not wait-free.  They are lock-free.  At every
reachable state every busy thread can take its next step (`run_enabled`), so the
system never blocks; and every run of every class in which no operation completes
is short, at most `lockBound |τ| H` steps on a tree of height `H` besides its
spurious failures of `compare_exchange_weak`, from every reachable state and
whichever threads the scheduler picks, invocations included.

The argument is a potential over all threads.  A frame's `lockCost` is its solo
cost at the worse of the two values of its node's `announce` flag, so that no flag
store of another thread raises it; its `writesLeft` bounds the counter writes it
and its callees still make.  A busy thread owes the `lockCost` of its stack plus
`P` per write left, where `P` is `|τ|` times the most a stack can cost; an idle
thread owes what a fresh operation can.  Every step lowers the stepping thread's
debt by one, and a counter write lowers it by `P` more while it raises each other
thread's by at most what a stack can cost.  A counter write is the only way a step
touches another thread's debt, so the total drops at every step that completes
nothing.  A spurious failure writes nothing and leaves its frame owing no more, so
it never raises the total.
-/

namespace Snzi.Machine

variable {τ : Type}

/-! ### What a frame owes -/

/-- The steps left to a frame while its thread runs alone, at the worse of the two
values of its node's flag. -/
def Frame.lockCost (v : Variant) (parent : Nat → Nat) (X : Nat → Int) (f : Frame) : Nat :=
  max (f.soloCost v parent X fun _ => true) (f.soloCost v parent X fun _ => false)

/-- The most counter writes a `Depart` started on a node of depth `d` makes: one
on every node up to the root. -/
def departWrites : Nat → Nat
  | 0 => 1
  | d + 1 => departWrites d + 1

/-- The most counter writes an `Arrive` started on a node of depth `d` makes: its
own exchange, the parent's `Arrive` and the compensating `Depart` on the parent. -/
def arriveWrites : Nat → Nat
  | 0 => 1
  | d + 1 => arriveWrites d + departWrites d + 1

/-- The counter writes left to a `node::Arrive` frame and its callees; a call to the
parent is charged `callArrive` or `callDepart`. -/
def nodeArriveWrites (callArrive callDepart : Nat) (pc : ArrivePc) (oldx : Int) (pArrInv : Bool) :
    Nat :=
  match pc with
  | .start | .wait _ | .setAnnounce | .propagate => callArrive + callDepart + 1
  | .loop => (if pArrInv then 0 else callArrive) + callDepart + 1
  | .inParentArrive => callDepart + 1
  | .after => if pArrInv = true ∧ oldx ≠ 0 then callDepart else 0
  | .inParentDepart | .done => 0

/-- The counter writes left to a `node::Depart` frame and its callee. -/
def nodeDepartWrites (callDepart : Nat) (pc : DepartPc) (oldx : Int) : Nat :=
  match pc with
  | .start | .loop | .cas => callDepart + 1
  | .after => if oldx = 1 then callDepart else 0
  | .inParentDepart | .done => 0

/-- The counter writes a frame and its callees still make. -/
def Frame.writesLeft (parent : Nat → Nat) : Frame → Nat
  | .rootArrive done | .rootDepart done | .departDirectly done => if done then 0 else 1
  | .rootQuery _ => 0
  | .arriveDirectly pc _ _ => if pc = .done then 0 else 1
  | .nodeArrive n pc oldx pArrInv =>
      nodeArriveWrites (arriveWrites (depth parent (parent n))) (departWrites (depth parent (parent n)))
        pc oldx pArrInv
  | .nodeDepart n pc oldx => nodeDepartWrites (departWrites (depth parent (parent n))) pc oldx

/-- The writes charged for a callee: those of a fresh `Arrive` or `Depart` at the
callee's depth. -/
def Frame.callWrites (parent : Nat → Nat) (f : Frame) : Nat :=
  if f.op = .arrive then arriveWrites (depth parent f.node) else departWrites (depth parent f.node)

/-- The most counter writes an operation whose outermost frame runs on a node of
depth `h` makes, counting both operations at every depth up to the root. -/
def writeBound (h : Nat) : Nat := ∑ d ∈ Finset.range (h + 1), (arriveWrites d + departWrites d)

section Owed

variable {v : Variant} {parent : Nat → Nat} {X X' : Nat → Int} {w : Wiring τ} {nodes m : Nat}

/-- A frame's `lockCost` reads only its own node's counter. -/
theorem Frame.lockCost_congr (f : Frame) (hX : X' f.node = X f.node) :
    f.lockCost v parent X' = f.lockCost v parent X := by
  simp only [Frame.lockCost, Frame.soloCost_congr f hX rfl]

theorem arriveOn_lockCost (hw : w.WellShaped nodes) (hm : m < nodes) :
    (arriveOn m).lockCost v w.parent X ≤ arriveBound (depth w.parent m) :=
  max_le (arriveOn_soloCost hw hm) (arriveOn_soloCost hw hm)

theorem departOn_lockCost (hw : w.WellShaped nodes) (hm : m < nodes) :
    (departOn m).lockCost v w.parent X ≤ departBound (depth w.parent m) :=
  max_le (departOn_soloCost hw hm) (departOn_soloCost hw hm)

theorem Frame.lockCost_le (hw : w.WellShaped nodes) {f : Frame} (hvalid : f.Valid v nodes) :
    f.lockCost v w.parent X ≤
      arriveBound (depth w.parent f.node) + departBound (depth w.parent f.node) :=
  max_le (Frame.soloCost_le hw hvalid) (Frame.soloCost_le hw hvalid)

theorem Frame.resume_lockCost {caller f' : Frame} {e : Event} (h : caller.resume = some (f', e)) :
    f'.lockCost v parent X = caller.lockCost v parent X := by
  simp only [Frame.lockCost, Frame.resume_soloCost h]

theorem arriveOn_writesLeft (hw : w.WellShaped nodes) (hm : m < nodes) :
    (arriveOn m).writesLeft w.parent = arriveWrites (depth w.parent m) := by
  unfold arriveOn
  split
  · subst m; rfl
  · rw [depth_parent hw (Nat.pos_of_ne_zero ‹_›) hm]; rfl

theorem departOn_writesLeft (hw : w.WellShaped nodes) (hm : m < nodes) :
    (departOn m).writesLeft w.parent = departWrites (depth w.parent m) := by
  unfold departOn
  split
  · subst m; rfl
  · rw [depth_parent hw (Nat.pos_of_ne_zero ‹_›) hm]; rfl

/-- A valid frame has at most the writes of a fresh `Arrive` and a fresh `Depart`
at its depth left. -/
theorem Frame.writesLeft_le (hw : w.WellShaped nodes) {f : Frame} (hvalid : f.Valid v nodes) :
    f.writesLeft w.parent ≤
      arriveWrites (depth w.parent f.node) + departWrites (depth w.parent f.node) := by
  cases f with
  | nodeArrive n pc oldx pArrInv =>
    obtain ⟨hn, hlt, -⟩ := hvalid
    simp only [Frame.writesLeft, Frame.node, depth_parent hw hn hlt, arriveWrites, departWrites]
    cases pc <;> simp only [nodeArriveWrites] <;> (try split_ifs) <;> omega
  | nodeDepart n pc oldx =>
    obtain ⟨hn, hlt⟩ := hvalid
    simp only [Frame.writesLeft, Frame.node, depth_parent hw hn hlt, departWrites]
    cases pc <;> simp only [nodeDepartWrites] <;> (try split_ifs) <;> omega
  | arriveDirectly pc =>
    simp only [Frame.writesLeft, Frame.node, depth_zero, arriveWrites, departWrites]
    split_ifs <;> omega
  | rootArrive b | rootDepart b | departDirectly b | rootQuery b =>
    cases b <;> simp [Frame.writesLeft, Frame.node, depth_zero, arriveWrites, departWrites]

@[simp] theorem arriveOn_callWrites (m : Nat) :
    (arriveOn m).callWrites parent = arriveWrites (depth parent m) := by
  unfold arriveOn; split <;> simp_all [Frame.callWrites, Frame.op, Frame.node]

@[simp] theorem departOn_callWrites (m : Nat) :
    (departOn m).callWrites parent = departWrites (depth parent m) := by
  unfold departOn; split <;> simp_all [Frame.callWrites, Frame.op, Frame.node]

theorem Frame.resume_writesLeft {caller f' : Frame} {e : Event} (h : caller.resume = some (f', e)) :
    f'.writesLeft parent ≤ caller.writesLeft parent := by
  unfold Frame.resume at h
  split at h <;> cases h <;> simp [Frame.writesLeft, nodeArriveWrites, nodeDepartWrites]

end Owed

/-! ### Every step pays -/

/-- What a frame's step does to what it owes: the frame left in its place costs
less, a counter write touches only the frame's own node, a call leaves room for the
cost charged for the callee, and a frame that returns had a step left. -/
def Action.LockLowers (v : Variant) (parent : Nat → Nat) (X : Nat → Int) (f : Frame) :
    Action → Prop
  | .set f' | .flag _ _ f' => f'.lockCost v parent X < f.lockCost v parent X
  | .write m value f' => m = f.node ∧
      f'.lockCost v parent (Function.update X m value) < f.lockCost v parent X
  | .call caller callee => caller.lockCost v parent X + callee.callBound parent < f.lockCost v parent X
  | .ret => 0 < f.lockCost v parent X

/-- What a frame's step does to the counter writes it has left: a counter write uses
one up, a call hands the callee its charge, and nothing adds any. -/
def Action.UsesWrites (parent : Nat → Nat) (f : Frame) : Action → Prop
  | .set f' | .flag _ _ f' => f'.writesLeft parent ≤ f.writesLeft parent
  | .write _ _ f' => f'.writesLeft parent < f.writesLeft parent
  | .call caller callee => caller.writesLeft parent + callee.callWrites parent ≤ f.writesLeft parent
  | .ret => True

section Pays

variable {v : Variant} {parent : Nat → Nat} {nodes : Nat} {X : Nat → Int}
  {announce : Nat → Bool} {a : Action}

theorem nodeArriveStep_lockLowers {n : Nat} {pc : ArrivePc} {oldx : Int} {pArrInv : Bool}
    (hvalid : (Frame.nodeArrive n pc oldx pArrInv).Valid v nodes)
    (hstep : nodeArriveStep v parent X announce n oldx pArrInv pc = some a) :
    a.LockLowers v parent X (.nodeArrive n pc oldx pArrInv) := by
  obtain ⟨-, -, hp⟩ := hvalid
  cases pc with
  | start =>
    cases hstep
    simp only [Action.LockLowers, Frame.lockCost, Frame.soloCost, nodeArriveCost, arriveLoopCost_self]
    omega
  | loop =>
    simp only [nodeArriveStep] at hstep
    split at hstep
    · -- `!oldx && !pArrInv`: the flag is read here
      obtain ⟨rfl, rfl⟩ := ‹oldx = 0 ∧ pArrInv = false›
      cases v <;> cases hstep <;> (try split) <;>
        simp_all [Action.LockLowers, Frame.lockCost, Frame.soloCost, nodeArriveCost, arriveLoopCost,
          arriveZeroCost]
    · rename_i hcond
      simp only [casStep] at hstep
      split at hstep <;> cases hstep
      · simp [Action.LockLowers, Frame.lockCost, Frame.soloCost, nodeArriveCost, arriveLoopCost, hcond, *]
      · simp only [Action.LockLowers, Frame.lockCost, Frame.soloCost, nodeArriveCost, arriveLoopCost_self]
        simp [arriveLoopCost, hcond, *]
        omega
  | wait i =>
    obtain rfl : pArrInv = false := hp (by simp)
    simp only [nodeArriveStep] at hstep
    split at hstep
    · cases hstep
      simp_all [Action.LockLowers, Frame.lockCost, Frame.soloCost, nodeArriveCost, arriveLoopCost_self,
        arriveFreshCost, arriveWaitCost]
    · split at hstep <;> cases hstep
      · simp_all [Action.LockLowers, Frame.lockCost, Frame.soloCost, nodeArriveCost, arriveWaitCost]
        omega
      · simp_all [Action.LockLowers, Frame.lockCost, Frame.soloCost, nodeArriveCost, arriveWaitCost]
  | setAnnounce =>
    cases hstep; simp [Action.LockLowers, Frame.lockCost, Frame.soloCost, nodeArriveCost]
  | propagate =>
    cases hstep
    simp [Action.LockLowers, Frame.lockCost, Frame.soloCost, nodeArriveCost, arriveLoopCost_true,
      arrivePropagateCost, Frame.callBound]
    omega
  | inParentArrive | inParentDepart => cases hstep
  | after =>
    simp only [nodeArriveStep] at hstep
    split at hstep <;> cases hstep <;>
      simp [Action.LockLowers, Frame.lockCost, Frame.soloCost, nodeArriveCost, arriveAfterCost,
        Frame.callBound] <;>
      split_ifs <;> omega
  | done => cases hstep; simp [Action.LockLowers, Frame.lockCost, Frame.soloCost, nodeArriveCost]

/-- The `compare_exchange` of `node::Depart`, from the loop or after the flag store. -/
theorem departExchange_lockLowers {n : Nat} {pc : DepartPc} {oldx : Int}
    (hpc : pc = .loop ∨ pc = .cas) :
    (casStep X n oldx (oldx - 1) (.nodeDepart n .after) (.nodeDepart n .loop)).LockLowers v parent
      X (.nodeDepart n pc oldx) := by
  unfold casStep
  split <;> rcases hpc with rfl | rfl <;>
    simp_all [Action.LockLowers, Frame.lockCost, Frame.soloCost, nodeDepartCost, departExchangeCost] <;>
    omega

theorem nodeDepartStep_lockLowers {n : Nat} {pc : DepartPc} {oldx : Int}
    (hstep : nodeDepartStep v parent X n oldx pc = some a) :
    a.LockLowers v parent X (.nodeDepart n pc oldx) := by
  cases pc with
  | start =>
    cases hstep
    simp only [Action.LockLowers, Frame.lockCost, Frame.soloCost, nodeDepartCost, departExchangeCost,
      if_pos, max_self]
    omega
  | loop =>
    simp only [nodeDepartStep] at hstep
    split at hstep <;> cases hstep
    · simp_all [Action.LockLowers, Frame.lockCost, Frame.soloCost, nodeDepartCost, departFlagCost]
    · exact departExchange_lockLowers (.inl rfl)
  | cas => cases hstep; exact departExchange_lockLowers (.inr rfl)
  | after =>
    simp only [nodeDepartStep] at hstep
    split at hstep <;> cases hstep <;>
      simp [Action.LockLowers, Frame.lockCost, Frame.soloCost, nodeDepartCost, departAfterCost,
        Frame.callBound] <;>
      split_ifs <;> omega
  | inParentDepart => cases hstep
  | done => cases hstep; simp [Action.LockLowers, Frame.lockCost, Frame.soloCost, nodeDepartCost]

/-- Every ordinary step of a valid frame lowers what it owes as `Action.LockLowers`
says, whatever the flags read. -/
theorem Frame.step_lockLowers {f : Frame} (hvalid : f.Valid v nodes)
    (hstep : f.step v parent X announce = some a) : a.LockLowers v parent X f := by
  cases f with
  | nodeArrive n pc oldx pArrInv => exact nodeArriveStep_lockLowers hvalid hstep
  | nodeDepart n pc oldx => exact nodeDepartStep_lockLowers hstep
  | arriveDirectly pc oldx k =>
    cases pc <;> simp only [Frame.step, casStep] at hstep
    all_goals (try split at hstep) <;> cases hstep <;>
      simp_all [Action.LockLowers, Frame.lockCost, Frame.soloCost, Frame.node]
  | rootArrive b | rootDepart b | departDirectly b | rootQuery b =>
    cases b <;> cases hstep <;> simp [Action.LockLowers, Frame.lockCost, Frame.soloCost, Frame.node]

/-- Every ordinary step uses up counter writes as `Action.UsesWrites` says. -/
theorem Frame.step_usesWrites {f : Frame} (hstep : f.step v parent X announce = some a) :
    a.UsesWrites parent f := by
  unfold Frame.step at hstep
  split at hstep <;> (try unfold nodeArriveStep at hstep) <;> (try unfold nodeDepartStep at hstep) <;>
    (try split at hstep) <;> (repeat' split at hstep) <;> (try unfold casStep at hstep) <;>
    (try split at hstep) <;> cases hstep <;>
    simp_all [Action.UsesWrites, Frame.writesLeft, nodeArriveWrites, nodeDepartWrites] <;>
    (try split_ifs) <;> omega

/-- A spurious failure reloads `oldx` and goes round the loop again: the frame left
in its place owes no more, and has the same writes left. -/
theorem Frame.spuriousStep_lockCost {f : Frame} (h : f.spuriousStep v X = some a) :
    ∃ f', a = .set f' ∧ f'.lockCost v parent X ≤ f.lockCost v parent X ∧
      f'.writesLeft parent = f.writesLeft parent := by
  unfold Frame.spuriousStep at h
  split at h <;> (try split at h) <;> cases h <;> refine ⟨_, rfl, ?_, rfl⟩
  · -- the loop of `node::Arrive`
    simp only [Frame.lockCost, Frame.soloCost, nodeArriveCost, arriveLoopCost_self]
    refine max_le_max ?_ ?_ <;> simp only [arriveLoopCost, arriveFreshCost] <;> split_ifs <;>
      simp_all
  · -- the loop of `node::Depart`, weak only in the no-contention class
    subst v
    simp only [Frame.lockCost, Frame.soloCost, nodeDepartCost, departExchangeCost, departFlagCost]
    split_ifs <;> simp_all
  · -- the loop of `ArriveDirectly`
    simp only [Frame.lockCost, Frame.soloCost]
    split_ifs <;> simp_all

end Pays

/-! ### What a thread owes -/

/-- The `lockCost` of a whole stack. -/
def lockMeasure (v : Variant) (parent : Nat → Nat) (X : Nat → Int) (l : List Frame) : Nat :=
  (l.map (Frame.lockCost v parent X)).sum

/-- The counter writes a whole stack has left. -/
def writesMeasure (parent : Nat → Nat) (l : List Frame) : Nat :=
  (l.map (Frame.writesLeft parent)).sum

/-- What a thread owes, at `P` steps per counter write: its stack's costs and
writes, or `idle` when it has no operation running. -/
def Thread.debt (v : Variant) (parent : Nat → Nat) (X : Nat → Int) (P idle : Nat) (th : Thread) : Nat :=
  if th.stack = [] then idle else lockMeasure v parent X th.stack + P * writesMeasure parent th.stack

/-- The price of a counter write for `threads` threads on a tree of height `H`: a
write may raise each other thread's debt by the most a stack can cost. -/
def writePrice (threads H : Nat) : Nat := threads * soloBound H

/-- What an idle thread is charged: more than any operation can owe. -/
def idleDebt (threads H : Nat) : Nat := soloBound H + writePrice threads H * writeBound H + 1

/-- The most steps a run in which no operation completes can take, for `threads`
threads on a tree of height `H`. -/
def lockBound (threads H : Nat) : Nat := threads * idleDebt threads H

/-- What all threads owe. -/
def State.debt [Fintype τ] (v : Variant) (w : Wiring τ) (H : Nat) (s : State τ) : Nat :=
  ∑ t, (s.threads t).debt v w.parent s.X (writePrice (Fintype.card τ) H) (idleDebt (Fintype.card τ) H)

section Measures

variable {v : Variant} {parent : Nat → Nat} {X X' : Nat → Int}

@[simp] theorem lockMeasure_nil : lockMeasure v parent X [] = 0 := rfl

@[simp] theorem lockMeasure_cons (f : Frame) (l : List Frame) :
    lockMeasure v parent X (f :: l) = f.lockCost v parent X + lockMeasure v parent X l := by
  simp [lockMeasure]

@[simp] theorem writesMeasure_nil : writesMeasure parent [] = 0 := rfl

@[simp] theorem writesMeasure_cons (f : Frame) (l : List Frame) :
    writesMeasure parent (f :: l) = f.writesLeft parent + writesMeasure parent l := by
  simp [writesMeasure]

theorem lockMeasure_congr {l : List Frame} (h : ∀ g ∈ l, X' g.node = X g.node) :
    lockMeasure v parent X' l = lockMeasure v parent X l := by
  unfold lockMeasure
  rw [List.map_congr_left fun g hg => Frame.lockCost_congr g (h g hg)]

/-- A step that lowers the cost and adds no write lowers the debt. -/
theorem debt_lt {L L' W W' : Nat} (P : Nat) (hL : L' < L) (hW : W' ≤ W) : L' + P * W' < L + P * W := by
  have := Nat.mul_le_mul_left P hW
  omega

/-- A step that lowers the cost and uses up a write lowers the debt by `P` more. -/
theorem debt_add_lt {L L' W W' : Nat} (P : Nat) (hL : L' < L) (hW : W' < W) :
    L' + P * W' + P < L + P * W := by
  have := Nat.mul_le_mul_left P (Nat.succ_le_of_lt hW)
  rw [Nat.mul_succ] at this
  omega

end Measures

section Threads

variable [DecidableEq τ] {v : Variant} {w : Wiring τ} {nodes : Nat} {s s' : State τ}
  {t : τ} {e : Event}

omit [DecidableEq τ] in
/-- A stack costs at most `soloBound` at its thread's leaf's depth, whatever the
counters read. -/
theorem Shaped.lockMeasure_le (hw : w.WellShaped nodes) (hshaped : Shaped v w nodes s) (t : τ)
    (X : Nat → Int) :
    lockMeasure v w.parent X (s.threads t).stack ≤ soloBound (depth w.parent (w.leaf t)) :=
  Stacked.sum_le hw _ (fun d => arriveBound d + departBound d) (fun _ hf => Frame.lockCost_le hw hf)
    (hshaped.stacked t) (hshaped.valid t)

omit [DecidableEq τ] in
/-- A stack has at most `writeBound` at its thread's leaf's depth of writes left. -/
theorem Shaped.writesMeasure_le (hw : w.WellShaped nodes) (hshaped : Shaped v w nodes s) (t : τ) :
    writesMeasure w.parent (s.threads t).stack ≤ writeBound (depth w.parent (w.leaf t)) :=
  Stacked.sum_le hw _ (fun d => arriveWrites d + departWrites d) (fun _ hf => Frame.writesLeft_le hw hf)
    (hshaped.stacked t) (hshaped.valid t)

/-- An ordinary step that completes nothing leaves a busy thread busy, lowers the
cost of its stack, and either leaves the counters as they were and adds no write,
or uses up a write. -/
theorem measures_step (hw : w.WellShaped nodes) (hshaped : Shaped v w nodes s)
    (hstep : step v w s t .run = some (s', e)) (he : ∀ op r, e ≠ .respond op r) :
    (s.threads t).stack ≠ [] ∧ (s'.threads t).stack ≠ [] ∧
      lockMeasure v w.parent s'.X (s'.threads t).stack < lockMeasure v w.parent s.X (s.threads t).stack ∧
      (s'.X = s.X ∧ writesMeasure w.parent (s'.threads t).stack ≤ writesMeasure w.parent (s.threads t).stack ∨
        writesMeasure w.parent (s'.threads t).stack < writesMeasure w.parent (s.threads t).stack) := by
  obtain ⟨f, callers, a, hstack, hf, happly⟩ := step_run_eq_some hstep
  have hvalid : ∀ g ∈ f :: callers, g.Valid v nodes := hstack ▸ hshaped.valid t
  have hstacked : Stacked w.parent (w.leaf t) (f :: callers) := hstack ▸ hshaped.stacked t
  have hlow := Frame.step_lockLowers (hvalid f (by simp)) hf
  have huse : a.UsesWrites w.parent f := Frame.step_usesWrites hf
  have hdeeper := hstacked.node_lt_callers hw fun g hg => hvalid g (by simp [hg])
  rw [hstack]
  refine ⟨List.cons_ne_nil _ _, ?_⟩
  cases a with
  | set f' | flag m value f' =>
    simp only [State.apply, Option.some.injEq, Prod.mk.injEq] at happly
    obtain ⟨rfl, -⟩ := happly
    simp only [Action.LockLowers, Action.UsesWrites] at hlow huse
    simp only [State.setThread_threads, Function.update_same, State.setThread_X, lockMeasure_cons,
      writesMeasure_cons, ne_eq, List.cons_ne_nil, not_false_eq_true, true_and]
    omega
  | write m value f' =>
    simp only [State.apply, Option.some.injEq, Prod.mk.injEq] at happly
    obtain ⟨rfl, -⟩ := happly
    obtain ⟨rfl, hlt⟩ := hlow
    have hrest : lockMeasure v w.parent (Function.update s.X f.node value) callers =
        lockMeasure v w.parent s.X callers :=
      lockMeasure_congr fun g hg => Function.update_noteq (hdeeper g hg).ne' _ _
    simp only [Action.UsesWrites] at huse
    simp only [State.setThread_threads, Function.update_same, lockMeasure_cons, writesMeasure_cons,
      hrest, ne_eq, List.cons_ne_nil, not_false_eq_true, true_and]
    omega
  | call caller callee =>
    simp only [State.apply, Option.some.injEq, Prod.mk.injEq] at happly
    obtain ⟨rfl, -⟩ := happly
    obtain ⟨-, -, h0, hcallee, -⟩ := Frame.step_keeps (hvalid f (by simp)) hf
    have hfnode := Frame.node_lt (hvalid f (by simp)) hw.root_lt
    have hup : w.parent f.node < nodes :=
      (hw.parent_lt _ (Nat.pos_of_ne_zero h0) hfnode).trans hfnode
    have hbound : callee.lockCost v w.parent s.X ≤ callee.callBound w.parent ∧
        callee.writesLeft w.parent ≤ callee.callWrites w.parent := by
      rcases hcallee with rfl | rfl
      · exact ⟨by simpa [Frame.callBound] using arriveOn_lockCost hw hup,
          by simp [arriveOn_writesLeft hw hup]⟩
      · exact ⟨by simpa [Frame.callBound] using departOn_lockCost hw hup,
          by simp [departOn_writesLeft hw hup]⟩
    simp only [Action.LockLowers, Action.UsesWrites] at hlow huse
    simp only [State.setThread_threads, Function.update_same, State.setThread_X, lockMeasure_cons,
      writesMeasure_cons, ne_eq, List.cons_ne_nil, not_false_eq_true, true_and]
    omega
  | ret =>
    cases callers with
    | nil =>
      simp only [State.apply, Option.some.injEq, Prod.mk.injEq] at happly
      exact absurd happly.2.symm (he _ _)
    | cons caller rest =>
      simp only [State.apply, Option.map_eq_some', Prod.exists, Prod.mk.injEq] at happly
      obtain ⟨f', e', hresume, rfl, -⟩ := happly
      have : f'.writesLeft w.parent ≤ caller.writesLeft w.parent := Frame.resume_writesLeft hresume
      simp only [Action.LockLowers] at hlow
      simp only [State.setThread_threads, Function.update_same, State.setThread_X, lockMeasure_cons,
        writesMeasure_cons, Frame.resume_lockCost hresume, ne_eq, List.cons_ne_nil, not_false_eq_true,
        true_and]
      omega

/-- A spurious failure leaves the counters and the writes left as they were, keeps
the thread busy, and does not raise the cost of its stack. -/
theorem measures_spurious (hstep : step v w s t .spurious = some (s', e)) :
    (s.threads t).stack ≠ [] ∧ (s'.threads t).stack ≠ [] ∧ s'.X = s.X ∧
      lockMeasure v w.parent s.X (s'.threads t).stack ≤ lockMeasure v w.parent s.X (s.threads t).stack ∧
      writesMeasure w.parent (s'.threads t).stack = writesMeasure w.parent (s.threads t).stack := by
  cases hstack : (s.threads t).stack with
  | nil => simp [step, hstack] at hstep
  | cons f callers =>
    simp only [step, hstack] at hstep
    obtain ⟨a, ha, happly⟩ := Option.bind_eq_some.mp hstep
    have hcost : ∃ f', a = .set f' ∧ f'.lockCost v w.parent s.X ≤ f.lockCost v w.parent s.X ∧
        f'.writesLeft w.parent = f.writesLeft w.parent := Frame.spuriousStep_lockCost ha
    obtain ⟨f', rfl, hlock, hwrites⟩ := hcost
    simp only [State.apply, Option.some.injEq, Prod.mk.injEq] at happly
    obtain ⟨rfl, -⟩ := happly
    simp only [State.setThread_threads, Function.update_same, State.setThread_X, lockMeasure_cons,
      writesMeasure_cons, hwrites, ne_eq, List.cons_ne_nil, not_false_eq_true, true_and, and_true]
    omega

end Threads

/-- A spurious failure does not raise what the threads owe. -/
theorem State.debt_spurious [Fintype τ] [DecidableEq τ] {v : Variant} {w : Wiring τ} {H : Nat}
    {s s' : State τ} {t : τ} {e : Event} (hstep : step v w s t .spurious = some (s', e)) :
    s'.debt v w H ≤ s.debt v w H := by
  obtain ⟨hbefore, hafter, hX, hlock, hwrites⟩ := measures_spurious hstep
  refine Finset.sum_le_sum fun u _ => ?_
  by_cases hu : u = t
  · subst hu
    simp only [Thread.debt, if_neg hbefore, if_neg hafter, hX, hwrites]
    omega
  · rw [step_other hstep hu, hX]

theorem soloBound_mono {h h' : Nat} (hle : h ≤ h') : soloBound h ≤ soloBound h' :=
  Finset.sum_le_sum_of_subset (Finset.range_subset.2 (by omega))

theorem writeBound_mono {h h' : Nat} (hle : h ≤ h') : writeBound h ≤ writeBound h' :=
  Finset.sum_le_sum_of_subset (Finset.range_subset.2 (by omega))

/-- A step that lowers one thread's debt by more than `|τ|` times what it may add to
each other thread's lowers the total. -/
theorem sum_lt_of_step [Fintype τ] [DecidableEq τ] {f g : τ → Nat} (t : τ) (d : Nat)
    (hother : ∀ u ≠ t, g u ≤ f u + d) (hself : g t + Fintype.card τ * d < f t) :
    ∑ u, g u < ∑ u, f u := by
  rw [← Finset.add_sum_erase _ g (Finset.mem_univ t), ← Finset.add_sum_erase _ f (Finset.mem_univ t)]
  have hsum : ∑ u ∈ Finset.univ.erase t, g u ≤ ∑ u ∈ Finset.univ.erase t, (f u + d) :=
    Finset.sum_le_sum fun u hu => hother u (Finset.ne_of_mem_erase hu)
  rw [Finset.sum_add_distrib, Finset.sum_const, Finset.card_erase_of_mem (Finset.mem_univ t),
    smul_eq_mul, Finset.card_univ] at hsum
  have : (Fintype.card τ - 1) * d ≤ Fintype.card τ * d := Nat.mul_le_mul_right d (Nat.sub_le _ _)
  omega

/-- An invoked operation has a frame to run. -/
theorem Thread.invoke_ne_nil {v : Variant} {leaf : Nat} {th th' : Thread} {op : Op}
    (h : th.invoke v leaf op = some th') : th'.stack ≠ [] := by
  cases op <;> simp only [Thread.invoke] at h <;> (try split at h) <;> cases h <;> simp

section Runs

variable [Fintype τ] [DecidableEq τ] {v : Variant} {w : Wiring τ} {nodes H : Nat}
  {s s' : State τ} {t : τ} {e : Event}
  (hw : w.WellShaped nodes) (hH : ∀ t, depth w.parent (w.leaf t) ≤ H)
include hw hH

omit [DecidableEq τ] in
/-- A busy thread owes less than an idle one is charged, whatever the counters read. -/
theorem Shaped.busy_debt_lt (hshaped : Shaped v w nodes s) (u : τ) (X : Nat → Int) :
    lockMeasure v w.parent X (s.threads u).stack +
        writePrice (Fintype.card τ) H * writesMeasure w.parent (s.threads u).stack <
      idleDebt (Fintype.card τ) H := by
  have hL := (hshaped.lockMeasure_le hw u X).trans (soloBound_mono (hH u))
  have hW := Nat.mul_le_mul_left (writePrice (Fintype.card τ) H)
    ((hshaped.writesMeasure_le hw u).trans (writeBound_mono (hH u)))
  unfold idleDebt
  omega

omit [DecidableEq τ] in
theorem Shaped.debt_le (hshaped : Shaped v w nodes s) (u : τ) (X : Nat → Int) :
    (s.threads u).debt v w.parent X (writePrice (Fintype.card τ) H) (idleDebt (Fintype.card τ) H) ≤
      idleDebt (Fintype.card τ) H := by
  unfold Thread.debt
  split
  · exact le_rfl
  · exact (hshaped.busy_debt_lt hw hH u X).le

/-- Every step from a reachable state that is not a spurious failure and completes
no operation lowers what the threads owe. -/
theorem State.debt_step {trace : List (τ × Event)} (hreach : Reach v w trace s) {c : Choice}
    (hstep : step v w s t c = some (s', e)) (hc : c ≠ .spurious) (he : ∀ op r, e ≠ .respond op r) :
    s'.debt v w H < s.debt v w H := by
  have hshaped : Shaped v w nodes s := Shaped.reach hw hreach
  have hshaped' : Shaped v w nodes s' := Shaped.reach hw (hreach.step hstep)
  unfold State.debt
  cases c with
  | invoke op =>
    -- an idle thread takes on an operation, and owes less than it was charged
    rcases step_eq_some hstep with ⟨_, th', hidle, hinvoke, rfl, -⟩ | ⟨f, callers, -, hstack, -, -⟩
    · refine sum_lt_of_step t 0 (fun u hu => by simp [hu]) ?_
      have := hshaped'.busy_debt_lt hw hH t s.X
      simp only [State.setThread_threads, Function.update_same, State.setThread_X] at this ⊢
      simp only [Thread.debt, hidle, if_pos, if_neg (Thread.invoke_ne_nil hinvoke)]
      omega
    · simp [step, hstack] at hstep
  | run =>
    obtain ⟨hbefore, hafter, hlock, hwrites⟩ := measures_step hw hshaped hstep he
    rcases hwrites with ⟨hX, hW⟩ | hW
    · -- the counters are untouched: only the stepping thread's debt moves
      refine sum_lt_of_step t 0 (fun u hu => by rw [step_other hstep hu, hX]; omega) ?_
      rw [hX] at hlock
      simp only [Thread.debt, if_neg hbefore, if_neg hafter, hX]
      have := debt_lt (writePrice (Fintype.card τ) H) hlock hW
      omega
    · -- a counter write: each other thread owes at most one stack's cost more
      refine sum_lt_of_step t (soloBound H) (fun u hu => ?_) ?_
      · rw [step_other hstep hu]
        unfold Thread.debt
        split
        · omega
        · have := (hshaped.lockMeasure_le hw u s'.X).trans (soloBound_mono (hH u))
          omega
      · simp only [Thread.debt, if_neg hbefore, if_neg hafter]
        have := debt_add_lt (writePrice (Fintype.card τ) H) hlock hW
        unfold writePrice at this ⊢
        omega
  | spurious => exact absurd rfl hc

/-- Along a run from a reachable state with no completed operation, every step lowers
what the threads owe, except a spurious failure, which does not raise it. -/
theorem runSchedule_debt : ∀ (schedule : List (τ × Choice)) {trace trace' : List (τ × Event)}
    {s s' : State τ}, Reach v w trace s → runSchedule v w s schedule = some (trace', s') →
    (∀ p ∈ trace', ∀ op r, p.2 ≠ .respond op r) →
    schedule.length + s'.debt v w H ≤ s.debt v w H + schedule.countP fun p => p.2 == .spurious
  | [], _, _, _, _, _, hrun, _ => by
    simp only [runSchedule, Option.some.injEq, Prod.mk.injEq] at hrun
    obtain ⟨-, rfl⟩ := hrun
    simp
  | (u, c) :: rest, _, _, _, _, hreach, hrun, hresp => by
    simp only [runSchedule, Option.bind_eq_some, Option.map_eq_some'] at hrun
    obtain ⟨⟨s₁, e⟩, hstep, ⟨trace₁, s''⟩, hrest, hpair⟩ := hrun
    simp only [Prod.mk.injEq] at hpair
    obtain ⟨rfl, rfl⟩ := hpair
    have ih := runSchedule_debt rest (hreach.step hstep) hrest fun p hp => hresp p (by simp [hp])
    simp only [List.length_cons, List.countP_cons]
    by_cases hc : c = .spurious
    · subst hc
      have := State.debt_spurious (H := H) hstep
      simp only [beq_self_eq_true, if_true]
      omega
    · have hlt := State.debt_step hw hH hreach hstep hc (hresp (u, e) (by simp))
      simp only [beq_iff_eq, hc, if_false]
      omega

omit [DecidableEq τ] in
/-- What the threads of a shaped state owe is at most `lockBound`. -/
theorem Shaped.debt_le_lockBound (hshaped : Shaped v w nodes s) :
    s.debt v w H ≤ lockBound (Fintype.card τ) H := by
  unfold State.debt lockBound
  calc ∑ u, (s.threads u).debt v w.parent s.X _ _ ≤ ∑ _u : τ, idleDebt (Fintype.card τ) H :=
        Finset.sum_le_sum fun u _ => hshaped.debt_le hw hH u s.X
    _ = Fintype.card τ * idleDebt (Fintype.card τ) H := by simp

/-- From every reachable state of every class, a run in which no operation completes
has at most `lockBound` steps besides its spurious failures of
`compare_exchange_weak`, whichever threads the scheduler picks. -/
theorem lockFree_within {trace : List (τ × Event)} (hreach : Reach v w trace s)
    {schedule : List (τ × Choice)} {trace' : List (τ × Event)}
    (hrun : runSchedule v w s schedule = some (trace', s'))
    (hresp : ∀ p ∈ trace', ∀ op r, p.2 ≠ .respond op r) :
    schedule.length ≤ lockBound (Fintype.card τ) H + schedule.countP fun p => p.2 == .spurious := by
  have := runSchedule_debt hw hH schedule hreach hrun hresp
  have := (Shaped.reach hw hreach).debt_le_lockBound hw hH
  omega

end Runs

open Snzi.Tree in
/-- In every tree a constructor builds, with arity `K ≥ 2` and height `H`, all three
classes are lock-free: for any finite set of threads with any identifiers, at every
reachable state every busy thread can take its next step, and a run from there in
which no operation completes takes at most `lockBound |τ| H` steps besides its
spurious failures of `compare_exchange_weak`, whichever threads the scheduler runs
or has invoke. -/
theorem lock_freedom (ceilQuotient : SizeType → SizeType → SizeType)
    (allocates : SizeType → Bool) (K H T : SizeType) (hK : 2 ≤ K.toNat)
    (hfit : K.toNat ^ (H.toNat + 1) < 2 ^ 64) (shape : Shape)
    (hshape : construct ceilQuotient allocates K H T = .returned shape) :
    ∀ {τ : Type} [Fintype τ] [DecidableEq τ] (tidOf : τ → SizeType) (v : Variant)
      (trace : List (τ × Event)) (s : State τ),
        Reach v (shape.wiring tidOf) trace s →
        (∀ t, (s.threads t).stack ≠ [] → ∃ r, step v (shape.wiring tidOf) s t .run = some r) ∧
        ∀ (schedule : List (τ × Choice)) (trace' : List (τ × Event)) (s' : State τ),
          runSchedule v (shape.wiring tidOf) s schedule = some (trace', s') →
          (∀ p ∈ trace', ∀ op r, p.2 ≠ .respond op r) →
          schedule.length ≤ lockBound (Fintype.card τ) H.toNat +
            schedule.countP fun p => p.2 == .spurious := by
  refine fun tidOf v trace s hreach => ⟨fun t hbusy => ?_, fun schedule trace' s' hrun hresp => ?_⟩
  all_goals obtain ⟨hw, hdepth⟩ :=
      construct_leaf_depth ceilQuotient allocates K H T hK hfit shape hshape tidOf
  · exact run_enabled (Shaped.reach hw hreach) (State.TopActive.reach hreach) hbusy
  · exact lockFree_within hw (fun t => (hdepth t).le) hreach hrun hresp

open Snzi.Tree in
/-- `lock_freedom` for the binary tree of height one. -/
theorem lock_freedom_binary :
    ∃ shape, construct (fun _ _ => 1) (fun _ => true) 2#64 1#64 2#64 =
        .returned shape ∧
      ∀ {τ : Type} [Fintype τ] [DecidableEq τ] (tidOf : τ → SizeType) (v : Variant)
        (trace : List (τ × Event)) (s : State τ),
          Reach v (shape.wiring tidOf) trace s →
          (∀ t, (s.threads t).stack ≠ [] → ∃ r, step v (shape.wiring tidOf) s t .run = some r) ∧
          ∀ (schedule : List (τ × Choice)) (trace' : List (τ × Event)) (s' : State τ),
            runSchedule v (shape.wiring tidOf) s schedule = some (trace', s') →
            (∀ p ∈ trace', ∀ op r, p.2 ≠ .respond op r) →
            schedule.length ≤ lockBound (Fintype.card τ) 1 +
              schedule.countP fun p => p.2 == .spurious :=
  ⟨_, rfl, lock_freedom (fun _ _ => 1) (fun _ => true) 2#64 1#64 2#64
    (by decide) (by decide) _ rfl⟩

/-- Two threads on the binary tree of height one complete an operation within 1202
steps. -/
example : lockBound 2 1 = 1202 := by decide

end Snzi.Machine
