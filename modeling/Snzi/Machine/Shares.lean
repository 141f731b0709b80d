import Snzi.Machine.Step

/-!
# What each frame accounts for

The counter of a node is not the number of operations present below it: frames
in flight hold parts of it.  An `Arrive` frame that has made its increment but
not returned holds one unit of its node's counter, and so does a `Depart` frame
that has not yet made its decrement.  One level up, a node's presence at its
parent is held by the `Arrive` frames that completed a parent `Arrive` they have
not undone, and by the `Depart` frames that took the counter from `1` to `0` and
have not yet called the parent's `Depart`.

`Action.Law` says once, for every step a frame can take, how these shares move;
`Frame.step_law` proves it by one case analysis over the code.
-/

namespace Snzi.Machine

/-- `[0 < x]`. -/
def pos (x : Int) : Int := if 0 < x then 1 else 0

/-- The part of its node's counter the frame holds. -/
def Frame.counterShare : Frame → Int
  | .rootArrive added => if added then 1 else 0
  | .rootDepart subtracted => if subtracted then 0 else 1
  | .rootQuery _ => 0
  | .arriveDirectly pc _ _ => if pc = .done then 1 else 0
  | .departDirectly subtracted => if subtracted then 0 else 1
  | .nodeArrive _ pc _ _ =>
      if pc = .after ∨ pc = .inParentDepart ∨ pc = .done then 1 else 0
  | .nodeDepart _ pc _ => if pc = .start ∨ pc = .loop ∨ pc = .cas then 1 else 0

/-- The part of its node's presence at the parent the frame holds. -/
def Frame.parentShare : Frame → Int
  | .nodeArrive _ .after oldx pArrInv => if pArrInv = true ∧ oldx ≠ 0 then 1 else 0
  | .nodeArrive _ .inParentDepart _ _ => 0
  | .nodeArrive _ .done _ _ => 0
  | .nodeArrive _ _ _ pArrInv => if pArrInv then 1 else 0
  | .nodeDepart _ .after oldx => if oldx = 1 then 1 else 0
  | _ => 0

/-- Frame-local facts: node frames run on a non-root node inside the array, an
`Arrive` has not completed a parent call before it reaches the loop, and only the
full-contention class runs the direct frames. -/
def Frame.Valid (v : Variant) (nodes : Nat) : Frame → Prop
  | .nodeArrive n pc _ pArrInv =>
      0 < n ∧ n < nodes ∧ (pc ≠ .loop ∧ pc ≠ .after ∧ pc ≠ .inParentDepart ∧ pc ≠ .done →
        pArrInv = false)
  | .nodeDepart n _ _ => 0 < n ∧ n < nodes
  | .arriveDirectly .. | .departDirectly _ => v = .fullContention
  | _ => True

/-- `callee` is the frame `caller` waits for: the matching operation on the
caller's parent. -/
def Frame.Awaits (parent : Nat → Nat) (caller callee : Frame) : Prop :=
  match caller with
  | .nodeArrive n .inParentArrive _ _ => callee.op = .arrive ∧ callee.node = parent n
  | .nodeArrive n .inParentDepart _ _ => callee.op = .depart ∧ callee.node = parent n
  | .nodeDepart n .inParentDepart _ => callee.op = .depart ∧ callee.node = parent n
  | _ => False

/-- The signed change an operation makes to every counter it writes. -/
def Op.delta : Op → Int
  | .arrive => 1
  | .depart => -1
  | .query => 0

/-- How a frame's step moves its shares, its node and its validity: what the code
of every frame can do, stated once for the invariants to use. -/
def Action.Law (v : Variant) (parent : Nat → Nat) (nodes : Nat) (X : Nat → Int) (f : Frame) :
    Action → Prop
  | .set f' | .flag _ _ f' =>
      f'.node = f.node ∧ f'.op = f.op ∧ f'.counterShare = f.counterShare ∧
        f'.parentShare = f.parentShare ∧ f'.Valid v nodes
  | .write m value f' =>
      m = f.node ∧ f'.node = f.node ∧ f'.op = f.op ∧ value = X m + f.op.delta ∧
        f'.counterShare = f.counterShare + f.op.delta ∧
        f'.parentShare - f.parentShare = (if m = 0 then 0 else pos (X m) - pos value) ∧
        f'.Valid v nodes
  | .call caller callee =>
      caller.node = f.node ∧ caller.op = f.op ∧ f.node ≠ 0 ∧
        (callee = arriveOn (parent f.node) ∨ callee = departOn (parent f.node)) ∧
        caller.counterShare = f.counterShare ∧
        caller.parentShare + callee.counterShare = f.parentShare ∧
        caller.Valid v nodes ∧ Frame.Awaits parent caller callee
  | .ret =>
      f.parentShare = 0 ∧ f.counterShare = if f.op = .arrive then 1 else 0

@[simp] theorem arriveOn_node (n : Nat) : (arriveOn n).node = n := by
  unfold arriveOn; split <;> simp_all [Frame.node]

@[simp] theorem departOn_node (n : Nat) : (departOn n).node = n := by
  unfold departOn; split <;> simp_all [Frame.node]

@[simp] theorem arriveOn_op (n : Nat) : (arriveOn n).op = .arrive := by
  unfold arriveOn; split <;> rfl

@[simp] theorem departOn_op (n : Nat) : (departOn n).op = .depart := by
  unfold departOn; split <;> rfl

@[simp] theorem arriveOn_shares (n : Nat) :
    (arriveOn n).counterShare = 0 ∧ (arriveOn n).parentShare = 0 := by
  unfold arriveOn; split <;> simp [Frame.counterShare, Frame.parentShare]

@[simp] theorem departOn_shares (n : Nat) :
    (departOn n).counterShare = 1 ∧ (departOn n).parentShare = 0 := by
  unfold departOn; split <;> simp [Frame.counterShare, Frame.parentShare]

@[simp] theorem Op.frameOn_op (leaf : Nat) (op : Op) : (op.frameOn leaf).op = op := by
  cases op
  · exact arriveOn_op leaf
  · exact departOn_op leaf
  · rfl

@[simp] theorem Op.frameOn_shares (leaf : Nat) (op : Op) :
    (op.frameOn leaf).counterShare = (if op = .depart then 1 else 0) ∧
      (op.frameOn leaf).parentShare = 0 := by
  cases op
  · simp [Op.frameOn]
  · simp [Op.frameOn]
  · exact ⟨rfl, rfl⟩

theorem arriveOn_valid (v : Variant) {n nodes : Nat} (hlt : n < nodes) :
    (arriveOn n).Valid v nodes := by
  unfold arriveOn; split <;> simp_all [Frame.Valid, Nat.pos_of_ne_zero]

theorem departOn_valid (v : Variant) {n nodes : Nat} (hlt : n < nodes) :
    (departOn n).Valid v nodes := by
  unfold departOn; split <;> simp_all [Frame.Valid, Nat.pos_of_ne_zero]

theorem Frame.Awaits.node_eq {parent : Nat → Nat} {caller callee : Frame}
    (h : caller.Awaits parent callee) : callee.node = parent caller.node := by
  unfold Frame.Awaits at h
  split at h <;> simp_all [Frame.node]

@[simp] theorem pos_nonneg (x : Int) : 0 ≤ pos x := by
  unfold pos; split <;> omega

theorem pos_le_one (x : Int) : pos x ≤ 1 := by
  unfold pos; split <;> omega

theorem counterShare_nonneg (f : Frame) : 0 ≤ f.counterShare := by
  unfold Frame.counterShare; split <;> (try split) <;> omega

theorem counterShare_le_one (f : Frame) : f.counterShare ≤ 1 := by
  unfold Frame.counterShare; split <;> (try split) <;> omega

theorem parentShare_nonneg (f : Frame) : 0 ≤ f.parentShare := by
  unfold Frame.parentShare; split <;> (try split) <;> omega

section Laws

variable {v : Variant} {parent : Nat → Nat} {nodes : Nat} {X : Nat → Int}
  {announce : Nat → Bool} {a : Action}

theorem nodeArriveStep_law {n : Nat} {pc : ArrivePc} {oldx : Int} {pArrInv : Bool}
    (hvalid : (Frame.nodeArrive n pc oldx pArrInv).Valid v nodes) (hX : 0 ≤ X n)
    (hstep : nodeArriveStep v parent X announce n oldx pArrInv pc = some a) :
    a.Law v parent nodes X (.nodeArrive n pc oldx pArrInv) := by
  obtain ⟨hn, hlt, hp⟩ := hvalid
  have hn0 : n ≠ 0 := by omega
  cases pc with
  | start =>
    cases hstep
    simp_all [Action.Law, Frame.node, Frame.op, Frame.counterShare, Frame.parentShare, Frame.Valid]
  | loop =>
    simp only [nodeArriveStep] at hstep
    split at hstep
    · obtain ⟨rfl, rfl⟩ := ‹oldx = 0 ∧ pArrInv = false›
      cases v <;> cases hstep <;> (try split) <;>
        simp [Action.Law, Frame.node, Frame.op, Frame.counterShare, Frame.parentShare,
          Frame.Valid, hn, hlt]
    · rename_i hcond
      simp only [casStep] at hstep
      split at hstep <;> cases hstep
      · rename_i heq
        subst heq
        refine ⟨rfl, rfl, rfl, rfl, by simp [Frame.counterShare, Frame.op, Op.delta], ?_,
          by simp [Frame.Valid, hn, hlt]⟩
        simp only [Frame.node, hn0, if_false, Frame.op, Op.delta, Frame.parentShare]
        by_cases h0 : X n = 0
        · have : pArrInv = true := by simpa [h0] using hcond
          simp [pos, h0, this]
        · have hpos : 0 < X n := lt_of_le_of_ne hX (Ne.symm h0)
          cases pArrInv <;> simp [pos, h0, hpos] <;> omega
      · simp [Action.Law, Frame.node, Frame.op, Frame.counterShare, Frame.parentShare,
          Frame.Valid, hn, hlt]
  | wait i =>
    have hp' : pArrInv = false := hp (by simp)
    simp only [nodeArriveStep] at hstep
    repeat' split at hstep
    all_goals cases hstep; simp [Action.Law, Frame.node, Frame.op, Frame.counterShare,
      Frame.parentShare, Frame.Valid, hn, hlt, hp']
  | setAnnounce =>
    have hp' : pArrInv = false := hp (by simp)
    cases hstep
    simp [Action.Law, Frame.node, Frame.op, Frame.counterShare, Frame.parentShare, Frame.Valid,
      hn, hlt, hp']
  | propagate =>
    have hp' : pArrInv = false := hp (by simp)
    cases hstep
    exact ⟨rfl, rfl, hn0, .inl rfl, rfl, by simp [Frame.parentShare, hp'],
      by simp [Frame.Valid, hn, hlt, hp'], by simp [Frame.Awaits]⟩
  | inParentArrive => cases hstep
  | after =>
    simp only [nodeArriveStep] at hstep
    split at hstep <;> cases hstep
    · obtain ⟨rfl, h0⟩ := ‹pArrInv = true ∧ oldx ≠ 0›
      exact ⟨rfl, rfl, hn0, .inr rfl, rfl, by simp [Frame.parentShare, h0],
        by simp [Frame.Valid, hn, hlt], by simp [Frame.Awaits]⟩
    · simp only [Action.Law, Frame.parentShare, Frame.counterShare, Frame.op]
      simp_all
  | inParentDepart => cases hstep
  | done =>
    cases hstep
    simp [Action.Law, Frame.parentShare, Frame.counterShare, Frame.op]

theorem nodeDepartStep_law {n : Nat} {pc : DepartPc} {oldx : Int}
    (hvalid : (Frame.nodeDepart n pc oldx).Valid v nodes)
    (hstep : nodeDepartStep v parent X n oldx pc = some a) :
    a.Law v parent nodes X (.nodeDepart n pc oldx) := by
  obtain ⟨hn, hlt⟩ := hvalid
  have hn0 : n ≠ 0 := by omega
  have hcas : ∀ pc', pc' = .loop ∨ pc' = .cas →
      (casStep X n oldx (oldx - 1) (.nodeDepart n .after) (.nodeDepart n .loop)).Law v parent
        nodes X (.nodeDepart n pc' oldx) := by
    rintro pc' hpc'
    unfold casStep
    split
    · rename_i heq
      subst heq
      refine ⟨rfl, rfl, rfl, by simp [Frame.op, Op.delta]; omega,
        by rcases hpc' with rfl | rfl <;> simp [Frame.counterShare, Frame.op, Op.delta], ?_,
        by simp [Frame.Valid, hn, hlt]⟩
      simp only [Frame.node, hn0, if_false, Frame.op, Op.delta]
      rcases hpc' with rfl | rfl <;> simp only [Frame.parentShare, pos] <;> split_ifs <;> omega
    · rcases hpc' with rfl | rfl <;> simp [Action.Law, Frame.node, Frame.op, Frame.counterShare,
        Frame.parentShare, Frame.Valid, hn, hlt]
  cases pc with
  | start =>
    cases hstep
    simp [Action.Law, Frame.node, Frame.op, Frame.counterShare, Frame.parentShare, Frame.Valid,
      hn, hlt]
  | loop =>
    simp only [nodeDepartStep] at hstep
    split at hstep <;> cases hstep
    · simp [Action.Law, Frame.node, Frame.op, Frame.counterShare, Frame.parentShare, Frame.Valid,
        hn, hlt]
    · exact hcas _ (.inl rfl)
  | cas => cases hstep; exact hcas _ (.inr rfl)
  | after =>
    simp only [nodeDepartStep] at hstep
    split at hstep <;> cases hstep
    · exact ⟨rfl, rfl, hn0, .inr rfl, rfl, by simp [Frame.parentShare, *],
        by simp [Frame.Valid, hn, hlt], by simp [Frame.Awaits]⟩
    · simp [Action.Law, Frame.parentShare, Frame.counterShare, Frame.op, *]
  | inParentDepart => cases hstep
  | done =>
    cases hstep
    simp [Action.Law, Frame.parentShare, Frame.counterShare, Frame.op]

/-- Every ordinary step of a valid frame obeys `Action.Law`.  The one fact the
code needs from outside the frame is that the counter it works on is not
negative, which the presence invariant supplies. -/
theorem Frame.step_law {f : Frame} (hvalid : f.Valid v nodes) (hX : 0 ≤ X f.node)
    (hstep : f.step v parent X announce = some a) : a.Law v parent nodes X f := by
  cases f with
  | nodeArrive n pc oldx pArrInv => exact nodeArriveStep_law hvalid hX hstep
  | nodeDepart n pc oldx => exact nodeDepartStep_law hvalid hstep
  | arriveDirectly pc oldx k =>
    cases pc <;> simp only [Frame.step, casStep] at hstep
    all_goals (try split at hstep) <;> cases hstep <;>
      simp_all [Action.Law, Frame.node, Frame.op, Frame.counterShare, Frame.parentShare,
        Frame.Valid, Op.delta]
  | rootArrive b | rootDepart b | departDirectly b =>
    cases b <;> cases hstep <;>
      simp_all [Action.Law, Frame.node, Frame.op, Frame.counterShare, Frame.parentShare,
        Frame.Valid, Op.delta, sub_eq_add_neg]
  | rootQuery result =>
    cases result <;> cases hstep <;>
      simp [Action.Law, Frame.node, Frame.op, Frame.counterShare, Frame.parentShare, Frame.Valid]

/-- A spurious failure only reloads `oldx`. -/
theorem Frame.spuriousStep_law {f : Frame} (hvalid : f.Valid v nodes)
    (hstep : f.spuriousStep v X = some a) : a.Law v parent nodes X f := by
  unfold Frame.spuriousStep at hstep
  split at hstep <;> (try split at hstep) <;> cases hstep <;>
    simp_all [Action.Law, Frame.node, Frame.op, Frame.counterShare, Frame.parentShare,
      Frame.Valid]

/-- A caller resumes where it stood, holding at its parent what the returning
callee held there. -/
theorem Frame.resume_law {caller callee f' : Frame} {e : Event}
    (hvalid : caller.Valid v nodes) (hawait : caller.Awaits parent callee)
    (hresume : caller.resume = some (f', e)) :
    f'.node = caller.node ∧ f'.op = caller.op ∧ f'.counterShare = caller.counterShare ∧
      f'.parentShare = caller.parentShare + (if callee.op = .arrive then 1 else 0) ∧
      f'.Valid v nodes ∧
      e = if callee.op = .arrive then .returnArrive caller.node else .returnDepart caller.node := by
  unfold Frame.Awaits at hawait
  split at hawait <;> simp only [Frame.resume, Option.some.injEq, Prod.mk.injEq] at hresume
  all_goals first
    | exact absurd hawait id
    | obtain ⟨rfl, rfl⟩ := hresume
      simp_all [Frame.node, Frame.op, Frame.counterShare, Frame.parentShare, Frame.Valid]

end Laws

end Snzi.Machine
