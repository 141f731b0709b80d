import Mathlib.Algebra.Order.BigOperators.Group.Finset
import Mathlib.Algebra.Order.Group.Int
import Snzi.Machine.Shares
import Snzi.Tree.Indexing

/-!
# The presence invariant

A node's counter counts the presence below it: one for each child whose counter
is non-zero, one for each completed `Arrive` not yet undone by a thread whose leaf
it is, and the shares of the frames in flight.  `Invariant` states this accounting
together with the shape of every call stack, and `Invariant.reach` proves it of
every reachable state of the no- and semi-contention classes, from `Action.Law`
alone.  Non-negative counters follow: no counter is ever decremented from zero.
-/

namespace Snzi.Machine

variable {τ : Type}

/-- The wiring of a level-order tree of `nodes` nodes: node `0` is the root, every
other node's parent precedes it, and every thread's leaf is a node. -/
structure Wiring.WellShaped (w : Wiring τ) (nodes : Nat) : Prop where
  root_lt : 0 < nodes
  parent_lt : ∀ n, 0 < n → n < nodes → w.parent n < n
  leaf_lt : ∀ t, w.leaf t < nodes

/-- The children of node `n`: the indices `i ≠ 0` of the array with `parent(i) = n`. -/
def children (parent : Nat → Nat) (nodes n : Nat) : Finset Nat :=
  (Finset.range nodes).filter fun c => c ≠ 0 ∧ parent c = n

@[simp] theorem mem_children {parent : Nat → Nat} {nodes n c : Nat} :
    c ∈ children parent nodes n ↔ c < nodes ∧ c ≠ 0 ∧ parent c = n := by
  simp [children]

/-- What a frame holds of node `n`'s counter: its counter share if it runs on `n`,
its parent share if it runs on a child of `n`. -/
def Frame.weight (parent : Nat → Nat) (n : Nat) (f : Frame) : Int :=
  (if f.node = n then f.counterShare else 0) + (if parent f.node = n then f.parentShare else 0)

/-- What a thread holds of node `n`'s counter. -/
def Thread.weight (parent : Nat → Nat) (leaf n : Nat) (th : Thread) : Int :=
  (if leaf = n then (th.arrived : Int) else 0) + (th.stack.map (Frame.weight parent n)).sum

/-- The accounting at node `n`. -/
def State.Presence [Fintype τ] (w : Wiring τ) (nodes : Nat) (s : State τ) (n : Nat) : Prop :=
  s.X n = ∑ c ∈ children w.parent nodes n, pos (s.X c) +
    ∑ t, (s.threads t).weight w.parent (w.leaf t) n

/-- A call stack, innermost frame first: every frame waits for the one above it,
and the outermost runs on the thread's leaf (or is a `Query`, on the root). -/
def Chain (parent : Nat → Nat) (leaf : Nat) : List Frame → Prop
  | [] => True
  | [f] => f.op = .query ∨ f.node = leaf
  | callee :: caller :: rest => caller.Awaits parent callee ∧ Chain parent leaf (caller :: rest)

/-- The invariant of the reachable states. -/
structure Invariant [Fintype τ] (v : Variant) (w : Wiring τ) (nodes : Nat) (s : State τ) :
    Prop where
  presence : ∀ n < nodes, s.Presence w nodes n
  valid : ∀ t, ∀ f ∈ (s.threads t).stack, f.Valid v nodes
  chain : ∀ t, Chain w.parent (w.leaf t) (s.threads t).stack

/-! ### Sums under a point update -/

theorem sum_comp_update {α β : Type} [DecidableEq α] (S : Finset α) (g : α → β → Int)
    (f : α → β) (i : α) (b : β) :
    ∑ x ∈ S, g x (Function.update f i b x) =
      ∑ x ∈ S, g x (f x) + (if i ∈ S then g i b - g i (f i) else 0) := by
  split
  · rw [← Finset.add_sum_erase _ _ ‹i ∈ S›, ← Finset.add_sum_erase _ _ ‹i ∈ S›,
      Finset.sum_congr rfl fun x hx => by rw [Function.update_noteq (Finset.ne_of_mem_erase hx)]]
    simp only [Function.update_same]
    omega
  · rw [Finset.sum_congr rfl fun x hx => by
      rw [Function.update_noteq (ne_of_mem_of_not_mem hx ‹i ∉ S›)], add_zero]

/-! ### Weights -/

section Weights

variable {parent : Nat → Nat} {n : Nat}

theorem Frame.weight_congr {f f' : Frame} (hnode : f'.node = f.node)
    (hcounter : f'.counterShare = f.counterShare) (hparent : f'.parentShare = f.parentShare) :
    f'.weight parent n = f.weight parent n := by
  simp only [Frame.weight, hnode, hcounter, hparent]

@[simp] theorem Thread.weight_stack (th : Thread) (leaf : Nat) (l : List Frame) :
    { th with stack := l }.weight parent leaf n =
      (if leaf = n then (th.arrived : Int) else 0) + (l.map (Frame.weight parent n)).sum := rfl

@[simp] theorem arriveOn_weight (m : Nat) : (arriveOn m).weight parent n = 0 := by
  simp [Frame.weight]

@[simp] theorem departOn_weight (m : Nat) :
    (departOn m).weight parent n = if m = n then 1 else 0 := by
  simp [Frame.weight]

theorem Frame.weight_nonneg (f : Frame) : 0 ≤ f.weight parent n := by
  have := counterShare_nonneg f
  have := parentShare_nonneg f
  unfold Frame.weight
  split <;> split <;> omega

theorem weight_sum_nonneg (l : List Frame) : 0 ≤ (l.map (Frame.weight parent n)).sum := by
  induction l with
  | nil => simp
  | cons f l ih =>
    have : 0 ≤ f.weight parent n := Frame.weight_nonneg f
    simp only [List.map_cons, List.sum_cons]
    omega

theorem Thread.weight_nonneg (th : Thread) (leaf : Nat) : 0 ≤ th.weight parent leaf n := by
  have : 0 ≤ (th.stack.map (Frame.weight parent n)).sum := weight_sum_nonneg th.stack
  unfold Thread.weight
  split <;> omega

end Weights

/-! ### Stacks -/

theorem Frame.Awaits.congr {parent : Nat → Nat} {caller f f' : Frame}
    (h : caller.Awaits parent f) (hnode : f'.node = f.node) (hop : f'.op = f.op) :
    caller.Awaits parent f' := by
  unfold Frame.Awaits at *
  split at h <;> simp_all

/-- Replacing the innermost frame by one on the same node, running the same
operation, keeps the stack a chain. -/
theorem Chain.replaceTop {parent : Nat → Nat} {leaf : Nat} {f f' : Frame} {l : List Frame}
    (h : Chain parent leaf (f :: l)) (hnode : f'.node = f.node) (hop : f'.op = f.op) :
    Chain parent leaf (f' :: l) := by
  cases l with
  | nil => simpa only [Chain, hnode, hop] using h
  | cons caller rest => exact ⟨h.1.congr hnode hop, h.2⟩

theorem Chain.tail {parent : Nat → Nat} {leaf : Nat} {f caller : Frame} {l : List Frame}
    (h : Chain parent leaf (f :: caller :: l)) : Chain parent leaf (caller :: l) := h.2

theorem Frame.node_lt {v : Variant} {nodes : Nat} {f : Frame} (hvalid : f.Valid v nodes)
    (hroot : 0 < nodes) : f.node < nodes := by
  cases f <;> simp_all [Frame.Valid, Frame.node]

theorem Frame.valid_not_direct {f : Frame} {nodes : Nat} {v : Variant}
    (hv : v ≠ .fullContention) (hvalid : f.Valid v nodes) (th : Thread) :
    th.finish f = { th with stack := [], arrived := th.arrived + if f.op = .arrive then 1 else 0 } := by
  cases f <;> simp_all [Frame.Valid, Thread.finish, Frame.op]

/-! ### How each action moves the weights -/

section Actions

variable {v : Variant} {nodes : Nat} {parent : Nat → Nat} {X : Nat → Int} {f : Frame} {n : Nat}

/-- The weight of a frame after a write, against before it. -/
theorem Frame.weight_write {f' : Frame} {m : Nat} {value : Int}
    (hlaw : (Action.write m value f').Law v parent nodes X f) :
    f'.weight parent n = f.weight parent n + (if f.node = n then f.op.delta else 0) +
      (if parent f.node = n then (if m = 0 then 0 else pos (X m) - pos value) else 0) := by
  obtain ⟨-, hnode, -, -, hcounter, hparent, -⟩ := hlaw
  unfold Frame.weight
  rw [hnode]
  split <;> split <;> omega

/-- A call splits the caller's weight between the caller and the callee. -/
theorem Frame.weight_call {caller callee : Frame}
    (hlaw : (Action.call caller callee).Law v parent nodes X f) :
    callee.weight parent n + caller.weight parent n = f.weight parent n := by
  obtain ⟨hnode, -, -, hcallee, hcounter, hparent, -, -⟩ := hlaw
  have hshare : callee.node = parent f.node ∧ callee.parentShare = 0 := by
    rcases hcallee with rfl | rfl <;> simp
  unfold Frame.weight
  rw [hnode, hshare.1, hshare.2, hcounter, ← hparent]
  split <;> split <;> split <;> omega

/-- A returning callee hands what it holds at its node to its caller's parent share. -/
theorem Frame.weight_resume {caller f' : Frame} {e : Event} (hvalid : caller.Valid v nodes)
    (hawait : caller.Awaits parent f) (hresume : caller.resume = some (f', e))
    (hret : Action.ret.Law v parent nodes X f) :
    f'.weight parent n = caller.weight parent n + f.weight parent n := by
  obtain ⟨hnode, -, hcounter, hparent, -⟩ := Frame.resume_law hvalid hawait hresume
  obtain ⟨hfparent, hfcounter⟩ := hret
  unfold Frame.weight
  rw [hnode, hcounter, hparent, hawait.node_eq, hfparent, hfcounter]
  split <;> split <;> split <;> omega

/-- The counter balance at every node survives a write: the counter written moves
with the writer's counter share, and its presence at the parent with the writer's
parent share. -/
theorem balance_write {τ : Type} {w : Wiring τ} (hw : w.WellShaped nodes) {f' : Frame} {m : Nat}
    {value : Int} (hlaw : (Action.write m value f').Law v w.parent nodes X f)
    (hvalid : f.Valid v nodes) (base : Int) :
    Function.update X m value n - ∑ c ∈ children w.parent nodes n, pos (Function.update X m value c) -
        (base + f'.weight w.parent n) =
      X n - ∑ c ∈ children w.parent nodes n, pos (X c) - (base + f.weight w.parent n) := by
  rw [Frame.weight_write hlaw, sum_comp_update]
  obtain ⟨hmf, -, -, hvalue, -, -, -⟩ := hlaw
  rw [← hmf]
  have hm : m < nodes := hmf ▸ Frame.node_lt hvalid hw.root_lt
  have hmem : m ∈ children w.parent nodes n ↔ m ≠ 0 ∧ w.parent m = n := by simp [hm]
  by_cases hmn : m = n
  · subst hmn
    have hself : ¬ (m ≠ 0 ∧ w.parent m = m) := fun ⟨h0, h⟩ =>
      absurd (hw.parent_lt m (Nat.pos_of_ne_zero h0) hm) (by omega)
    rw [if_neg (hmem.not.mpr hself), Function.update_same]
    split_ifs <;> omega
  · rw [Function.update_noteq (Ne.symm hmn), if_neg hmn]
    by_cases hc : m ≠ 0 ∧ w.parent m = n
    · rw [if_pos (hmem.mpr hc), if_pos hc.2, if_neg hc.1]
      omega
    · rw [if_neg (hmem.not.mpr hc)]
      split_ifs <;> omega

end Actions

/-! ### Invocations -/

/-- A frame as an invocation of `op` pushes it, on a thread whose operations land on
node `home`: it runs `op` there (a `Query` on the root, not yet loaded) and holds
nothing but the share of `home` that a `Depart` takes over from the client. -/
structure Frame.Fresh (v : Variant) (nodes home : Nat) (op : Op) (f : Frame) : Prop where
  op_eq : f.op = op
  node_eq : op = .query ∨ f.node = home
  parentShare_eq : f.parentShare = 0
  counterShare_eq : f.counterShare = if op = .depart then 1 else 0
  valid : f.Valid v nodes
  query_eq : op = .query → f = .rootQuery none

/-- The tree-path frame of an invocation on a leaf inside the array is fresh. -/
theorem Op.frameOn_fresh (v : Variant) {nodes leaf : Nat} (hleaf : leaf < nodes) (op : Op) :
    (op.frameOn leaf).Fresh v nodes leaf op where
  op_eq := Op.frameOn_op leaf op
  node_eq := by cases op <;> simp [Op.frameOn]
  parentShare_eq := (Op.frameOn_shares leaf op).2
  counterShare_eq := (Op.frameOn_shares leaf op).1
  valid := by
    cases op
    exacts [arriveOn_valid v hleaf, departOn_valid v hleaf, trivial]
  query_eq h := by subst h; rfl

/-! ### Preservation -/

section Preservation

variable [Fintype τ] {v : Variant} {w : Wiring τ} {nodes : Nat} {s s' : State τ} {t : τ}

theorem Invariant.init : Invariant v w nodes (State.init τ) where
  presence n _ := by
    simp [State.Presence, State.init, Thread.weight, pos]
  valid _ := by simp [State.init]
  chain _ := by simp [State.init, Chain]

theorem Invariant.X_nonneg (hinv : Invariant v w nodes s) {n : Nat} (hn : n < nodes) :
    0 ≤ s.X n := by
  have hchildren : 0 ≤ ∑ c ∈ children w.parent nodes n, pos (s.X c) :=
    Finset.sum_nonneg fun c _ => pos_nonneg (s.X c)
  have hthreads : 0 ≤ ∑ u, (s.threads u).weight w.parent (w.leaf u) n :=
    Finset.sum_nonneg fun u _ => Thread.weight_nonneg (s.threads u) (w.leaf u)
  rw [hinv.presence n hn]
  omega

/-- In an invariant state every step of a frame obeys `Action.Law`. -/
theorem Invariant.law (hw : w.WellShaped nodes) (hinv : Invariant v w nodes s) {f : Frame}
    {callers : List Frame} {a : Action} (hstack : (s.threads t).stack = f :: callers)
    (hact : f.step v w.parent s.X s.announce = some a ∨ f.spuriousStep v s.X = some a) :
    a.Law v w.parent nodes s.X f := by
  have hvalid := hinv.valid t f (by simp [hstack])
  rcases hact with h | h
  · exact Frame.step_law hvalid (hinv.X_nonneg (Frame.node_lt hvalid hw.root_lt)) h
  · exact Frame.spuriousStep_law hvalid h

variable [DecidableEq τ]

/-- A state that differs from an invariant one only in thread `t` and in the
counters keeps the invariant when, at every node, the counter minus the presence
of the children and minus what thread `t` holds is unchanged. -/
theorem Invariant.update (hinv : Invariant v w nodes s) (th' : Thread)
    (hthreads : s'.threads = Function.update s.threads t th')
    (hbalance : ∀ n < nodes,
      s'.X n - ∑ c ∈ children w.parent nodes n, pos (s'.X c) - th'.weight w.parent (w.leaf t) n =
        s.X n - ∑ c ∈ children w.parent nodes n, pos (s.X c) -
          (s.threads t).weight w.parent (w.leaf t) n)
    (hvalid : ∀ f ∈ th'.stack, f.Valid v nodes) (hchain : Chain w.parent (w.leaf t) th'.stack) :
    Invariant v w nodes s' where
  presence n hn := by
    have hsum := sum_comp_update Finset.univ (fun u th => th.weight w.parent (w.leaf u) n)
      s.threads t th'
    simp only [Finset.mem_univ, if_true] at hsum
    have hpres := hinv.presence n hn
    have hbal := hbalance n hn
    unfold State.Presence at *
    rw [hthreads, hsum]
    omega
  valid u := by
    rw [hthreads]
    by_cases hu : u = t
    · subst hu; simpa using hvalid
    · simpa [hu] using hinv.valid u
  chain u := by
    rw [hthreads]
    by_cases hu : u = t
    · subst hu; simpa using hchain
    · simpa [hu] using hinv.chain u

/-- Invoking an operation on an idle thread pushes a frame of it that holds, on the
thread's leaf, what the client gave up: one share of the leaf for a `Depart`,
nothing for an `Arrive` or a `Query`. -/
theorem Invariant.push (hinv : Invariant v w nodes s) (hidle : (s.threads t).stack = [])
    {op : Op} {f : Frame} (hf : f.Fresh v nodes (w.leaf t) op)
    (hpos : op = .depart → 0 < (s.threads t).arrived) :
    Invariant v w nodes (s.setThread t
      { s.threads t with
        stack := [f]
        arrived := if op = .depart then (s.threads t).arrived - 1 else (s.threads t).arrived }) := by
  refine hinv.update _ rfl (fun n _ => ?_) (by simpa using hf.valid)
    (by simpa [Chain, hf.op_eq] using hf.node_eq)
  simp only [State.setThread_X, Thread.weight, hidle, List.map_cons, List.map_nil, List.sum_cons,
    List.sum_nil, Frame.weight, hf.parentShare_eq, hf.counterShare_eq]
  cases op with
  | depart =>
    have := hpos rfl
    simp only [if_true, hf.node_eq.resolve_left nofun]
    split_ifs <;> omega
  | arrive | query => simp

/-- Invoking an operation pushes a frame holding what the client gave up. -/
theorem Invariant.invoke (hw : w.WellShaped nodes) (hv : v ≠ .fullContention)
    (hinv : Invariant v w nodes s) {op : Op} {th' : Thread} (hidle : (s.threads t).stack = [])
    (hinvoke : (s.threads t).invoke v (w.leaf t) op = some th') :
    Invariant v w nodes (s.setThread t th') := by
  obtain ⟨hpos, rfl⟩ := Thread.invoke_eq_some hv hinvoke
  exact hinv.push hidle (Op.frameOn_fresh v (hw.leaf_lt t) op) hpos

/-- Applying any action that obeys `Action.Law` keeps the invariant. -/
theorem Invariant.apply (hw : w.WellShaped nodes)
    (hinv : Invariant v w nodes s) {f : Frame} {callers : List Frame} {a : Action} {e : Event}
    (hstack : (s.threads t).stack = f :: callers) (hlaw : a.Law v w.parent nodes s.X f)
    (happly : s.apply t f callers a = some (s', e)) : Invariant v w nodes s' := by
  have hvalid : ∀ g ∈ f :: callers, g.Valid v nodes := hstack ▸ hinv.valid t
  have hchain : Chain w.parent (w.leaf t) (f :: callers) := hstack ▸ hinv.chain t
  have hweight : ∀ n, (s.threads t).weight w.parent (w.leaf t) n =
      (if w.leaf t = n then ((s.threads t).arrived : Int) else 0) +
        (f.weight w.parent n + (callers.map (Frame.weight w.parent n)).sum) := by
    intro n; simp [Thread.weight, hstack]
  cases a with
  | set f' | flag _ _ f' =>
    simp only [State.apply, Option.some.injEq, Prod.mk.injEq] at happly
    obtain ⟨rfl, -⟩ := happly
    obtain ⟨hnode, hop, hcounter, hparent, hvalid'⟩ := hlaw
    refine hinv.update _ rfl (fun n _ => ?_) ?_ (hchain.replaceTop hnode hop)
    · simp [hweight, Frame.weight_congr hnode hcounter hparent]
    · simp_all
  | write m value f' =>
    simp only [State.apply, Option.some.injEq, Prod.mk.injEq] at happly
    obtain ⟨rfl, -⟩ := happly
    obtain ⟨-, hnode, hop, -, -, -, hvalid'⟩ := id hlaw
    refine hinv.update _ rfl (fun n _ => ?_) ?_ (hchain.replaceTop hnode hop)
    · have := balance_write hw hlaw (hvalid f (by simp)) (n := n)
        ((if w.leaf t = n then ((s.threads t).arrived : Int) else 0) +
          (callers.map (Frame.weight w.parent n)).sum)
      simp only [Thread.weight_stack, List.map_cons, List.sum_cons, hweight]
      simp only at this ⊢
      omega
    · simp_all
  | call caller callee =>
    simp only [State.apply, Option.some.injEq, Prod.mk.injEq] at happly
    obtain ⟨rfl, -⟩ := happly
    have hsplit : ∀ n, callee.weight w.parent n + caller.weight w.parent n = f.weight w.parent n :=
      fun _ => Frame.weight_call hlaw
    obtain ⟨hnode, hop, h0, hcallee, -, -, hcaller, hawait⟩ := hlaw
    have hfnode := Frame.node_lt (hvalid f (by simp)) hw.root_lt
    have hup : w.parent f.node < nodes := lt_trans (hw.parent_lt _ (Nat.pos_of_ne_zero h0) hfnode) hfnode
    refine hinv.update _ rfl (fun n _ => ?_) ?_ ⟨hawait, hchain.replaceTop hnode hop⟩
    · have := hsplit n
      simp only [State.setThread_X, Thread.weight_stack, List.map_cons, List.sum_cons, hweight]
      omega
    · have : callee.Valid v nodes := by
        rcases hcallee with rfl | rfl
        exacts [arriveOn_valid v hup, departOn_valid v hup]
      simp_all
  | ret =>
    cases callers with
    | nil =>
      simp only [State.apply, Option.some.injEq, Prod.mk.injEq] at happly
      obtain ⟨rfl, -⟩ := happly
      obtain ⟨hparent, hcounter⟩ := hlaw
      have hbottom : f.op = .arrive → f.node = w.leaf t := fun harr =>
        (show f.op = .query ∨ f.node = w.leaf t from hchain).resolve_left (by simp [harr])
      refine hinv.update _ rfl (fun n _ => ?_) (by simp) (by simp [Chain])
      simp only [State.setThread_X, Thread.weight, hstack, Thread.finish_stack,
        Thread.finish_arrived, List.map_cons, List.map_nil, List.sum_cons, List.sum_nil,
        Frame.weight, hparent, hcounter, Nat.cast_add, Nat.cast_ite, Nat.cast_one, Nat.cast_zero]
      by_cases harr : f.op = .arrive
      · simp only [harr, if_true, hbottom harr]
        split_ifs <;> omega
      · simp only [harr, if_false]
        split_ifs <;> omega
    | cons caller rest =>
      simp only [State.apply, Option.map_eq_some', Prod.exists, Prod.mk.injEq] at happly
      obtain ⟨f', e', hresume, rfl, -⟩ := happly
      have hcaller := hvalid caller (by simp)
      have hmoved : ∀ n, f'.weight w.parent n = caller.weight w.parent n + f.weight w.parent n :=
        fun _ => Frame.weight_resume hcaller hchain.1 hresume hlaw
      obtain ⟨hnode, hop, -, -, hvalid', -⟩ := Frame.resume_law hcaller hchain.1 hresume
      refine hinv.update _ rfl (fun n _ => ?_) ?_ (hchain.tail.replaceTop hnode hop)
      · have := hmoved n
        simp only [State.setThread_X, Thread.weight_stack, List.map_cons, List.sum_cons, hweight]
        omega
      · simp_all

/-- One step of the no- or semi-contention class keeps the invariant. -/
theorem Invariant.step (hw : w.WellShaped nodes) (hv : v ≠ .fullContention)
    (hinv : Invariant v w nodes s) {choice : Choice} {e : Event}
    (hstep : step v w s t choice = some (s', e)) : Invariant v w nodes s' := by
  rcases step_eq_some hstep with ⟨op, th', hidle, hinvoke, rfl, -⟩ |
    ⟨f, callers, a, hstack, hact, happly⟩
  · exact hinv.invoke hw hv hidle hinvoke
  · exact hinv.apply hw hstack (hinv.law hw hstack hact) happly

/-- Every reachable state of the no- and semi-contention classes satisfies the
invariant. -/
theorem Invariant.reach (hw : w.WellShaped nodes) (hv : v ≠ .fullContention)
    {trace : List (τ × Event)} (hreach : Reach v w trace s) : Invariant v w nodes s := by
  induction hreach with
  | init => exact Invariant.init
  | step _ hstep ih => exact ih.step hw hv hstep

end Preservation

/-! ### The constructed tree -/

open Snzi.Tree in
/-- The tree a constructor builds is well shaped for every assignment of `tid`s to
threads; its leaves are its last level, and no node of the last level has a
child. -/
theorem construct_wellShaped (ceilQuotient : SizeType → SizeType → SizeType)
    (allocates : SizeType → Bool) (K H T : SizeType) (hK : 2 ≤ K.toNat)
    (hfit : K.toNat ^ (H.toNat + 1) < 2 ^ 64) (shape : Shape)
    (hshape : construct ceilQuotient allocates K H T = .returned shape) :
    shape.totalNodes.toNat - shape.totalLeafNodes.toNat = levelStart K.toNat H.toNat ∧
    ∀ {τ : Type} (tidOf : τ → SizeType),
      (shape.wiring tidOf).WellShaped shape.totalNodes.toNat ∧
      (∀ t, levelStart K.toNat H.toNat ≤ (shape.wiring tidOf).leaf t) ∧
      ∀ c, 0 < c → c < shape.totalNodes.toNat →
        (shape.wiring tidOf).parent c < levelStart K.toNat H.toNat := by
  obtain ⟨harity, hN, hleaves⟩ := construct_levels ceilQuotient allocates K H T hK hfit shape hshape
  have hwidth := levelStart_width K.toNat H.toNat (by omega)
  have hparent : ∀ c, 0 < c → c < shape.totalNodes.toNat →
      (shape.parent (BitVec.ofNat 64 c)).toNat = (c - 1) / K.toNat := by
    intro c hc hcN
    have hc64 : (BitVec.ofNat 64 c).toNat = c := by
      simp only [BitVec.toNat_ofNat]; exact Nat.mod_eq_of_lt (lt_trans hcN shape.totalNodes.isLt)
    rw [Shape.parent_toNat _ _ (by omega), hc64, harity]
  refine ⟨by omega, fun tidOf => ⟨⟨?_, fun c hc hcN => ?_, fun t => ?_⟩,
    fun t => ?_, fun c hc hcN => ?_⟩⟩
  · rw [hN]; simp
  · show (shape.parent (BitVec.ofNat 64 c)).toNat < c
    rw [hparent c hc hcN]
    exact Nat.lt_of_le_of_lt (Nat.div_le_self _ _) (by omega)
  · exact (shape.getLeafForThread_mem_lastLevel (by omega) hN hleaves (tidOf t)).2.trans_eq hN.symm
  · exact (shape.getLeafForThread_mem_lastLevel (by omega) hN hleaves (tidOf t)).1
  · show (shape.parent (BitVec.ofNat 64 c)).toNat < levelStart K.toNat H.toNat
    rw [hparent c hc hcN, Nat.div_lt_iff_lt_mul (by omega)]
    rw [hN, levelStart_succ] at hcN
    rw [Nat.mul_comm]
    omega

end Snzi.Machine
