import Snzi.Machine.Completions

/-!
# The root indicates the surplus

A thread's stake in the indicator is its client's count of completed `Arrive`s not
yet undone, plus one while its stack holds a share: an `Arrive` holds one from its
first increment on, a `Depart` until its last decrement.  The surplus is the sum of
the stakes.  At every reachable state of the no- and semi-contention classes the
root counter is non-zero exactly when the surplus is positive
(`Invariant.root_iff_surplus`): a share held anywhere keeps every counter on the
way up non-zero, and a non-zero counter is held up by a share or by a child below
it.

How the stacks are built matters too: a `Depart` frame runs on top of an `Arrive`
only as its compensating `Depart`, while the `Arrive` below holds its increment, and
a `Query` runs alone.
-/

namespace Snzi.Machine

variable {τ : Type}

/-- What a frame holds: its counter share and its parent share. -/
def Frame.share (f : Frame) : Int := f.counterShare + f.parentShare

/-- What a stack holds. -/
def stackShare (l : List Frame) : Int := (l.map Frame.share).sum

@[simp] theorem stackShare_nil : stackShare [] = 0 := rfl

@[simp] theorem stackShare_cons (f : Frame) (l : List Frame) :
    stackShare (f :: l) = f.share + stackShare l := by
  simp [stackShare]

theorem Frame.share_nonneg (f : Frame) : 0 ≤ f.share := by
  have := counterShare_nonneg f
  have := parentShare_nonneg f
  unfold Frame.share
  omega

theorem stackShare_nonneg (l : List Frame) : 0 ≤ stackShare l := by
  induction l with
  | nil => simp
  | cons f l ih => have := f.share_nonneg; simp only [stackShare_cons]; omega

theorem Frame.weight_le_share {parent : Nat → Nat} {n : Nat} (f : Frame) :
    f.weight parent n ≤ f.share := by
  have := counterShare_nonneg f
  have := parentShare_nonneg f
  unfold Frame.weight Frame.share
  split <;> split <;> omega

theorem Frame.counterShare_le_weight {parent : Nat → Nat} (f : Frame) :
    f.counterShare ≤ f.weight parent f.node := by
  have := parentShare_nonneg f
  rw [Frame.weight, if_pos rfl]
  split <;> omega

theorem Frame.parentShare_le_weight {parent : Nat → Nat} (f : Frame) :
    f.parentShare ≤ f.weight parent (parent f.node) := by
  have := counterShare_nonneg f
  rw [Frame.weight, if_pos rfl]
  split <;> omega

theorem Thread.arrived_le_weight {parent : Nat → Nat} (th : Thread) (leaf : Nat) :
    (th.arrived : Int) ≤ th.weight parent leaf leaf := by
  have : 0 ≤ (th.stack.map (Frame.weight parent leaf)).sum := weight_sum_nonneg _
  rw [Thread.weight, if_pos rfl]
  omega

/-- A thread's stake in the indicator. -/
def Thread.stake (th : Thread) : Int :=
  th.arrived + if 0 < stackShare th.stack then 1 else 0

theorem Thread.stake_nonneg (th : Thread) : 0 ≤ th.stake := by
  unfold Thread.stake
  split <;> omega

/-- The surplus of `Arrive`s the indicator stands for. -/
def State.surplus [Fintype τ] (s : State τ) : Int :=
  ∑ t, (s.threads t).stake

/-! ### How stacks are built -/

section Stacks

variable {parent : Nat → Nat} {leaf : Nat}

/-- A waiting frame waits for an operation like its own, or it is an `Arrive`
holding its increment while its compensating `Depart` runs. -/
theorem Frame.Awaits.cases {caller callee : Frame} (h : caller.Awaits parent callee) :
    (caller.op = .depart ∧ callee.op = .depart) ∨ (caller.op = .arrive ∧ callee.op = .arrive) ∨
      (caller.op = .arrive ∧ callee.op = .depart ∧ 0 < caller.share) := by
  unfold Frame.Awaits at h
  split at h <;>
    simp_all [Frame.op, Frame.share, Frame.counterShare, Frame.parentShare]

theorem Frame.Awaits.callee_ne_query {caller callee : Frame} (h : caller.Awaits parent callee) :
    callee.op ≠ .query := by
  rcases h.cases with ⟨-, h⟩ | ⟨-, h⟩ | ⟨-, h, -⟩ <;> simp [h]

/-- Every frame of a `Depart` is a `Depart`'s. -/
theorem Chain.top_depart : ∀ {f : Frame} {l : List Frame}, Chain parent leaf (f :: l) →
    bottomOp (f :: l) = some .depart → f.op = .depart
  | f, [], _, hb => by simpa using hb
  | f, g :: l, h, hb => by
    have hg := Chain.top_depart h.2 (by simpa using hb)
    rcases h.1.cases with ⟨-, hf⟩ | ⟨hg', -⟩ | ⟨hg', -⟩ <;> simp_all

/-- A `Depart` frame on an `Arrive`'s stack runs above a frame holding a share. -/
theorem Chain.arrive_share : ∀ {f : Frame} {l : List Frame}, Chain parent leaf (f :: l) →
    bottomOp (f :: l) = some .arrive → f.op = .depart → 0 < stackShare l
  | f, [], _, hb, hf => by simp_all
  | f, g :: l, h, hb, hf => by
    have := stackShare_nonneg l
    have := g.share_nonneg
    rcases h.1.cases with ⟨hg, -⟩ | ⟨-, hf'⟩ | ⟨-, -, hshare⟩
    · have := Chain.arrive_share h.2 (by simpa using hb) hg
      simp only [stackShare_cons]; omega
    · simp_all
    · simp only [stackShare_cons]; omega

/-- A `Query` runs alone. -/
theorem Chain.query_alone : ∀ {f : Frame} {l : List Frame}, Chain parent leaf (f :: l) →
    bottomOp (f :: l) = some .query → l = [] ∧ f.op = .query
  | f, [], _, hb => by simpa using hb
  | f, g :: l, h, hb => by
    have := (Chain.query_alone h.2 (by simpa using hb)).2
    rcases h.1.cases with ⟨hg, -⟩ | ⟨hg, -⟩ | ⟨hg, -⟩ <;> simp_all

end Stacks

/-! ### The root and the surplus -/

section Indicator

variable [Fintype τ] {v : Variant} {w : Wiring τ} {nodes : Nat} {s : State τ}

theorem Invariant.pos_le_X (hinv : Invariant v w nodes s) {n c : Nat} (hn : n < nodes)
    (hc : c ∈ children w.parent nodes n) : pos (s.X c) ≤ s.X n := by
  have hchild := Finset.single_le_sum (fun c _ => pos_nonneg (s.X c)) hc
  have hthreads : 0 ≤ ∑ u, (s.threads u).weight w.parent (w.leaf u) n :=
    Finset.sum_nonneg fun u _ => Thread.weight_nonneg (s.threads u) (w.leaf u)
  rw [hinv.presence n hn]
  omega

theorem Invariant.weight_le_X (hinv : Invariant v w nodes s) {n : Nat} (hn : n < nodes) (t : τ) :
    (s.threads t).weight w.parent (w.leaf t) n ≤ s.X n := by
  have hthread : (s.threads t).weight w.parent (w.leaf t) n ≤
      ∑ u, (s.threads u).weight w.parent (w.leaf u) n :=
    Finset.single_le_sum (fun u _ => Thread.weight_nonneg (s.threads u) (w.leaf u))
      (Finset.mem_univ t)
  have hchildren : 0 ≤ ∑ c ∈ children w.parent nodes n, pos (s.X c) :=
    Finset.sum_nonneg fun c _ => pos_nonneg (s.X c)
  rw [hinv.presence n hn]
  omega

theorem Thread.frame_weight_le {parent : Nat → Nat} {leaf n : Nat} {th : Thread} {f : Frame}
    (hf : f ∈ th.stack) : f.weight parent n ≤ th.weight parent leaf n := by
  have := List.single_le_sum (fun x hx => by
      obtain ⟨g, -, rfl⟩ := List.mem_map.mp hx
      exact Frame.weight_nonneg g) _ (List.mem_map_of_mem (Frame.weight parent n) hf)
  unfold Thread.weight
  split <;> omega

/-- A non-zero counter keeps every counter above it non-zero. -/
theorem Invariant.root_pos (hw : w.WellShaped nodes) (hinv : Invariant v w nodes s) :
    ∀ m < nodes, 0 < s.X m → 0 < s.X 0 := by
  intro m
  induction m using Nat.strong_induction_on with
  | _ m ih =>
    intro hm hpos
    rcases Nat.eq_zero_or_pos m with rfl | hm0
    · exact hpos
    · have hup := hw.parent_lt m hm0 hm
      have := hinv.pos_le_X (by omega) (mem_children.mpr ⟨hm, by omega, rfl⟩)
      exact ih _ hup (by omega) (by simp only [pos, hpos, if_true] at this; omega)

/-- A thread with a stake holds up some counter. -/
theorem Invariant.pos_of_stake (hw : w.WellShaped nodes) (hinv : Invariant v w nodes s) (t : τ)
    (h : 0 < (s.threads t).stake) : ∃ m < nodes, 0 < s.X m := by
  by_cases harr : 0 < (s.threads t).arrived
  · refine ⟨w.leaf t, hw.leaf_lt t, ?_⟩
    calc (0 : Int) < (s.threads t).arrived := by exact_mod_cast harr
      _ ≤ (s.threads t).weight w.parent (w.leaf t) (w.leaf t) := Thread.arrived_le_weight _ _
      _ ≤ s.X (w.leaf t) := hinv.weight_le_X (hw.leaf_lt t) t
  have hshare : 0 < stackShare (s.threads t).stack := by
    unfold Thread.stake at h
    split at h <;> omega
  obtain ⟨f, hf, hpos⟩ := List.exists_lt_of_sum_lt (fun _ => (0 : Int)) Frame.share
    (by simpa [stackShare] using hshare)
  have hvalid := hinv.valid t f hf
  have hnode := Frame.node_lt hvalid hw.root_lt
  by_cases hcounter : 0 < f.counterShare
  · refine ⟨f.node, hnode, ?_⟩
    calc 0 < f.counterShare := hcounter
      _ ≤ f.weight w.parent f.node := f.counterShare_le_weight
      _ ≤ (s.threads t).weight w.parent (w.leaf t) f.node := Thread.frame_weight_le hf
      _ ≤ s.X f.node := hinv.weight_le_X hnode t
  · have hparent : 0 < f.parentShare := by
      have := counterShare_nonneg f
      unfold Frame.share at hpos
      omega
    have hf0 : 0 < f.node := by
      cases f <;> first | exact hvalid.1 | simp [Frame.parentShare] at hparent
    have hup : w.parent f.node < nodes := lt_trans (hw.parent_lt f.node hf0 hnode) hnode
    refine ⟨w.parent f.node, hup, ?_⟩
    calc 0 < f.parentShare := hparent
      _ ≤ f.weight w.parent (w.parent f.node) := f.parentShare_le_weight
      _ ≤ (s.threads t).weight w.parent (w.leaf t) (w.parent f.node) := Thread.frame_weight_le hf
      _ ≤ s.X (w.parent f.node) := hinv.weight_le_X hup t

/-- A non-zero counter is held up by a thread's stake. -/
theorem Invariant.stake_of_pos (hw : w.WellShaped nodes) (hinv : Invariant v w nodes s) :
    ∀ n < nodes, 0 < s.X n → ∃ t, 0 < (s.threads t).stake := by
  suffices h : ∀ k n, nodes - n = k → n < nodes → 0 < s.X n → ∃ t, 0 < (s.threads t).stake from
    fun n hn => h _ n rfl hn
  intro k
  induction k using Nat.strong_induction_on with
  | _ k ih =>
    intro n hk hn hpos
    rw [hinv.presence n hn] at hpos
    by_cases hchildren : 0 < ∑ c ∈ children w.parent nodes n, pos (s.X c)
    · obtain ⟨c, hc, hcpos⟩ := Finset.exists_lt_of_sum_lt (f := fun _ => (0 : Int))
        (by simpa using hchildren)
      obtain ⟨hcN, hc0, rfl⟩ := mem_children.mp hc
      have := hw.parent_lt c (Nat.pos_of_ne_zero hc0) hcN
      refine ih (nodes - c) (by omega) c rfl hcN ?_
      simp only [pos] at hcpos
      split at hcpos <;> omega
    · have hthreads : 0 < ∑ u, (s.threads u).weight w.parent (w.leaf u) n := by
        have := Finset.sum_nonneg fun c (_ : c ∈ children w.parent nodes n) => pos_nonneg (s.X c)
        omega
      obtain ⟨t, -, htpos⟩ := Finset.exists_lt_of_sum_lt (f := fun _ => (0 : Int))
        (by simpa using hthreads)
      refine ⟨t, ?_⟩
      have hle : ((s.threads t).stack.map (Frame.weight w.parent n)).sum ≤
          stackShare (s.threads t).stack :=
        List.sum_le_sum fun f _ => f.weight_le_share
      unfold Thread.weight at htpos
      unfold Thread.stake
      split at htpos <;> split <;> omega

/-- At every reachable state of the no- and semi-contention classes, the root
counter is non-zero exactly when the surplus is positive. -/
theorem Invariant.root_iff_surplus (hw : w.WellShaped nodes) (hinv : Invariant v w nodes s) :
    s.X 0 ≠ 0 ↔ 0 < s.surplus := by
  constructor
  · intro h0
    have hroot := hinv.X_nonneg hw.root_lt
    obtain ⟨t, ht⟩ := hinv.stake_of_pos hw 0 hw.root_lt (by omega)
    exact Finset.sum_pos' (fun u _ => (s.threads u).stake_nonneg) ⟨t, Finset.mem_univ t, ht⟩
  · intro hpos
    obtain ⟨t, -, ht⟩ := Finset.exists_lt_of_sum_lt (f := fun _ => (0 : Int))
      (by simpa [State.surplus] using hpos)
    obtain ⟨m, hm, hmpos⟩ := hinv.pos_of_stake hw t ht
    have := hinv.root_pos hw m hm hmpos
    omega

end Indicator

end Snzi.Machine
