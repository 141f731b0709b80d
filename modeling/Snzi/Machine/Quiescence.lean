import Mathlib.Algebra.BigOperators.Ring
import Snzi.Machine.Completions

/-!
# Quiescent states

When no `Arrive` or `Depart` is in flight, no frame holds a share, and the presence
invariant becomes the tree's intended meaning: a leaf counts the surplus of its
threads, every other node counts its children with a non-zero counter, and once
every `Arrive` is matched by a `Depart` every counter is back at zero.

The `announce` flags do not return to `false` with the counters: in the
semi-contention class a flag can stay set at a node whose counter is zero.
-/

namespace Snzi.Machine

variable {τ : Type}

/-- No `Arrive` or `Depart` is in flight: every frame on every stack belongs to a
`Query`. -/
def State.Quiescent (s : State τ) : Prop :=
  ∀ t, ∀ f ∈ (s.threads t).stack, f.op = .query

theorem Frame.weight_of_query {parent : Nat → Nat} {n : Nat} {f : Frame} (h : f.op = .query) :
    f.weight parent n = 0 := by
  cases f <;> simp_all [Frame.op, Frame.weight, Frame.counterShare, Frame.parentShare]

theorem bottomOp_of_query : ∀ {l : List Frame}, (∀ f ∈ l, f.op = .query) →
    bottomOp l ≠ some .depart
  | [], _ => by simp
  | [f], h => by simp [h f (by simp)]
  | _ :: g :: rest, h => by
    rw [bottomOp_cons_cons]
    exact bottomOp_of_query fun f hf => h f (List.mem_cons_of_mem _ hf)

section Invariant

variable [Fintype τ] {v : Variant} {w : Wiring τ} {nodes : Nat} {s : State τ}

/-- At a quiescent state a node's counter is the presence of its children plus the
completed `Arrive`s not yet undone of the threads whose leaf it is. -/
theorem Invariant.quiescent_presence (hinv : Invariant v w nodes s) (hq : s.Quiescent) {n : Nat}
    (hn : n < nodes) :
    s.X n = ∑ c ∈ children w.parent nodes n, pos (s.X c) +
      ∑ t, if w.leaf t = n then ((s.threads t).arrived : Int) else 0 := by
  rw [hinv.presence n hn]
  congr 1
  refine Finset.sum_congr rfl fun t _ => ?_
  have hframes : ((s.threads t).stack.map (Frame.weight w.parent n)).sum = 0 :=
    List.sum_eq_zero fun x hx => by
      obtain ⟨f, hf, rfl⟩ := List.mem_map.mp hx
      exact Frame.weight_of_query (hq t f hf)
  simp [Thread.weight, hframes]

/-- The presence of the children of a node is the number of children whose counter
is non-zero. -/
theorem Invariant.sum_pos_children (hinv : Invariant v w nodes s) (n : Nat) :
    ∑ c ∈ children w.parent nodes n, pos (s.X c) =
      ((children w.parent nodes n).filter fun c => s.X c ≠ 0).card := by
  rw [Finset.card_filter, Nat.cast_sum]
  refine Finset.sum_congr rfl fun c hc => ?_
  have := hinv.X_nonneg (mem_children.mp hc).1
  unfold pos
  split_ifs <;> simp <;> omega

/-- With every thread's `Arrive`s undone and nothing in flight, every counter is
zero: by induction from the leaves up, each node's children are all at zero. -/
theorem Invariant.counters_zero (hw : w.WellShaped nodes) (hinv : Invariant v w nodes s)
    (hq : s.Quiescent) (hidle : ∀ t, (s.threads t).arrived = 0) :
    ∀ n < nodes, s.X n = 0 := by
  suffices h : ∀ k n, nodes - n = k → n < nodes → s.X n = 0 from fun n hn => h _ n rfl hn
  intro k
  induction k using Nat.strong_induction_on with
  | _ k ih =>
    intro n hk hn
    have hchildren : ∀ c ∈ children w.parent nodes n, pos (s.X c) = 0 := by
      intro c hc
      obtain ⟨hcN, hc0, rfl⟩ := mem_children.mp hc
      have := hw.parent_lt c (Nat.pos_of_ne_zero hc0) hcN
      rw [ih (nodes - c) (by omega) c rfl hcN]
      rfl
    rw [hinv.quiescent_presence hq hn, Finset.sum_eq_zero hchildren]
    simp [hidle]

end Invariant

open Snzi.Tree

/-- In the no- and semi-contention classes, over every constructed tree with
`K ≥ 2` and `K^(H+1) < 2^64` and at every quiescent reachable state: every leaf's
counter is the sum, over the threads `get_leaf_for_thread` maps to it, of their
completed `Arrive`s minus completed `Depart`s; every node above the leaves (the
root too when `H ≥ 1`) counts its children with a non-zero counter; and once
every thread's `Arrive`s are matched by its `Depart`s, every counter is zero. -/
theorem quiescent_counters (ceilQuotient : SizeType → SizeType → SizeType)
    (allocates : SizeType → Bool) (K H T : SizeType) (hK : 2 ≤ K.toNat)
    (hfit : K.toNat ^ (H.toNat + 1) < 2 ^ 64) (shape : Shape)
    (hshape : construct ceilQuotient allocates K H T = .returned shape) :
    ∀ {τ : Type} [Fintype τ] [DecidableEq τ] (tidOf : τ → SizeType) (v : Variant),
      v ≠ .fullContention → ∀ (trace : List (τ × Event)) (s : State τ),
        Reach v (shape.wiring tidOf) trace s → s.Quiescent →
        (∀ n, shape.totalNodes.toNat - shape.totalLeafNodes.toNat ≤ n →
          n < shape.totalNodes.toNat →
          s.X n = ∑ t ∈ Finset.univ.filter fun t => (shape.wiring tidOf).leaf t = n,
            ((completed trace t .arrive : Int) - completed trace t .depart)) ∧
        (∀ n < shape.totalNodes.toNat - shape.totalLeafNodes.toNat,
          s.X n = ((children (shape.wiring tidOf).parent shape.totalNodes.toNat n).filter
            fun c => s.X c ≠ 0).card) ∧
        ((∀ t, completed trace t .arrive = completed trace t .depart) →
          ∀ n < shape.totalNodes.toNat, s.X n = 0) := by
  obtain ⟨hinner, hwired⟩ := construct_wellShaped ceilQuotient allocates K H T hK hfit shape hshape
  refine fun tidOf v hv trace s hreach hq => ?_
  obtain ⟨hw, hleaf, hparent⟩ := hwired tidOf
  have hinv := Invariant.reach hw hv hreach
  have harrived : ∀ t, ((s.threads t).arrived : Int) =
      (completed trace t .arrive : Int) - completed trace t .depart := by
    intro t
    rw [completed_count hw hv hreach t, Thread.pendingArrived,
      if_neg (bottomOp_of_query (hq t))]
    simp
  refine ⟨fun n hlo hn => ?_, fun n hn => ?_, fun hbal => hinv.counters_zero hw hq fun t => ?_⟩
  · have hnone : children (shape.wiring tidOf).parent shape.totalNodes.toNat n = ∅ := by
      refine Finset.eq_empty_of_forall_not_mem fun c hc => ?_
      obtain ⟨hcN, hc0, hcn⟩ := mem_children.mp hc
      have := hparent c (Nat.pos_of_ne_zero hc0) hcN
      omega
    rw [hinv.quiescent_presence hq hn, hnone, Finset.sum_empty, zero_add, Finset.sum_filter]
    exact Finset.sum_congr rfl fun t _ => by rw [harrived]
  · have hnoleaf : ∀ t, (shape.wiring tidOf).leaf t ≠ n := fun t h => by
      have := hleaf t; omega
    rw [hinv.quiescent_presence hq (by omega), hinv.sum_pos_children]
    simp [hnoleaf]
  · have := harrived t
    rw [hbal t] at this
    omega

theorem quiescent_counters_binary :
    ∃ shape, construct (fun _ _ => 1) (fun _ => true) 2#64 1#64 2#64 =
        .returned shape ∧
      ∀ {τ : Type} [Fintype τ] [DecidableEq τ] (tidOf : τ → SizeType) (v : Variant),
        v ≠ .fullContention → ∀ (trace : List (τ × Event)) (s : State τ),
          Reach v (shape.wiring tidOf) trace s → s.Quiescent →
          (∀ n, shape.totalNodes.toNat - shape.totalLeafNodes.toNat ≤ n →
            n < shape.totalNodes.toNat →
            s.X n = ∑ t ∈ Finset.univ.filter fun t => (shape.wiring tidOf).leaf t = n,
              ((completed trace t .arrive : Int) - completed trace t .depart)) ∧
          (∀ n < shape.totalNodes.toNat - shape.totalLeafNodes.toNat,
            s.X n = ((children (shape.wiring tidOf).parent shape.totalNodes.toNat n).filter
              fun c => s.X c ≠ 0).card) ∧
          ((∀ t, completed trace t .arrive = completed trace t .depart) →
            ∀ n < shape.totalNodes.toNat, s.X n = 0) :=
  ⟨_, rfl, quiescent_counters (fun _ _ => 1) (fun _ => true) 2#64 1#64 2#64
    (by decide) (by decide) _ rfl⟩

/-- In the no- and semi-contention classes, over every constructed tree with
`K ≥ 2` and `K^(H+1) < 2^64`: at every quiescent reachable state where the
threads have completed as many `Depart`s as `Arrive`s in total, every counter of
the tree is zero.  (The `announce` flags need not be `false` there:
`staleAnnounce_semiContention`.) -/
theorem quiescent_balanced_counters_zero (ceilQuotient : SizeType → SizeType → SizeType)
    (allocates : SizeType → Bool) (K H T : SizeType) (hK : 2 ≤ K.toNat)
    (hfit : K.toNat ^ (H.toNat + 1) < 2 ^ 64) (shape : Shape)
    (hshape : construct ceilQuotient allocates K H T = .returned shape) :
    ∀ {τ : Type} [Fintype τ] [DecidableEq τ] (tidOf : τ → SizeType) (v : Variant),
      v ≠ .fullContention → ∀ (trace : List (τ × Event)) (s : State τ),
        Reach v (shape.wiring tidOf) trace s → s.Quiescent →
        ∑ t, completed trace t .arrive = ∑ t, completed trace t .depart →
        ∀ n < shape.totalNodes.toNat, s.X n = 0 := by
  obtain ⟨-, hwired⟩ := construct_wellShaped ceilQuotient allocates K H T hK hfit shape hshape
  refine fun tidOf v hv trace s hreach hq hbal => ?_
  have hw := (hwired tidOf).1
  have harrived : ∀ t, ((s.threads t).arrived : Int) =
      (completed trace t .arrive : Int) - completed trace t .depart := by
    intro t
    rw [completed_count hw hv hreach t, Thread.pendingArrived,
      if_neg (bottomOp_of_query (hq t))]
    simp
  have htotal : ∑ t, ((s.threads t).arrived : Int) = 0 := by
    simp only [harrived, Finset.sum_sub_distrib, ← Nat.cast_sum, hbal, sub_self]
  have hzero := (Finset.sum_eq_zero_iff_of_nonneg fun t _ => Int.natCast_nonneg _).mp htotal
  exact (Invariant.reach hw hv hreach).counters_zero hw hq fun t => by
    simpa using hzero t (Finset.mem_univ t)

theorem quiescent_balanced_counters_zero_binary :
    ∃ shape, construct (fun _ _ => 1) (fun _ => true) 2#64 1#64 2#64 =
        .returned shape ∧
      ∀ {τ : Type} [Fintype τ] [DecidableEq τ] (tidOf : τ → SizeType) (v : Variant),
        v ≠ .fullContention → ∀ (trace : List (τ × Event)) (s : State τ),
          Reach v (shape.wiring tidOf) trace s → s.Quiescent →
          ∑ t, completed trace t .arrive = ∑ t, completed trace t .depart →
          ∀ n < shape.totalNodes.toNat, s.X n = 0 :=
  ⟨_, rfl, quiescent_balanced_counters_zero (fun _ _ => 1) (fun _ => true) 2#64 1#64 2#64
    (by decide) (by decide) _ rfl⟩

/-- Two threads sharing leaf `1` of the binary tree of height one.  Thread `1`'s
`Arrive` finds the leaf at zero and `announce` clear, and stops before setting it.
Thread `0` runs a whole `Arrive` (setting `announce`), then begins its `Depart`:
it reads the counter `1` and clears `announce`.  Thread `1` now sets `announce`,
arrives at the root, finds the leaf at `1`, takes it to `2` and undoes its surplus
root `Arrive`; its `Depart` takes the leaf back to `1`.  Thread `0`'s
`compare_exchange` then takes the leaf from `1` to `0` and it departs from the
root. -/
def staleAnnounceSchedule : List (Fin 2 × Choice) :=
  [(1, .invoke .arrive), (1, .run), (1, .run),
   (0, .invoke .arrive), (0, .run), (0, .run), (0, .run), (0, .run), (0, .run), (0, .run),
   (0, .run), (0, .run),
   (0, .invoke .depart), (0, .run), (0, .run),
   (1, .run), (1, .run), (1, .run), (1, .run), (1, .run), (1, .run), (1, .run), (1, .run),
   (1, .run), (1, .run),
   (1, .invoke .depart), (1, .run), (1, .run), (1, .run),
   (0, .run), (0, .run), (0, .run), (0, .run), (0, .run)]

/-- In the semi-contention class, with `K = 2`, `H = 1`, `T = 4` and `tid`s `0` and
`1` (both on leaf `1`), `staleAnnounceSchedule` ends quiescent, with each thread
having completed one `Arrive` and one `Depart`, leaf `1`'s counter `0` and its
`announce` flag `true`. -/
theorem staleAnnounce_semiContention :
    ∃ shape, construct (fun _ _ => 2) (fun _ => true) 2#64 1#64 4#64 =
        .returned shape ∧
      ∃ trace s, Reach .semiContention (shape.wiring fun t : Fin 2 => BitVec.ofNat 64 t.val)
          trace s ∧
        (∀ t, (s.threads t).stack = []) ∧
        (∀ t, completed trace t .arrive = 1 ∧ completed trace t .depart = 1) ∧
        s.X 1 = 0 ∧ s.announce 1 = true := by
  refine ⟨⟨2#64, 3#64, 2#64, 2#64, 4#64⟩, rfl, ?_⟩
  have hcheck : (runSchedule .semiContention
      (Shape.wiring ⟨2#64, 3#64, 2#64, 2#64, 4#64⟩ fun t : Fin 2 => BitVec.ofNat 64 t.val)
      (State.init (Fin 2)) staleAnnounceSchedule).map (fun r =>
        decide ((∀ t, (r.2.threads t).stack = []) ∧
          (∀ t, completed r.1 t .arrive = 1 ∧ completed r.1 t .depart = 1) ∧
          r.2.X 1 = 0 ∧ r.2.announce 1 = true)) = some true := by
    decide
  obtain ⟨⟨trace, s⟩, hrun, hfacts⟩ := Option.map_eq_some'.mp hcheck
  exact ⟨trace, s, by simpa using runSchedule_reach _ Reach.init hrun, by simpa using hfacts⟩

end Snzi.Machine
