import Snzi.Machine.Solo
import Mathlib.Order.Interval.Finset.Nat

/-!
# The node array is a complete `K`-ary tree

The constructor allocates `total_nodes` nodes and gives node `c > 0` the parent
`(c - 1)/arity`.  That makes the array a complete tree of arity `K` and height
`H`: every internal node, below index `total_nodes - total_leaf_nodes`, has the
`K` children `nK + 1, …, nK + K`, all inside the array; the last
`total_leaf_nodes` nodes have no children and all lie at depth `H`.  So no node
waits on a missing child and no leaf is shallower than another: every thread's
operation climbs exactly `H` levels.
-/

namespace Snzi.Tree

open Snzi.Machine

variable {τ : Type} (shape : Shape) (tidOf : τ → SizeType)

/-- Under the parent formula `(c - 1)/K`, the children of node `n` are the indices
`nK + 1, …, nK + K` that lie in the array. -/
theorem Shape.mem_children_iff (hK : 1 ≤ shape.arity.toNat) {n c : Nat} :
    c ∈ children (shape.wiring tidOf).parent shape.totalNodes.toNat n ↔
      c < shape.totalNodes.toNat ∧ n * shape.arity.toNat + 1 ≤ c ∧
        c ≤ n * shape.arity.toNat + shape.arity.toNat := by
  rw [mem_children]
  constructor
  · rintro ⟨hcN, hc0, hparent⟩
    rw [shape.wiring_parent tidOf (Nat.pos_of_ne_zero hc0) hcN] at hparent
    have hlo := Nat.div_mul_le_self (c - 1) shape.arity.toNat
    have hhi : c - 1 < (c - 1) / shape.arity.toNat * shape.arity.toNat + shape.arity.toNat :=
      Nat.lt_div_mul_add (by omega)
    rw [hparent] at hlo hhi
    omega
  · rintro ⟨hcN, hlo, hhi⟩
    refine ⟨hcN, by omega, ?_⟩
    rw [shape.wiring_parent tidOf (by omega) hcN]
    exact Nat.div_eq_of_lt_le (by omega) (by rw [Nat.succ_mul]; omega)

end Snzi.Tree

namespace Snzi.Machine

open Snzi.Tree in
/-- In every tree a constructor builds, with arity `K ≥ 2` and height `H`, whatever
the thread identifiers: every node below `total_nodes - total_leaf_nodes` has
exactly the children `nK + 1, …, nK + K`, and every node from there to the end of
the array has none and lies at depth `H`. -/
theorem construct_complete_tree (ceilQuotient : SizeType → SizeType → SizeType)
    (allocates : SizeType → Bool) (K H T : SizeType) (hK : 2 ≤ K.toNat)
    (hfit : K.toNat ^ (H.toNat + 1) < 2 ^ 64) (shape : Shape)
    (hshape : construct ceilQuotient allocates K H T = .returned shape) :
    ∀ {τ : Type} (tidOf : τ → SizeType),
      (∀ n < shape.totalNodes.toNat - shape.totalLeafNodes.toNat,
        children (shape.wiring tidOf).parent shape.totalNodes.toNat n =
          Finset.Icc (n * K.toNat + 1) (n * K.toNat + K.toNat)) ∧
      ∀ n, shape.totalNodes.toNat - shape.totalLeafNodes.toNat ≤ n → n < shape.totalNodes.toNat →
        children (shape.wiring tidOf).parent shape.totalNodes.toNat n = ∅ ∧
          depth (shape.wiring tidOf).parent n = H.toNat := by
  obtain ⟨harity, hN, -⟩ := construct_levels ceilQuotient allocates K H T hK hfit shape hshape
  obtain ⟨hinternal, hwell⟩ := construct_wellShaped ceilQuotient allocates K H T hK hfit shape hshape
  refine fun tidOf => ?_
  have hKs : 1 ≤ shape.arity.toNat := by rw [harity]; omega
  -- the first leaf `levelStart K H` is one past the last child of the last internal node
  have hlast : shape.totalNodes.toNat = levelStart K.toNat H.toNat * K.toNat + 1 := by
    rw [hN, levelStart_succ, Nat.mul_comm]
  rw [hinternal]
  refine ⟨fun n hn => ?_, fun n hlo hn => ⟨?_, ?_⟩⟩
  · have hroom : (n + 1) * K.toNat ≤ levelStart K.toNat H.toNat * K.toNat :=
      Nat.mul_le_mul_right _ hn
    rw [Nat.succ_mul] at hroom
    ext c
    rw [shape.mem_children_iff tidOf hKs, harity, Finset.mem_Icc]
    omega
  · have hfirst : levelStart K.toNat H.toNat * K.toNat ≤ n * K.toNat := Nat.mul_le_mul_right _ hlo
    ext c
    rw [shape.mem_children_iff tidOf hKs, harity]
    simp only [Finset.not_mem_empty, iff_false, not_and, not_le]
    omega
  · exact depth_of_level (hwell tidOf).1 (by omega)
      (fun c hc hcN => harity ▸ shape.wiring_parent tidOf hc hcN) _ _ hlo (hN ▸ hn) hn

open Snzi.Tree in
/-- `construct_complete_tree` for the binary tree of height one. -/
theorem construct_complete_tree_binary :
    ∃ shape, construct (fun _ _ => 1) (fun _ => true) 2#64 1#64 2#64 =
        .returned shape ∧
      ∀ {τ : Type} (tidOf : τ → SizeType),
        (∀ n < shape.totalNodes.toNat - shape.totalLeafNodes.toNat,
          children (shape.wiring tidOf).parent shape.totalNodes.toNat n =
            Finset.Icc (n * (2#64).toNat + 1) (n * (2#64).toNat + (2#64).toNat)) ∧
        ∀ n, shape.totalNodes.toNat - shape.totalLeafNodes.toNat ≤ n → n < shape.totalNodes.toNat →
          children (shape.wiring tidOf).parent shape.totalNodes.toNat n = ∅ ∧
            depth (shape.wiring tidOf).parent n = (1#64).toNat :=
  ⟨_, rfl, construct_complete_tree (fun _ _ => 1) (fun _ => true) 2#64 1#64 2#64
    (by decide) (by decide) _ rfl⟩

end Snzi.Machine
