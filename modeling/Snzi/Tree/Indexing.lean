import Snzi.Tree.Construction
import Mathlib.Tactic.Ring

/-!
# Level-order indexing of the tree

The node array is a perfect `K`-ary tree stored level by level: level `d` holds
`K^d` nodes, starting at index `levelStart K d = (K^d - 1)/(K - 1)`.  The formula
`parent(i) = (i - 1)/K` sends every node of level `d + 1` into level `d`, and the
leaves are exactly the last level.  From these two facts, every index that
`get_leaf_for_thread` and the upward propagation compute lies in the array, and
each propagation chain reaches the root after exactly `H` hops.
-/

namespace Snzi.Tree

/-- The index of the first node of level `d`: the number of nodes above it. -/
def levelStart (K : Nat) : Nat → Nat
  | 0 => 0
  | d + 1 => K * levelStart K d + 1

@[simp] theorem levelStart_zero (K : Nat) : levelStart K 0 = 0 := rfl
@[simp] theorem levelStart_succ (K d : Nat) : levelStart K (d + 1) = K * levelStart K d + 1 := rfl

theorem levelStart_geom (K d : Nat) (hK : 1 ≤ K) : (K - 1) * levelStart K d + 1 = K ^ d := by
  obtain ⟨k, rfl⟩ : ∃ k, K = k + 1 := ⟨K - 1, by omega⟩
  induction d with
  | zero => simp
  | succ d ih =>
    rw [levelStart_succ, Nat.pow_succ, ← ih]
    simp only [Nat.add_sub_cancel]
    ring

theorem levelStart_width (K d : Nat) (hK : 1 ≤ K) :
    levelStart K (d + 1) = levelStart K d + K ^ d := by
  rw [levelStart_succ, ← levelStart_geom K d hK]
  obtain ⟨k, rfl⟩ : ∃ k, K = k + 1 := ⟨K - 1, by omega⟩
  simp only [Nat.add_sub_cancel]
  ring

/-- `nodes_count`'s closed form is the start of the level below the leaves. -/
theorem levelStart_eq_div (K d : Nat) (hK : 2 ≤ K) : levelStart K d = (K ^ d - 1) / (K - 1) := by
  rw [← levelStart_geom K d (by omega), Nat.add_sub_cancel, Nat.mul_div_cancel_left _ (by omega)]

theorem levelStart_mono (K : Nat) (hK : 1 ≤ K) {d e : Nat} (h : d ≤ e) : levelStart K d ≤ levelStart K e := by
  induction h with
  | refl => rfl
  | step _ ih => rw [levelStart_width K _ hK]; omega

/-- The parent formula maps level `d + 1` onto level `d`. -/
theorem parent_mem_level (K d i : Nat) (hK : 1 ≤ K)
    (hlo : levelStart K (d + 1) ≤ i) (hhi : i < levelStart K (d + 2)) :
    levelStart K d ≤ (i - 1) / K ∧ (i - 1) / K < levelStart K (d + 1) := by
  rw [levelStart_succ] at hlo
  rw [levelStart_succ, levelStart_succ] at hhi
  constructor
  · rw [Nat.le_div_iff_mul_le (by omega)]; rw [Nat.mul_comm]; omega
  · rw [Nat.div_lt_iff_lt_mul (by omega), levelStart_succ]
    have : (K * levelStart K d + 1) * K = K * (K * levelStart K d + 1) := Nat.mul_comm _ _
    omega

theorem Shape.parent_toNat (shape : Shape) (i : SizeType) (hi : 1 ≤ i.toNat) :
    (shape.parent i).toNat = (i.toNat - 1) / shape.arity.toNat := by
  rw [Shape.parent, BitVec.toNat_udiv, BitVec.toNat_sub_of_le (by simp [BitVec.le_def]; omega)]
  simp

theorem Shape.getLeafForThread_toNat (shape : Shape) (tid : SizeType)
    (hle : shape.totalLeafNodes.toNat ≤ shape.totalNodes.toNat) (hleaves : 0 < shape.totalLeafNodes.toNat) :
    (shape.getLeafForThread tid).toNat = shape.totalNodes.toNat - shape.totalLeafNodes.toNat +
      (tid.toNat / shape.threadsPerLeaf.toNat) % shape.totalLeafNodes.toNat := by
  have hmod := Nat.mod_lt (tid.toNat / shape.threadsPerLeaf.toNat) hleaves
  have hN := shape.totalNodes.isLt
  rw [Shape.getLeafForThread, BitVec.toNat_add, BitVec.toNat_sub_of_le (by simpa [BitVec.le_def] using hle),
    BitVec.toNat_umod, BitVec.toNat_udiv, Nat.mod_eq_of_lt (by omega)]

/-- Iterating `parent` from a node on level `d` walks up one level per step. -/
theorem Shape.parent_iterate_mem_level (shape : Shape) (hK : 1 ≤ shape.arity.toNat) :
    ∀ (j d : Nat) (i : SizeType), j ≤ d →
      levelStart shape.arity.toNat d ≤ i.toNat → i.toNat < levelStart shape.arity.toNat (d + 1) →
      levelStart shape.arity.toNat (d - j) ≤ (shape.parent^[j] i).toNat ∧
        (shape.parent^[j] i).toNat < levelStart shape.arity.toNat (d - j + 1) := by
  intro j
  induction j with
  | zero => intro d i _ hlo hhi; exact ⟨hlo, hhi⟩
  | succ j ih =>
    intro d i hj hlo hhi
    obtain ⟨hlo', hhi'⟩ := ih d i (by omega) hlo hhi
    rw [Function.iterate_succ_apply']
    have hone : 1 ≤ (shape.parent^[j] i).toNat := by
      have := levelStart_mono shape.arity.toNat hK (show 1 ≤ d - j by omega)
      simp at this; omega
    rw [Shape.parent_toNat _ _ hone]
    have hd : d - j = (d - (j + 1)) + 1 := by omega
    rw [hd] at hlo' hhi'
    exact parent_mem_level _ _ _ hK hlo' hhi'

/-- A constructed tree's node count is the start of the level below the leaves. -/
theorem construct_levels (ceilQuotient : SizeType → SizeType → SizeType)
    (allocates : SizeType → Bool) (K H T : SizeType) (hK : 2 ≤ K.toNat)
    (hfit : K.toNat ^ (H.toNat + 1) < 2 ^ 64) (shape : Shape)
    (hshape : construct ceilQuotient allocates K H T = .returned shape) :
    shape.arity = K ∧ shape.totalNodes.toNat = levelStart K.toNat (H.toNat + 1) ∧
      shape.totalLeafNodes.toNat = K.toNat ^ H.toNat := by
  obtain ⟨harity, hnodes, hleaves⟩ :=
    construct_counts ceilQuotient allocates K H T hK hfit shape hshape
  exact ⟨harity, by rw [hnodes, levelStart_eq_div _ _ hK], hleaves⟩

/-- `get_leaf_for_thread` lands on the last level, whatever the `tid`. -/
theorem Shape.getLeafForThread_mem_lastLevel (shape : Shape) {K H : Nat} (hK : 1 ≤ K)
    (hnodes : shape.totalNodes.toNat = levelStart K (H + 1))
    (hleaves : shape.totalLeafNodes.toNat = K ^ H) (tid : SizeType) :
    levelStart K H ≤ (shape.getLeafForThread tid).toNat ∧
      (shape.getLeafForThread tid).toNat < levelStart K (H + 1) := by
  have hwidth := levelStart_width K H hK
  have hpow : 0 < K ^ H := Nat.pos_pow_of_pos _ (by omega)
  have hleaf := shape.getLeafForThread_toNat tid (by omega) (by omega)
  rw [hnodes, hleaves, hwidth, Nat.add_sub_cancel] at hleaf
  have hmod := Nat.mod_lt (tid.toNat / shape.threadsPerLeaf.toNat) hpow
  generalize tid.toNat / shape.threadsPerLeaf.toNat % K ^ H = slot at hleaf hmod
  omega

/-- For every arity `K ≥ 2` and height `H` with `K^(H+1)` below `2^64`, in every
tree a constructor returns, and for every `tid` (also `tid ≥ T`),
`get_leaf_for_thread(tid)` is one of the last `total_leaf_nodes` indices of the
array, `parent` iterated `j < H` times from it stays in `[1, total_nodes)`, and
after `H` iterations it is the root `0`. -/
theorem getLeafForThread_parent_chain (ceilQuotient : SizeType → SizeType → SizeType)
    (allocates : SizeType → Bool) (K H T : SizeType) (hK : 2 ≤ K.toNat)
    (hfit : K.toNat ^ (H.toNat + 1) < 2 ^ 64) (shape : Shape)
    (hshape : construct ceilQuotient allocates K H T = .returned shape) :
      ∀ tid : SizeType,
        shape.totalNodes - shape.totalLeafNodes ≤ shape.getLeafForThread tid ∧
        shape.getLeafForThread tid < shape.totalNodes ∧
        (∀ j < H.toNat, 1 ≤ (shape.parent^[j] (shape.getLeafForThread tid)).toNat ∧
          shape.parent^[j] (shape.getLeafForThread tid) < shape.totalNodes) ∧
        shape.parent^[H.toNat] (shape.getLeafForThread tid) = 0 := by
  obtain ⟨harity, hN, hleaves⟩ := construct_levels ceilQuotient allocates K H T hK hfit shape hshape
  intro tid
  have hK1 : 1 ≤ shape.arity.toNat := by rw [harity]; omega
  have hwidth := levelStart_width K.toNat H.toNat (by omega)
  have hle : shape.totalLeafNodes ≤ shape.totalNodes := by
    rw [BitVec.le_def, hN, hleaves, hwidth]; omega
  obtain ⟨hlo, hhi⟩ := shape.getLeafForThread_mem_lastLevel (by omega) hN hleaves tid
  have hchain := shape.parent_iterate_mem_level hK1
  rw [harity] at hchain
  refine ⟨?_, ?_, fun j hj => ?_, ?_⟩
  · rw [BitVec.le_def, BitVec.toNat_sub_of_le hle]; omega
  · rw [BitVec.lt_def]; omega
  · obtain ⟨hjlo, hjhi⟩ := hchain j H.toNat _ (by omega) hlo hhi
    have hone := levelStart_mono K.toNat (by omega) (show 1 ≤ H.toNat - j by omega)
    have hup := levelStart_mono K.toNat (by omega) (show H.toNat - j + 1 ≤ H.toNat + 1 by omega)
    simp only [levelStart_succ, levelStart_zero] at hone
    exact ⟨by omega, by rw [BitVec.lt_def]; omega⟩
  · obtain ⟨_, hjhi⟩ := hchain H.toNat H.toNat _ le_rfl hlo hhi
    simp only [Nat.sub_self, levelStart_succ, levelStart_zero] at hjhi
    exact BitVec.eq_of_toNat_eq (by simp; omega)

/-- `getLeafForThread_parent_chain` for the ternary tree of height two, where every
allocation returns. -/
theorem getLeafForThread_parent_chain_ternary :
    ∃ shape, construct (fun _ _ => 1) (fun _ => true) 3#64 2#64 9#64 = .returned shape ∧
      ∀ tid : SizeType,
        shape.totalNodes - shape.totalLeafNodes ≤ shape.getLeafForThread tid ∧
        shape.getLeafForThread tid < shape.totalNodes ∧
        (∀ j < (2#64).toNat, 1 ≤ (shape.parent^[j] (shape.getLeafForThread tid)).toNat ∧
          shape.parent^[j] (shape.getLeafForThread tid) < shape.totalNodes) ∧
        shape.parent^[(2#64).toNat] (shape.getLeafForThread tid) = 0 :=
  ⟨_, rfl, getLeafForThread_parent_chain (fun _ _ => 1) (fun _ => true) 3#64 2#64 9#64 (by decide)
    (by decide) _ rfl⟩

end Snzi.Tree
