import Snzi.Machine.Thread
import Snzi.Tree.Indexing
import Mathlib.Order.Interval.Finset.Nat

/-!
# At most `threads_per_leaf` threads per leaf

`get_leaf_for_thread` cuts the identifiers into blocks of `threads_per_leaf`
consecutive values and sends block `b` to leaf `b mod total_leaf_nodes`.  When the
constructor's floating-point quotient `ceil(T / total_leaf_nodes)` is at least
`T / total_leaf_nodes` (it is for every `T < 2^53`, where the conversion to
`double` is exact), the identifiers `0, …, T - 1` fill at most `total_leaf_nodes`
blocks, so the modulus never folds two blocks onto one leaf: two of them share a
leaf exactly when they share a block, and no leaf serves more than
`threads_per_leaf` threads.  This is what the tree is for: it caps the number of
threads whose `Arrive` and `Depart` contend on one leaf's counter.
-/

namespace Snzi.Tree

/-- Below `threads_per_leaf * total_leaf_nodes` the modulus in
`get_leaf_for_thread` does nothing: the slot is the block itself. -/
theorem slot_eq_block {perLeaf leaves tid : Nat} (hlt : tid < perLeaf * leaves) :
    tid / perLeaf % leaves = tid / perLeaf :=
  Nat.mod_eq_of_lt (Nat.div_lt_of_lt_mul hlt)

section Shape

variable (shape : Shape) (hle : shape.totalLeafNodes.toNat ≤ shape.totalNodes.toNat)
  (hleaves : 0 < shape.totalLeafNodes.toNat)
include hle hleaves

/-- Two identifiers below `threads_per_leaf * total_leaf_nodes` share a leaf
exactly when they share a block. -/
theorem Shape.getLeafForThread_eq_iff {a b : SizeType}
    (ha : a.toNat < shape.threadsPerLeaf.toNat * shape.totalLeafNodes.toNat)
    (hb : b.toNat < shape.threadsPerLeaf.toNat * shape.totalLeafNodes.toNat) :
    shape.getLeafForThread a = shape.getLeafForThread b ↔
      a.toNat / shape.threadsPerLeaf.toNat = b.toNat / shape.threadsPerLeaf.toNat := by
  rw [BitVec.toNat_eq, shape.getLeafForThread_toNat a hle hleaves,
    shape.getLeafForThread_toNat b hle hleaves, slot_eq_block ha, slot_eq_block hb]
  omega

/-- Threads with distinct identifiers below `threads_per_leaf * total_leaf_nodes`:
the identifiers of the threads one leaf serves lie in one block, so there are at
most `threads_per_leaf` of them. -/
theorem Shape.leafLoad_le {τ : Type} (tidOf : τ → SizeType) (threads : Finset τ)
    (hinj : Set.InjOn tidOf threads)
    (hcap : ∀ t ∈ threads, (tidOf t).toNat < shape.threadsPerLeaf.toNat * shape.totalLeafNodes.toNat)
    (leaf : Nat) :
    (threads.filter fun t => (shape.wiring tidOf).leaf t = leaf).card ≤ shape.threadsPerLeaf.toNat := by
  set served := threads.filter fun t => (shape.wiring tidOf).leaf t = leaf
  obtain hempty | ⟨first, hfirst⟩ := served.eq_empty_or_nonempty
  · simp [hempty]
  obtain ⟨hfirst, hfirstLeaf⟩ := Finset.mem_filter.1 hfirst
  have hpos : 0 < shape.threadsPerLeaf.toNat :=
    Nat.pos_of_ne_zero fun h0 => by have := hcap first hfirst; simp [h0] at this
  have hblock : ∀ t ∈ served, (tidOf t).toNat ∈
      Finset.Ico ((tidOf first).toNat / shape.threadsPerLeaf.toNat * shape.threadsPerLeaf.toNat)
        ((tidOf first).toNat / shape.threadsPerLeaf.toNat * shape.threadsPerLeaf.toNat +
          shape.threadsPerLeaf.toNat) := by
    intro t ht
    obtain ⟨ht, htLeaf⟩ := Finset.mem_filter.1 ht
    have hdiv := (shape.getLeafForThread_eq_iff hle hleaves (hcap t ht) (hcap first hfirst)).1
      (BitVec.toNat_eq.2 (htLeaf.trans hfirstLeaf.symm))
    rw [Finset.mem_Ico, ← hdiv]
    exact ⟨Nat.div_mul_le_self _ _, Nat.lt_div_mul_add hpos⟩
  calc served.card = (served.image fun t => (tidOf t).toNat).card :=
        (Finset.card_image_of_injOn fun a ha b hb hab =>
          hinj (Finset.mem_filter.1 ha).1 (Finset.mem_filter.1 hb).1 (BitVec.toNat_eq.2 hab)).symm
    _ ≤ _ := Finset.card_le_card (Finset.image_subset_iff.2 hblock)
    _ = shape.threadsPerLeaf.toNat := by simp

end Shape

end Snzi.Tree

namespace Snzi.Machine

open Snzi.Tree

/-- For every arity `K ≥ 2` and height `H` with `K^(H+1)` below `2^64`, and every
`T` for which the quotient the constructor computes for `threads_per_leaf` is at
least `T / total_leaf_nodes`: two identifiers below `T` get the same leaf exactly
when they lie in the same block of `threads_per_leaf` consecutive identifiers, and
however the threads are given distinct identifiers below `T`, no leaf of the
machine's wiring serves more than `threads_per_leaf` of them. -/
theorem leaf_load_balanced (ceilQuotient : SizeType → SizeType → SizeType)
    (allocates : SizeType → Bool) (K H T : SizeType) (hK : 2 ≤ K.toNat)
    (hfit : K.toNat ^ (H.toNat + 1) < 2 ^ 64)
    (hceil : T.toNat ≤
      (ceilQuotient T (BitVec.ofNat 64 (K.toNat ^ H.toNat))).toNat * K.toNat ^ H.toNat)
    (shape : Shape) (hshape : construct ceilQuotient allocates K H T = .returned shape) :
    (∀ a b : SizeType, a < T → b < T →
      (shape.getLeafForThread a = shape.getLeafForThread b ↔
        a.toNat / shape.threadsPerLeaf.toNat = b.toNat / shape.threadsPerLeaf.toNat)) ∧
    ∀ {τ : Type} (tidOf : τ → SizeType) (threads : Finset τ),
      Set.InjOn tidOf threads → (∀ t ∈ threads, tidOf t < T) → ∀ leaf : Nat,
        (threads.filter fun t => (shape.wiring tidOf).leaf t = leaf).card ≤
          shape.threadsPerLeaf.toNat := by
  obtain ⟨-, hN, hleaves⟩ := construct_levels ceilQuotient allocates K H T hK hfit shape hshape
  obtain ⟨-, -, -, -, -, -, htpl⟩ := construct_eq_returned hshape
  have hpow : 0 < K.toNat ^ H.toNat := Nat.pos_pow_of_pos _ (by omega)
  have hle : shape.totalLeafNodes.toNat ≤ shape.totalNodes.toNat := by
    rw [hN, hleaves, levelStart_width K.toNat H.toNat (by omega)]; omega
  have hleafword : shape.totalLeafNodes = BitVec.ofNat 64 (K.toNat ^ H.toNat) := by
    have hfits : K.toNat ^ H.toNat < 2 ^ 64 :=
      lt_of_le_of_lt (Nat.pow_le_pow_right (by omega) (Nat.le_succ _)) hfit
    exact BitVec.eq_of_toNat_eq (by rw [BitVec.toNat_ofNat, Nat.mod_eq_of_lt hfits, hleaves])
  have hcap : T.toNat ≤ shape.threadsPerLeaf.toNat * shape.totalLeafNodes.toNat := by
    rw [htpl, hleaves, hleafword]
    split
    · next hq => rw [hq] at hceil; simp at hceil; omega
    · exact hceil
  have hbelow : ∀ x : SizeType, x < T →
      x.toNat < shape.threadsPerLeaf.toNat * shape.totalLeafNodes.toNat :=
    fun x hx => lt_of_lt_of_le (BitVec.lt_def.1 hx) hcap
  exact ⟨fun a b ha hb => shape.getLeafForThread_eq_iff hle (by omega) (hbelow a ha) (hbelow b hb),
    fun tidOf threads hinj hlt leaf =>
      shape.leafLoad_le hle (by omega) tidOf threads hinj (fun t ht => hbelow _ (hlt t ht)) leaf⟩

/-- `leaf_load_balanced` for five threads on the binary tree of height one, with
the exact ceiling `⌈5 / 2⌉ = 3` as `threads_per_leaf`. -/
theorem leaf_load_balanced_five :
    ∃ shape, construct (fun a b => (a + b - 1) / b) (fun _ => true) 2#64 1#64 5#64 =
        .returned shape ∧
      (∀ a b : SizeType, a < 5#64 → b < 5#64 →
        (shape.getLeafForThread a = shape.getLeafForThread b ↔
          a.toNat / shape.threadsPerLeaf.toNat = b.toNat / shape.threadsPerLeaf.toNat)) ∧
      ∀ {τ : Type} (tidOf : τ → SizeType) (threads : Finset τ),
        Set.InjOn tidOf threads → (∀ t ∈ threads, tidOf t < 5#64) → ∀ leaf : Nat,
          (threads.filter fun t => (shape.wiring tidOf).leaf t = leaf).card ≤
            shape.threadsPerLeaf.toNat :=
  ⟨_, rfl, leaf_load_balanced (fun a b => (a + b - 1) / b) (fun _ => true) 2#64 1#64 5#64
    (by decide) (by decide) (by decide) _ rfl⟩

end Snzi.Machine
