import Mathlib.Data.BitVec

/-!
# Building the perfect K-ary tree

Each of the three snzi classes has the same constructor and the same private
helpers `pow_int`, `nodes_count`, `leaves_count`, `get_leaf_for_thread` and
`parent`, all on `size_type = std::size_t`.  They are modelled once here on
64-bit words, so every subtraction, product and sum wraps as it does in C++.

The constructor rejects only `K < 2`.  When `K^(H+1)` fits in 64 bits the counts
it computes are the exact counts of a perfect tree; past that, `pow_int` wraps
silently and the constructor still returns, whenever it can allocate the node
array the wrapped count asks for.
-/

namespace Snzi.Tree

/-- `size_type = std::size_t`. -/
abbrev SizeType := BitVec 64

/-- The `for` loop of `pow_int`, `for (size_type i = 1; i <= e; ++i) result *= b;`,
run with at most `fuel` more tests of its condition.  The counter `i` is a
`size_t`, so for `e = SIZE_MAX` it wraps from `SIZE_MAX` to `0` and the loop never
exits; running out of fuel stands for that. -/
def powIntLoop (b e : SizeType) : Nat → SizeType → SizeType → Option SizeType
  | 0, _, _ => none
  | fuel + 1, i, result =>
      if i ≤ e then powIntLoop b e fuel (i + 1) (result * b) else some result

/-- `pow_int(b, e)`; `none` when the call does not return.  `2^64` tests of the
loop condition are enough for every `e < SIZE_MAX`. -/
def powInt (b e : SizeType) : Option SizeType :=
  powIntLoop b e (2 ^ 64) 1 1

/-- `nodes_count(K, H) = (pow_int(K, H+1) - 1) / (K - 1)`.  Its `assert(K != 1)` is
not modelled: the constructor calls it only after rejecting `K < 2`. -/
def nodesCount (K H : SizeType) : Option SizeType :=
  (powInt K (H + 1)).map fun power => (power - 1) / (K - 1)

/-- `leaves_count(K, H) = pow_int(K, H)`. -/
def leavesCount (K H : SizeType) : Option SizeType :=
  powInt K H

/-- The members every snzi constructor sets besides the node array. -/
structure Shape where
  arity : SizeType
  totalNodes : SizeType
  totalLeafNodes : SizeType
  threadsPerLeaf : SizeType
  totalThreads : SizeType
  deriving DecidableEq, Repr

/-- How a constructor call ends: it returns, throws `std::invalid_argument` with its
message, lets the `std::bad_alloc` of `new node[total_nodes]` escape, or never
returns. -/
inductive Construction
  | returned (shape : Shape)
  | threw (message : String)
  | badAlloc
  | diverged
  deriving DecidableEq, Repr

/-- The constructor of `no_contention_handling_snzi` (the other two classes are
identical).  `threads_per_leaf` is `static_cast<size_type>(std::ceil((double)T /
(double)total_leaf_nodes))`, computed in floating point; the model takes that
value as `ceilQuotient T total_leaf_nodes` and keeps the fix-up that replaces
`0` by `1`.  `others.reset(new node[total_nodes])` returns or throws a
`std::bad_alloc`: `std::bad_array_new_length` when `total_nodes * sizeof(node)`
does not fit in a `size_t`, `std::bad_alloc` itself when the memory is not there.
`sizeof(node)` follows `CACHE_LINE_SIZE`, which no source file here defines, so
whether the allocation of a given count returns is the parameter `allocates`. -/
def construct (ceilQuotient : SizeType → SizeType → SizeType) (allocates : SizeType → Bool)
    (K H T : SizeType) : Construction :=
  if K < 2 then .threw "K parameter in snzi constructor must be >= 2"
  else
    match nodesCount K H, leavesCount K H with
    | some totalNodes, some totalLeafNodes =>
        let quotient := ceilQuotient T totalLeafNodes
        if allocates totalNodes then
          .returned
            { arity := K, totalNodes, totalLeafNodes, totalThreads := T,
              threadsPerLeaf := if quotient = 0 then 1 else quotient }
        else .badAlloc
    | _, _ => .diverged

/-- `get_leaf_for_thread`: the leaves are the last `total_leaf_nodes` indices, and
thread `tid` takes leaf `(tid / threads_per_leaf) % total_leaf_nodes` among them. -/
def Shape.getLeafForThread (shape : Shape) (tid : SizeType) : SizeType :=
  shape.totalNodes - shape.totalLeafNodes + ((tid / shape.threadsPerLeaf) % shape.totalLeafNodes)

/-- `parent(id) = (id - 1) / arity`; the constructor stores it in every
non-root node. -/
def Shape.parent (shape : Shape) (id : SizeType) : SizeType :=
  (id - 1) / shape.arity

/-- Each iteration of the `pow_int` loop multiplies by `b` modulo `2^64`, and the
loop exits once the counter passes `e`. -/
theorem powIntLoop_toNat (b e : SizeType) (he : e.toNat + 1 < 2 ^ 64) :
    ∀ (fuel : Nat) (i result : SizeType), 1 ≤ i.toNat → i.toNat ≤ e.toNat + 1 →
      e.toNat + 1 - i.toNat < fuel →
      ∃ r, powIntLoop b e fuel i result = some r ∧
        r.toNat = result.toNat * b.toNat ^ (e.toNat + 1 - i.toNat) % 2 ^ 64 := by
  intro fuel
  induction fuel with
  | zero => intro i result _ _ hfuel; omega
  | succ fuel ih =>
    intro i result hone hle hfuel
    by_cases hie : i ≤ e
    · have hi : i.toNat ≤ e.toNat := hie
      have hnext : (i + 1).toNat = i.toNat + 1 := by
        rw [BitVec.toNat_add]; simp; omega
      obtain ⟨r, hr, hval⟩ := ih (i + 1) (result * b) (by omega) (by omega) (by omega)
      refine ⟨r, by rw [powIntLoop, if_pos hie]; exact hr, ?_⟩
      rw [hval, hnext, BitVec.toNat_mul, Nat.mod_mul_mod, Nat.mul_assoc, ← Nat.pow_succ',
        show (e.toNat + 1 - (i.toNat + 1)).succ = e.toNat + 1 - i.toNat by omega]
    · have hi : e.toNat < i.toNat := by simpa [BitVec.le_def] using hie
      refine ⟨result, by simp [powIntLoop, hie], ?_⟩
      rw [show e.toNat + 1 - i.toNat = 0 by omega]
      simp [Nat.mod_eq_of_lt result.isLt]

/-- Below `SIZE_MAX`, `pow_int(b, e)` returns `b^e` modulo `2^64`. -/
theorem powInt_toNat (b e : SizeType) (he : e.toNat + 1 < 2 ^ 64) :
    ∃ r, powInt b e = some r ∧ r.toNat = b.toNat ^ e.toNat % 2 ^ 64 := by
  obtain ⟨r, hr, hval⟩ := powIntLoop_toNat b e he (2 ^ 64) 1 1 (by simp) (by simp)
    (by simp; omega)
  exact ⟨r, hr, by simpa using hval⟩

/-- At `e = SIZE_MAX` the loop counter wraps and `pow_int` never returns. -/
theorem powInt_allOnes (b : SizeType) : powInt b (BitVec.allOnes 64) = none := by
  suffices hloop : ∀ fuel (i result : SizeType),
      powIntLoop b (BitVec.allOnes 64) fuel i result = none from hloop _ _ _
  intro fuel
  induction fuel with
  | zero => intro i result; rfl
  | succ fuel ih =>
    intro i result
    rw [powIntLoop, if_pos (by simp [BitVec.le_def, BitVec.toNat_allOnes]; omega)]
    exact ih _ _

/-- A power that fits in 64 bits does not wrap, and then neither does its exponent. -/
theorem powInt_exact (b e : SizeType) (hb : 2 ≤ b.toNat) (hfit : b.toNat ^ e.toNat < 2 ^ 64) :
    ∃ r, powInt b e = some r ∧ r.toNat = b.toNat ^ e.toNat := by
  have hexp : e.toNat < 64 := by
    by_contra hbig
    have hle : 2 ^ 64 ≤ b.toNat ^ e.toNat :=
      calc 2 ^ 64 ≤ 2 ^ e.toNat := Nat.pow_le_pow_right (by omega) (by omega)
        _ ≤ b.toNat ^ e.toNat := Nat.pow_le_pow_left hb _
    omega
  obtain ⟨r, hr, hval⟩ := powInt_toNat b e (by omega)
  exact ⟨r, hr, by rw [hval, Nat.mod_eq_of_lt hfit]⟩

/-- What a constructor that returns has done: accepted `K`, computed both counts,
allocated the node array, and stored `K`, `T` and the quotient with `0` replaced
by `1`. -/
theorem construct_eq_returned {ceilQuotient : SizeType → SizeType → SizeType}
    {allocates : SizeType → Bool} {K H T : SizeType} {shape : Shape}
    (h : construct ceilQuotient allocates K H T = .returned shape) :
    ¬ K < 2 ∧ nodesCount K H = some shape.totalNodes ∧ leavesCount K H = some shape.totalLeafNodes ∧
      allocates shape.totalNodes = true ∧ shape.arity = K ∧ shape.totalThreads = T ∧
      shape.threadsPerLeaf = if ceilQuotient T shape.totalLeafNodes = 0 then 1
        else ceilQuotient T shape.totalLeafNodes := by
  unfold construct at h
  split_ifs at h with hK
  split at h
  · rename_i totalNodes totalLeafNodes hN hL
    split_ifs at h with halloc
    cases h
    exact ⟨hK, hN, hL, halloc, rfl, rfl, rfl⟩
  · cases h

/-- When `K^(H+1)` fits in 64 bits, a constructor that returns stores the arity it
was given and the exact counts `total_nodes = (K^(H+1) - 1)/(K - 1)` and
`total_leaf_nodes = K^H`. -/
theorem construct_counts (ceilQuotient : SizeType → SizeType → SizeType)
    (allocates : SizeType → Bool) (K H T : SizeType) (hK : 2 ≤ K.toNat)
    (hfit : K.toNat ^ (H.toNat + 1) < 2 ^ 64) (shape : Shape)
    (hshape : construct ceilQuotient allocates K H T = .returned shape) :
    shape.arity = K ∧
      shape.totalNodes.toNat = (K.toNat ^ (H.toNat + 1) - 1) / (K.toNat - 1) ∧
      shape.totalLeafNodes.toNat = K.toNat ^ H.toNat := by
  obtain ⟨-, hN, hL, -, harity, -⟩ := construct_eq_returned hshape
  have hH : H.toNat < 64 := by
    by_contra hbig
    have hle : 2 ^ 64 ≤ K.toNat ^ (H.toNat + 1) :=
      calc 2 ^ 64 ≤ 2 ^ (H.toNat + 1) := Nat.pow_le_pow_right (by omega) (by omega)
        _ ≤ K.toNat ^ (H.toNat + 1) := Nat.pow_le_pow_left hK _
    omega
  have hsucc : (H + 1).toNat = H.toNat + 1 := by rw [BitVec.toNat_add]; simp; omega
  have hleaf_lt : K.toNat ^ H.toNat < 2 ^ 64 :=
    lt_of_le_of_lt (Nat.pow_le_pow_right (by omega) (Nat.le_succ _)) hfit
  obtain ⟨power, hpower, hpval⟩ := powInt_exact K (H + 1) hK (by rwa [hsucc])
  obtain ⟨leaves, hleaves, hlval⟩ := powInt_exact K H hK hleaf_lt
  rw [hsucc] at hpval
  rw [nodesCount, hpower, Option.map_some', Option.some.injEq] at hN
  rw [leavesCount, hleaves, Option.some.injEq] at hL
  rw [← hN, ← hL]
  refine ⟨harity, ?_, hlval⟩
  have hp1 : 1 ≤ power.toNat := hpval ▸ Nat.one_le_pow _ _ (by omega)
  rw [BitVec.toNat_udiv, BitVec.toNat_sub_of_le (by simp [BitVec.le_def]; omega),
    BitVec.toNat_sub_of_le (by simp [BitVec.le_def]; omega)]
  simp [hpval]

/-- When `K^(H+1)` fits in 64 bits, the counts a returning constructor stores are
exact, `total_nodes = (K^(H+1) - 1)/(K - 1)` and `total_leaf_nodes = K^H`, and the
leaves do not outnumber the nodes, so `total_nodes - total_leaf_nodes` in
`get_leaf_for_thread` does not wrap. -/
theorem construct_exact (ceilQuotient : SizeType → SizeType → SizeType)
    (allocates : SizeType → Bool) (K H T : SizeType) (hK : 2 ≤ K.toNat)
    (hfit : K.toNat ^ (H.toNat + 1) < 2 ^ 64) (shape : Shape)
    (hshape : construct ceilQuotient allocates K H T = .returned shape) :
    shape.totalNodes.toNat = (K.toNat ^ (H.toNat + 1) - 1) / (K.toNat - 1) ∧
      shape.totalLeafNodes.toNat = K.toNat ^ H.toNat ∧
      shape.totalLeafNodes ≤ shape.totalNodes := by
  obtain ⟨-, hnodes, hleaves⟩ :=
    construct_counts ceilQuotient allocates K H T hK hfit shape hshape
  refine ⟨hnodes, hleaves, ?_⟩
  rw [BitVec.le_def, hnodes, hleaves, Nat.le_div_iff_mul_le (by omega)]
  have hpos : 1 ≤ K.toNat ^ H.toNat := Nat.one_le_pow _ _ (by omega)
  have hgrow : K.toNat ^ H.toNat * K.toNat = K.toNat ^ (H.toNat + 1) := (Nat.pow_succ ..).symm
  have hmul : K.toNat ^ H.toNat ≤ K.toNat ^ H.toNat * K.toNat := Nat.le_mul_of_pos_right _ (by omega)
  have : K.toNat ^ H.toNat * (K.toNat - 1) + 1 ≤ K.toNat ^ (H.toNat + 1) := by
    rw [← hgrow, Nat.mul_sub_one]; omega
  omega

/-- `construct_exact` for the binary tree of height one and four threads, where
every allocation returns. -/
theorem construct_exact_binary :
    ∃ shape, construct (fun _ _ => 2) (fun _ => true) 2#64 1#64 4#64 = .returned shape ∧
      shape.totalNodes.toNat = ((2#64).toNat ^ ((1#64).toNat + 1) - 1) / ((2#64).toNat - 1) ∧
      shape.totalLeafNodes.toNat = (2#64).toNat ^ (1#64).toNat ∧
      shape.totalLeafNodes ≤ shape.totalNodes :=
  ⟨_, rfl, construct_exact (fun _ _ => 2) (fun _ => true) 2#64 1#64 4#64 (by decide) (by decide) _ rfl⟩

/-- Past `2^64` the constructor still returns, with wrapped counts: for
`K = 2^32 + 1`, `H = 1` and `T = 1`, `pow_int(K, 2)` wraps to `2^33 + 1`, so
`total_nodes = 2` while `total_leaf_nodes = 2^32 + 1`; `new node[2]` returns, and
thread 0's leaf index wraps far past the two-element node array.  The
floating-point quotient there is `1 / (2^32 + 1)`, whose ceiling is `1`. -/
theorem construct_wraps_past_word :
    ∃ shape, construct (fun _ _ => 1) (fun _ => true) 0x100000001#64 1#64 1#64 =
        .returned shape ∧
      shape.totalNodes = 2#64 ∧ shape.totalLeafNodes = 0x100000001#64 ∧
      shape.totalNodes.toNat ≠ ((0x100000001 : Nat) ^ 2 - 1) / 0x100000000 ∧
      shape.totalNodes < shape.getLeafForThread 0#64 :=
  ⟨_, rfl, rfl, rfl, by decide, by decide⟩

end Snzi.Tree
