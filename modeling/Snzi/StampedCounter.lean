import Mathlib.Data.BitVec

/-!
# The packed stamped counter

`stamped_counter` keeps a 32-bit stamp and a 32-bit counter in one `uint64_t`:
the stamp in the high half, the counter in the low half.  The two proxy classes
`stamp_reference` and `counter_reference` give each half its own assignment and
arithmetic operators; every one of them reads its half out of the packed word,
computes on a `uint32_t`, and packs the result back next to the other half.

This module proves that the masks, shifts and the repacking are exact: a
mutation through one proxy computes the wrapped 32-bit result on its own half
and never disturbs the other half.
-/

namespace Snzi.StampedCounter

/-- `value_type = std::uint64_t`, the packed word. -/
abbrev ValueType := BitVec 64
/-- `stamp_type = std::uint32_t`. -/
abbrev StampType := BitVec 32
/-- `counter_type = std::uint32_t`. -/
abbrev CounterType := BitVec 32

/-- `extract_stamp`: mask the high 32 bits, shift them down, and narrow to
`uint32_t` on return. -/
def extractStamp (val : ValueType) : StampType :=
  ((val &&& 0xFFFFFFFF00000000#64) >>> 32).setWidth 32

/-- `extract_counter`: mask the low 32 bits and narrow to `uint32_t`. -/
def extractCounter (val : ValueType) : CounterType :=
  (val &&& 0x00000000FFFFFFFF#64).setWidth 32

/-- `pack`: `static_cast<value_type>(stamp) << 32 | counter`. -/
def pack (stamp : StampType) (counter : CounterType) : ValueType :=
  stamp.setWidth 64 <<< 32 ||| counter.setWidth 64

theorem getLsbD_stampMask (i : Nat) (hi : i < 64) :
    (0xFFFFFFFF00000000#64).getLsbD i = decide (32 ≤ i) := by
  have hbits : ∀ j : Fin 64,
      (0xFFFFFFFF00000000#64).getLsbD j = decide (32 ≤ j.val) := by decide
  exact hbits ⟨i, hi⟩

theorem getLsbD_counterMask (i : Nat) (hi : i < 64) :
    (0x00000000FFFFFFFF#64).getLsbD i = decide (i < 32) := by
  have hbits : ∀ j : Fin 64,
      (0x00000000FFFFFFFF#64).getLsbD j = decide (j.val < 32) := by decide
  exact hbits ⟨i, hi⟩

@[simp]
theorem extractStamp_pack (stamp : StampType) (counter : CounterType) :
    extractStamp (pack stamp counter) = stamp := by
  ext i
  have hi := i.isLt
  simp [extractStamp, pack, getLsbD_stampMask, show 32 + i.val < 64 by omega,
    show ¬ 32 + i.val < 32 by omega, show i.val < 64 by omega]

@[simp]
theorem extractCounter_pack (stamp : StampType) (counter : CounterType) :
    extractCounter (pack stamp counter) = counter := by
  ext i
  have hi := i.isLt
  simp only [extractCounter, pack, BitVec.getLsbD_setWidth, BitVec.getLsbD_and,
    BitVec.getLsbD_or, BitVec.getLsbD_shiftLeft, getLsbD_counterMask i.val (by omega), hi]
  simp [show i.val < 64 by omega]

/-- Splitting a word into its halves and packing them again gives the word
back: the two masks cover all 64 bits and do not overlap. -/
@[simp]
theorem pack_extractStamp_extractCounter (value : ValueType) :
    pack (extractStamp value) (extractCounter value) = value := by
  ext i
  have hi := i.isLt
  by_cases hlow : i.val < 32
  · simp [extractCounter, extractStamp, pack, getLsbD_counterMask, hlow]
  · simp [extractCounter, extractStamp, pack, getLsbD_stampMask, hlow,
      show i.val - 32 < 32 by omega, show 32 + (i.val - 32) = i.val by omega,
      show i.val - 32 < 64 by omega, show 32 ≤ i.val by omega]

/-- `stamp_reference::operator=(stamp_type)`. -/
def assignStamp (value : ValueType) (stamp : StampType) : ValueType :=
  pack stamp (extractCounter value)

/-- `counter_reference::operator=(counter_type)`. -/
def assignCounter (value : ValueType) (counter : CounterType) : ValueType :=
  pack (extractStamp value) counter

/-- The compound assignment operators both proxies overload.  Each computes
`tmp op= x` on a `uint32_t`, i.e. in 32-bit `unsigned int` arithmetic.  C++
leaves `/=` and `%=` by zero and shifts by 32 or more undefined; there the model
returns Lean's total `BitVec` value, which no statement below relies on. -/
inductive CompoundOp
  | plusAssign
  | minusAssign
  | timesAssign
  | divAssign
  | modAssign
  | andAssign
  | orAssign
  | xorAssign
  | shiftLeftAssign
  | shiftRightAssign
  deriving DecidableEq, Repr

/-- `tmp op= x` on the extracted 32-bit half. -/
def CompoundOp.apply : CompoundOp → BitVec 32 → BitVec 32 → BitVec 32
  | .plusAssign, tmp, x => tmp + x
  | .minusAssign, tmp, x => tmp - x
  | .timesAssign, tmp, x => tmp * x
  | .divAssign, tmp, x => tmp / x
  | .modAssign, tmp, x => tmp % x
  | .andAssign, tmp, x => tmp &&& x
  | .orAssign, tmp, x => tmp ||| x
  | .xorAssign, tmp, x => tmp ^^^ x
  | .shiftLeftAssign, tmp, x => tmp <<< x.toNat
  | .shiftRightAssign, tmp, x => tmp >>> x.toNat

/-- The two proxy classes: `stamp_reference` and `counter_reference`.  They are
mirror images, so the operators common to both are defined once over `Half`. -/
inductive Half
  | stamp
  | counter
  deriving DecidableEq, Repr

/-- The half a proxy does not refer to. -/
def Half.other : Half → Half
  | .stamp => .counter
  | .counter => .stamp

/-- The conversion operator `operator stamp_type()` / `operator counter_type()`. -/
def Half.get : Half → ValueType → BitVec 32
  | .stamp => extractStamp
  | .counter => extractCounter

/-- The proxy's `operator=` taking a 32-bit value. -/
def Half.assign : Half → ValueType → BitVec 32 → ValueType
  | .stamp => assignStamp
  | .counter => assignCounter

/-- `operator op=(T x)`: `T tmp = extract(value); return tmp op= x, *this = tmp;`. -/
def Half.compoundAssign (half : Half) (op : CompoundOp) (value : ValueType)
    (x : BitVec 32) : ValueType :=
  half.assign value (op.apply (half.get value) x)

/-- Every operation through a proxy that writes the referenced word:
`operator=` and `operator op=` with a value operand or with another proxy of the
same kind (whose word `other` may be this one), and the four `++`/`--`. -/
inductive Mutation
  | assign (x : BitVec 32)
  | assignFrom (other : ValueType)
  | compound (op : CompoundOp) (x : BitVec 32)
  | compoundFrom (op : CompoundOp) (other : ValueType)
  | preIncrement
  | postIncrement
  | preDecrement
  | postDecrement

/-- The word after the mutation, following each operator's body: the
reference-operand overloads forward the operand's half, and `++`/`--` (prefix
and postfix alike) are `*this += 1` and `*this -= 1`. -/
def Mutation.run (half : Half) : Mutation → ValueType → ValueType
  | .assign x, value => half.assign value x
  | .assignFrom other, value => half.assign value (half.get other)
  | .compound op x, value => half.compoundAssign op value x
  | .compoundFrom op other, value => half.compoundAssign op value (half.get other)
  | .preIncrement, value | .postIncrement, value =>
      half.compoundAssign .plusAssign value 1
  | .preDecrement, value | .postDecrement, value =>
      half.compoundAssign .minusAssign value 1

/-- The value a postfix `++`/`--` returns: `T old = *this; ...; return old;`. -/
def postfixResult (half : Half) (value : ValueType) : BitVec 32 :=
  half.get value

/-- `tmp op= x` on `unsigned int` values as C++ defines it, operator by operator:
the sum, difference and product modulo `2^32`, the quotient and remainder, the
bitwise operations, and the shifts, the left one again modulo `2^32`.  C++ leaves
`x = 0` for `/`, `%` and `x ≥ 32` for the shifts undefined; there this is the
value the formulas give. -/
def CompoundOp.unsignedResult : CompoundOp → Nat → Nat → Nat
  | .plusAssign, a, x => (a + x) % 2 ^ 32
  | .minusAssign, a, x => (2 ^ 32 - x + a) % 2 ^ 32
  | .timesAssign, a, x => a * x % 2 ^ 32
  | .divAssign, a, x => a / x
  | .modAssign, a, x => a % x
  | .andAssign, a, x => a &&& x
  | .orAssign, a, x => a ||| x
  | .xorAssign, a, x => a ^^^ x
  | .shiftLeftAssign, a, x => a * 2 ^ x % 2 ^ 32
  | .shiftRightAssign, a, x => a / 2 ^ x

/-- What a mutation should leave in the referenced half, stated on the old 32-bit
value alone: the C++ result of each operator, and `old ± 1` for `++` and `--`. -/
def Mutation.newHalf (half : Half) : Mutation → BitVec 32 → BitVec 32
  | .assign x, _ => x
  | .assignFrom other, _ => half.get other
  | .compound op x, old => BitVec.ofNat 32 (op.unsignedResult old.toNat x.toNat)
  | .compoundFrom op other, old =>
      BitVec.ofNat 32 (op.unsignedResult old.toNat (half.get other).toNat)
  | .preIncrement, old | .postIncrement, old => old + 1
  | .preDecrement, old | .postDecrement, old => old - 1

/-- Every compound operator computes its C++ result on the operands' values. -/
theorem CompoundOp.apply_toNat (op : CompoundOp) (tmp x : BitVec 32) :
    (op.apply tmp x).toNat = op.unsignedResult tmp.toNat x.toNat := by
  cases op <;> simp [CompoundOp.apply, CompoundOp.unsignedResult, BitVec.toNat_shiftLeft,
    Nat.shiftLeft_eq, Nat.shiftRight_eq_div_pow]

theorem CompoundOp.apply_eq (op : CompoundOp) (tmp x : BitVec 32) :
    op.apply tmp x = BitVec.ofNat 32 (op.unsignedResult tmp.toNat x.toNat) :=
  BitVec.eq_of_toNat_eq <| by
    rw [BitVec.toNat_ofNat, ← op.apply_toNat, Nat.mod_eq_of_lt (BitVec.isLt _)]

@[simp]
theorem Half.get_assign (half : Half) (value : ValueType) (x : BitVec 32) :
    half.get (half.assign value x) = x := by
  cases half <;> simp [Half.get, Half.assign, assignStamp, assignCounter]

@[simp]
theorem Half.other_get_assign (half : Half) (value : ValueType) (x : BitVec 32) :
    half.other.get (half.assign value x) = half.other.get value := by
  cases half <;> simp [Half.other, Half.get, Half.assign, assignStamp, assignCounter]

/-- The stamped counter's frame law, over every mutation of either proxy and
every packed word: the referenced half becomes the wrapped 32-bit result and
the other half is untouched.  The round trips of `pack`, `extract_stamp` and
`extract_counter` underlie it. -/
theorem mutation_frame :
    (∀ value : ValueType, pack (extractStamp value) (extractCounter value) = value) ∧
    (∀ (stamp : StampType) (counter : CounterType),
      extractStamp (pack stamp counter) = stamp ∧
        extractCounter (pack stamp counter) = counter) ∧
    (∀ (half : Half) (mutation : Mutation) (value : ValueType),
      half.get (mutation.run half value) = mutation.newHalf half (half.get value) ∧
        half.other.get (mutation.run half value) = half.other.get value) := by
  refine ⟨pack_extractStamp_extractCounter, fun stamp counter => ⟨by simp, by simp⟩,
    fun half mutation value => ?_⟩
  cases mutation with
  | compound op x => simp [Mutation.run, Mutation.newHalf, Half.compoundAssign, op.apply_eq]
  | compoundFrom op other =>
    simp [Mutation.run, Mutation.newHalf, Half.compoundAssign, op.apply_eq]
  | _ => simp [Mutation.run, Mutation.newHalf, Half.compoundAssign, CompoundOp.apply]

end Snzi.StampedCounter
