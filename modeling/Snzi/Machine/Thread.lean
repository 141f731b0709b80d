import Snzi.Tree.Construction

/-!
# Threads, call frames and shared memory

The three snzi classes run `Arrive` and `Depart` as nested calls: an operation on
a leaf may call the same operation on the parent, which may call its parent, and
so on up to the root.  Every shared access (a `load`, `store`, `fetch_add`,
`fetch_sub` or `compare_exchange`) is one atomic, sequentially consistent step.
A thread is modelled by its call stack; each frame is one activation of
`root_node::Arrive`, `node::Depart`, ... with its locals and its program point.

Counters are `uint64_t` in C++.  The model keeps them as unbounded integers: the
protocols only add and subtract one and test a value for `0` or `1`, so the two
agree until a counter goes below zero, which is exactly what the presence
invariant rules out, or above `2^63`, which the workloads the classes are built
for never reach.
-/

namespace Snzi.Machine

/-- The class being run. -/
inductive Variant
  | noContention
  | semiContention
  | fullContention
  deriving DecidableEq, Repr

/-- The public operations. -/
inductive Op
  | arrive
  | depart
  | query
  deriving DecidableEq, Repr

/-- `full_contention_handling_snzi::contention_status`, owned by one thread. -/
structure ContentionStatus where
  useSnziInArrive : Bool := false
  useSnziInDepart : Bool := false
  useSnziTreeFlag : Bool := false
  deriving DecidableEq, Repr

/-- `contention_status::MaxContentionNumFailures`. -/
def maxContentionNumFailures : Nat := 5

/-- `DelayAmount`, the number of re-reads of `X` while `announce` is set. -/
def delayAmount : Nat := 16

/-- Program points of `node::Arrive`: `start` is the first `oldx = X.load()`;
`loop` the top of the `do` body (`if (!oldx && !pArrInv)`, or the
`compare_exchange` when the test fails); `wait i` the `i`-th re-read of `X` while
`announce` is set; `setAnnounce` the `announce.store(true)`; `propagate` the call to
the parent's `Arrive` and `inParentArrive` the wait for it; `after` the test
`if (pArrInv && oldx)` after the successful `compare_exchange`; `inParentDepart` the
wait for the compensating parent `Depart`. -/
inductive ArrivePc
  | start
  | loop
  | wait (i : Nat)
  | setAnnounce
  | propagate
  | inParentArrive
  | after
  | inParentDepart
  | done
  deriving DecidableEq, Repr

/-- Program points of `node::Depart`: `start` is the first `oldx = X.load()`;
`loop` the top of the loop (the weak `compare_exchange` without contention
handling, `if (oldx == 1) announce.store(false)` with it); `cas` the strong
`compare_exchange` after that store; `after` the test `if (oldx == 1)` after the
successful exchange; `inParentDepart` the wait for the parent's `Depart`. -/
inductive DepartPc
  | start
  | loop
  | cas
  | after
  | inParentDepart
  | done
  deriving DecidableEq, Repr

/-- Program points of `root_node::ArriveDirectly`. -/
inductive DirectPc
  | start
  | cas
  | done
  deriving DecidableEq, Repr

/-- One activation record on a thread's stack, with the locals of its function:
`root_node::Arrive`, `Depart` and `Query` (before or after their one access, a
`Query` holding the value it returns), `root_node::ArriveDirectly(cont)` and
`DepartDirectly(cont)`, and `node::Arrive` and `node::Depart` running on
`others[node]`. -/
inductive Frame
  | rootArrive (added : Bool)
  | rootDepart (subtracted : Bool)
  | rootQuery (result : Option Bool)
  | arriveDirectly (pc : DirectPc) (oldx : Int) (numFailures : Nat)
  | departDirectly (subtracted : Bool)
  | nodeArrive (node : Nat) (pc : ArrivePc) (oldx : Int) (pArrInv : Bool)
  | nodeDepart (node : Nat) (pc : DepartPc) (oldx : Int)
  deriving DecidableEq, Repr

/-- The node whose counter the frame works on; the root is `0`. -/
def Frame.node : Frame → Nat
  | .nodeArrive n .. | .nodeDepart n .. => n
  | _ => 0

/-- The operation a frame performs. -/
def Frame.op : Frame → Op
  | .rootArrive _ | .arriveDirectly .. | .nodeArrive .. => .arrive
  | .rootDepart _ | .departDirectly _ | .nodeDepart .. => .depart
  | .rootQuery _ => .query

/-- The frame that runs `Arrive` on node `n`: the root's or `others[n]`'s, as the
`switch` on the index dispatches. -/
def arriveOn (n : Nat) : Frame :=
  if n = 0 then .rootArrive false else .nodeArrive n .start 0 false

/-- The frame that runs `Depart` on node `n`. -/
def departOn (n : Nat) : Frame :=
  if n = 0 then .rootDepart false else .nodeDepart n .start 0

/-- A thread: its call stack (innermost frame first, empty when idle), the
client's count of its completed `Arrive`s minus its invoked `Depart`s, and its
`contention_status`. -/
structure Thread where
  stack : List Frame := []
  arrived : Nat := 0
  status : ContentionStatus := {}
  deriving DecidableEq, Repr

/-- The shared memory: every node's counter `X` (index `0` is the root's) and
every non-root node's `announce` flag. -/
structure State (τ : Type) where
  X : Nat → Int
  announce : Nat → Bool
  threads : τ → Thread

/-- Freshly constructed: every counter `0`, every flag `false`, every thread idle. -/
def State.init (τ : Type) : State τ where
  X := fun _ => 0
  announce := fun _ => false
  threads := fun _ => {}

/-- What the node operations read of the constructed object: every node's stored
`parent` index and every thread's leaf. -/
structure Wiring (τ : Type) where
  parent : Nat → Nat
  leaf : τ → Nat


end Snzi.Machine

namespace Snzi.Tree

/-- The wiring of a constructed shape, with thread `t` using identifier `tidOf t`. -/
def Shape.wiring {τ : Type} (shape : Shape) (tidOf : τ → SizeType) : Snzi.Machine.Wiring τ where
  parent n := (shape.parent (BitVec.ofNat 64 n)).toNat
  leaf t := (shape.getLeafForThread (tidOf t)).toNat

end Snzi.Tree

namespace Snzi.Machine

/-- What a thread does in one step, as seen by the trace: an invocation or
response of a public operation, a frame on `node` calling its parent's `Arrive`
or `Depart` or that call returning to it, or an internal step. -/
inductive Event
  | invoke (op : Op)
  | respond (op : Op) (result : Bool)
  | callArrive (node : Nat)
  | returnArrive (node : Nat)
  | callDepart (node : Nat)
  | returnDepart (node : Nat)
  | internal
  deriving DecidableEq, Repr

end Snzi.Machine
