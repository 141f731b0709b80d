import Snzi.Machine.Thread

/-!
# Histories and the sequential indicator

What a client sees of a run is its history: the invocations and responses of the
operations, in the order they happened.  The history is linearizable when every
operation can be given a point between its invocation and its response at which
it takes effect, such that the operations, taken in the order of their points,
return what the sequential nonzero indicator returns.  An operation still pending
at the end may have a point (it took effect) or not (it is dropped).

A linearization is written as the history with the points inserted: a list of
marks whose erasure is the history, in which each thread's marks come in the
order invocation, point, response, and whose points the sequential indicator
accepts.  The order of the points is a total order of the operations; an
operation that responded before another was invoked has its point before the
other's, so that order respects real-time precedence.

`Move` says what one step of a thread may do to its place in this order, and
`Move.extend` extends a linearization over such a step.
-/

namespace Snzi.Machine

variable {τ : Type}

/-- The sequential nonzero indicator, whose state is the number of `Arrive`s
minus the number of `Depart`s so far: an operation's new state and result. -/
def nziStep (count : Int) : Op → Int × Bool
  | .arrive => (count + 1, false)
  | .depart => (count - 1, false)
  | .query => (count, decide (0 < count))

/-- The events a client sees. -/
def Event.isClient : Event → Bool
  | .invoke _ | .respond _ _ => true
  | _ => false

/-- The history of a trace: its invocations and responses. -/
def history (trace : List (τ × Event)) : List (τ × Event) :=
  trace.filter fun p => p.2.isClient

@[simp] theorem history_append (trace trace' : List (τ × Event)) :
    history (trace ++ trace') = history trace ++ history trace' :=
  List.filter_append _ _

/-- An entry of a linearization: an invocation, the point at which the operation
takes effect with the result it returns, or its response. -/
inductive Mark
  | inv (op : Op)
  | lin (op : Op) (result : Bool)
  | res (op : Op) (result : Bool)
  deriving DecidableEq, Repr

/-- The history event of a mark; points are not seen. -/
def Mark.event : Mark → Option Event
  | .inv op => some (.invoke op)
  | .lin _ _ => none
  | .res op result => some (.respond op result)

/-- A linearization with its points removed. -/
def erase (L : List (τ × Mark)) : List (τ × Event) :=
  L.filterMap fun p => p.2.event.map fun e => (p.1, e)

@[simp] theorem erase_append (L M : List (τ × Mark)) : erase (L ++ M) = erase L ++ erase M :=
  List.filterMap_append _ _ _

/-- Where a thread stands in its sequence of operations. -/
inductive Position
  | idle
  | invoked (op : Op)
  | linearized (op : Op) (result : Bool)
  deriving DecidableEq, Repr

/-- The position after a thread's next mark, if that mark may come next. -/
def Position.next : Position → Mark → Option Position
  | .idle, .inv op => some (.invoked op)
  | .invoked op, .lin op' result => if op' = op then some (.linearized op result) else none
  | .linearized op result, .res op' result' =>
      if op' = op ∧ result' = result then some .idle else none
  | _, _ => none

/-- Where thread `t` stands after a linearization; `none` when its marks are out
of order. -/
def position [DecidableEq τ] (L : List (τ × Mark)) (t : τ) : Option Position :=
  L.foldl (fun p m => if m.1 = t then p.bind fun q => q.next m.2 else p) (some .idle)

/-- A mark run by the sequential indicator: a point must carry the result the
indicator gives its operation. -/
def Mark.run : Mark → Int → Option Int
  | .lin op result, count =>
      if (nziStep count op).2 = result then some (nziStep count op).1 else none
  | _, count => some count

/-- The sequential indicator run on the points of a linearization, in order. -/
def seqRun (L : List (τ × Mark)) : Option Int :=
  L.foldl (fun c m => c.bind m.2.run) (some 0)

/-- A history is linearizable to the sequential nonzero indicator. -/
def Linearizable [DecidableEq τ] (h : List (τ × Event)) : Prop :=
  ∃ L : List (τ × Mark), erase L = h ∧ (∀ t, position L t ≠ none) ∧ seqRun L ≠ none

section Snoc

variable [DecidableEq τ]

@[simp] theorem position_snoc (L : List (τ × Mark)) (u t : τ) (m : Mark) :
    position (L ++ [(u, m)]) t =
      if u = t then (position L t).bind fun q => q.next m else position L t := by
  simp [position, List.foldl_append]

end Snoc

@[simp] theorem seqRun_snoc (L : List (τ × Mark)) (u : τ) (m : Mark) :
    seqRun (L ++ [(u, m)]) = (seqRun L).bind m.run := by
  simp [seqRun, List.foldl_append]

/-- What one step of a thread may do to its position and to its stake (the
amount it adds to the indicator's count), where `answer` is what a `Query` taking
effect at this step returns: invoke an operation, make it take effect, respond
with the result it took effect with, or stay where it is. -/
inductive Move (answer : Bool) : Position → Position → Event → Int → Int → Prop
  | invoke (op : Op) (k : Int) : Move answer .idle (.invoked op) (.invoke op) k k
  | respond (op : Op) (result : Bool) (k : Int) :
      Move answer (.linearized op result) .idle (.respond op result) k k
  | stay (p : Position) (e : Event) (k : Int) : e.isClient = false → Move answer p p e k k
  | update (op : Op) (e : Event) (k k' : Int) : op ≠ .query → e.isClient = false →
      k' = (nziStep k op).1 → Move answer (.invoked op) (.linearized op false) e k k'
  | query (e : Event) (k : Int) : e.isClient = false →
      Move answer (.invoked .query) (.linearized .query answer) e k k

/-- A step that moves one thread extends a linearization: the marks it adds
erase to the step's history, move that thread and no other, and change the
indicator's count by the thread's change of stake, provided a `Query` taking
effect now gets the answer the count gives. -/
theorem Move.extend [DecidableEq τ] {answer : Bool} {p p' : Position} {e : Event} {k k' : Int}
    (hmove : Move answer p p' e k k') {L : List (τ × Mark)} {t : τ} {count : Int}
    (hpos : position L t = some p) (hrun : seqRun L = some count)
    (hanswer : answer = decide (0 < count)) :
    ∃ M : List (τ × Mark), erase M = history [(t, e)] ∧ position (L ++ M) t = some p' ∧
      (∀ u, u ≠ t → position (L ++ M) u = position L u) ∧
      seqRun (L ++ M) = some (count + (k' - k)) := by
  have hother : ∀ (m : Mark) u, u ≠ t → position (L ++ [(t, m)]) u = position L u :=
    fun m u hu => by simp [Ne.symm hu]
  cases hmove with
  | invoke op k =>
    exact ⟨[(t, .inv op)], rfl, by simp [hpos, Position.next], hother _, by simp [hrun, Mark.run]⟩
  | respond op result k =>
    exact ⟨[(t, .res op result)], rfl, by simp [hpos, Position.next], hother _,
      by simp [hrun, Mark.run]⟩
  | stay p e k he => exact ⟨[], by simp [history, he, erase], by simpa using hpos,
      fun _ _ => by simp, by simpa using hrun⟩
  | update op e k k' hop he hk =>
    refine ⟨[(t, .lin op false)], by simp [history, he, erase, Mark.event],
      by simp [hpos, Position.next], hother _, ?_⟩
    cases op <;> simp_all [Mark.run, nziStep, sub_eq_add_neg]
  | query e k he =>
    exact ⟨[(t, .lin .query answer)], by simp [history, he, erase, Mark.event],
      by simp [hpos, Position.next], hother _, by simp [hrun, Mark.run, nziStep, hanswer]⟩

end Snzi.Machine
