import Snzi.Machine.InBounds

/-!
# Call stacks in every class

The presence invariant rests on counters that never go below zero, which the
full-contention class does not keep once a thread has switched to the tree.  What
the progress arguments need holds in every class and follows from the control flow
alone: every frame is valid (`Reach.valid`), and every stack is either a chain of
frames up from the thread's leaf, each caller awaiting its callee on the parent
node, or the lone frame of an operation on the root, as `ArriveDirectly` and
`DepartDirectly` run.
-/

namespace Snzi.Machine

variable {τ : Type}

/-- What a step keeps of a frame's place in its stack: the frame left in its place
runs the same operation on the same node, and a call goes from a node below the
root to the same operation on its parent, which the caller then awaits. -/
def Action.Keeps (parent : Nat → Nat) (f : Frame) : Action → Prop
  | .set f' | .write _ _ f' | .flag _ _ f' => f'.node = f.node ∧ f'.op = f.op
  | .call caller callee => caller.node = f.node ∧ caller.op = f.op ∧ f.node ≠ 0 ∧
      (callee = arriveOn (parent f.node) ∨ callee = departOn (parent f.node)) ∧
      caller.Awaits parent callee
  | .ret => True

/-- A well-formed call stack: a chain of frames up from the thread's leaf, or a
lone frame on the root. -/
def Stacked (parent : Nat → Nat) (leaf : Nat) (l : List Frame) : Prop :=
  Chain parent leaf l ∨ ∃ f, l = [f] ∧ f.node = 0

@[simp] theorem Frame.node_nodeArrive (n : Nat) (pc : ArrivePc) (oldx : Int) (pArrInv : Bool) :
    (Frame.nodeArrive n pc oldx pArrInv).node = n := rfl

@[simp] theorem Frame.node_nodeDepart (n : Nat) (pc : DepartPc) (oldx : Int) :
    (Frame.nodeDepart n pc oldx).node = n := rfl

@[simp] theorem Frame.op_nodeArrive (n : Nat) (pc : ArrivePc) (oldx : Int) (pArrInv : Bool) :
    (Frame.nodeArrive n pc oldx pArrInv).op = .arrive := rfl

@[simp] theorem Frame.op_nodeDepart (n : Nat) (pc : DepartPc) (oldx : Int) :
    (Frame.nodeDepart n pc oldx).op = .depart := rfl

section Keeps

variable {v : Variant} {parent : Nat → Nat} {nodes : Nat} {X : Nat → Int}
  {announce : Nat → Bool} {f : Frame} {a : Action}

/-- Every ordinary step of a valid frame keeps its place as `Action.Keeps` says. -/
theorem Frame.step_keeps (hvalid : f.Valid v nodes) (h : f.step v parent X announce = some a) :
    a.Keeps parent f := by
  cases f with
  | nodeArrive n pc oldx pArrInv =>
    obtain ⟨hn, -, -⟩ := hvalid
    cases pc <;> simp only [Frame.step, nodeArriveStep, casStep] at h <;> (repeat' split at h) <;>
      cases h <;> simp_all [Action.Keeps, Frame.Awaits, Nat.pos_iff_ne_zero]
  | nodeDepart n pc oldx =>
    obtain ⟨hn, -⟩ := hvalid
    cases pc <;> simp only [Frame.step, nodeDepartStep, casStep] at h <;> (repeat' split at h) <;>
      cases h <;> simp_all [Action.Keeps, Frame.Awaits, Nat.pos_iff_ne_zero]
  | arriveDirectly pc =>
    cases pc <;> simp only [Frame.step, casStep] at h <;> (try split at h) <;> cases h <;>
      simp [Action.Keeps, Frame.node, Frame.op]
  | rootArrive b | rootDepart b | departDirectly b | rootQuery b =>
    cases b <;> cases h <;> simp [Action.Keeps, Frame.node, Frame.op]

theorem Frame.spuriousStep_keeps (h : f.spuriousStep v X = some a) : a.Keeps parent f := by
  unfold Frame.spuriousStep at h
  split at h <;> (try split at h) <;> cases h <;> simp [Action.Keeps, Frame.node, Frame.op]

/-- A caller resumes on its own node with its own operation. -/
theorem Frame.resume_keeps {caller f' : Frame} {e : Event} (h : caller.resume = some (f', e)) :
    f'.node = caller.node ∧ f'.op = caller.op := by
  unfold Frame.resume at h
  split at h <;> cases h <;> exact ⟨rfl, rfl⟩

end Keeps

section Stacked

variable {parent : Nat → Nat} {leaf : Nat} {f f' : Frame} {l : List Frame}

theorem Stacked.replaceTop (h : Stacked parent leaf (f :: l)) (hnode : f'.node = f.node)
    (hop : f'.op = f.op) : Stacked parent leaf (f' :: l) := by
  rcases h with h | ⟨g, hg, hg0⟩
  · exact .inl (h.replaceTop hnode hop)
  · obtain ⟨rfl, rfl⟩ := List.cons.inj hg
    exact .inr ⟨f', rfl, hnode.trans hg0⟩

/-- Below a caller the stack is a chain: a lone frame on the root has no caller. -/
theorem Stacked.chain_of_cons_cons {caller : Frame} (h : Stacked parent leaf (f :: caller :: l)) :
    Chain parent leaf (f :: caller :: l) :=
  h.resolve_right fun ⟨_, hg, _⟩ => by simp at hg

theorem Stacked.call {caller callee : Frame} (h : Stacked parent leaf (f :: l))
    (hkeeps : (Action.call caller callee).Keeps parent f) :
    Stacked parent leaf (callee :: caller :: l) := by
  obtain ⟨hnode, hop, h0, -, hawait⟩ := hkeeps
  rcases h with h | ⟨g, hg, hg0⟩
  · exact .inl ⟨hawait, h.replaceTop hnode hop⟩
  · obtain ⟨rfl, rfl⟩ := List.cons.inj hg
    exact absurd hg0 h0

theorem Stacked.resume {caller : Frame} {e : Event} (h : Stacked parent leaf (f :: caller :: l))
    (hresume : caller.resume = some (f', e)) : Stacked parent leaf (f' :: l) :=
  have hkeep := Frame.resume_keeps hresume
  .inl (h.chain_of_cons_cons.tail.replaceTop hkeep.1 hkeep.2)

/-- A waiting caller runs on a node of the array below the root. -/
theorem Frame.Awaits.node_pos {parent : Nat → Nat} {v : Variant} {nodes : Nat} {caller callee : Frame}
    (h : caller.Awaits parent callee) (hvalid : caller.Valid v nodes) :
    0 < caller.node ∧ caller.node < nodes := by
  unfold Frame.Awaits at h
  split at h <;> simp_all [Frame.Valid]

/-- Down a call stack the nodes get deeper: every caller runs on a node of larger
index than the innermost frame. -/
theorem Chain.node_lt_callers {w : Wiring τ} {nodes : Nat} {v : Variant} {leaf : Nat}
    (hw : w.WellShaped nodes) : ∀ {f : Frame} {callers : List Frame},
      Chain w.parent leaf (f :: callers) → (∀ g ∈ callers, g.Valid v nodes) →
      ∀ g ∈ callers, f.node < g.node
  | _, [], _, _ => by simp
  | f, caller :: rest, hchain, hvalid => by
    have hpos := hchain.1.node_pos (hvalid caller (by simp))
    have hlt : f.node < caller.node := hchain.1.node_eq ▸ hw.parent_lt _ hpos.1 hpos.2
    have ih := Chain.node_lt_callers hw hchain.2 fun g hg => hvalid g (by simp [hg])
    intro g hg
    rcases List.mem_cons.mp hg with rfl | hg
    · exact hlt
    · exact hlt.trans (ih g hg)

/-- Down a well-formed stack the nodes get deeper. -/
theorem Stacked.node_lt_callers {w : Wiring τ} {nodes : Nat} {v : Variant}
    (hw : w.WellShaped nodes) (h : Stacked w.parent leaf (f :: l)) (hvalid : ∀ g ∈ l, g.Valid v nodes) :
    ∀ g ∈ l, f.node < g.node := by
  rcases h with h | ⟨g, hg, -⟩
  · exact h.node_lt_callers hw hvalid
  · obtain ⟨rfl, rfl⟩ := List.cons.inj hg
    simp

/-- A newly invoked operation runs on the thread's leaf, is a `Query` on the root,
or is a direct operation on the root. -/
theorem Thread.invoke_stacked {v : Variant} {th th' : Thread} {op : Op}
    (h : th.invoke v leaf op = some th') : Stacked parent leaf th'.stack := by
  cases op <;> simp only [Thread.invoke] at h <;> (try split at h) <;> cases h <;> (try split) <;>
    first
      | exact .inl (.inr (arriveOn_node leaf))
      | exact .inl (.inr (departOn_node leaf))
      | simp [Stacked, Chain, Frame.node, Frame.op]

end Stacked

section Reach

variable [DecidableEq τ] {v : Variant} {w : Wiring τ} {nodes : Nat} {s s' : State τ} {t : τ}

theorem State.apply_stacked {f : Frame} {callers : List Frame} {a : Action} {e : Event}
    (h : Stacked w.parent (w.leaf t) (f :: callers)) (hkeeps : a.Keeps w.parent f)
    (happly : s.apply t f callers a = some (s', e)) :
    Stacked w.parent (w.leaf t) (s'.threads t).stack := by
  cases a with
  | ret =>
    cases callers with
    | nil =>
      simp only [State.apply, Option.some.injEq, Prod.mk.injEq] at happly
      obtain ⟨rfl, -⟩ := happly
      simp [Stacked, Chain]
    | cons caller rest =>
      simp only [State.apply, Option.map_eq_some', Prod.exists, Prod.mk.injEq] at happly
      obtain ⟨f', e', hresume, rfl, -⟩ := happly
      simpa using h.resume hresume
  | call caller callee =>
    simp only [State.apply, Option.some.injEq, Prod.mk.injEq] at happly
    obtain ⟨rfl, -⟩ := happly
    simpa using h.call hkeeps
  | set f' | write m value f' | flag m value f' =>
    simp only [State.apply, Option.some.injEq, Prod.mk.injEq] at happly
    obtain ⟨rfl, -⟩ := happly
    simpa using h.replaceTop hkeeps.1 hkeeps.2

/-- Every reachable state of every class has only well-formed stacks. -/
theorem Reach.stacked (hw : w.WellShaped nodes) {trace : List (τ × Event)} (hreach : Reach v w trace s) :
    ∀ t, Stacked w.parent (w.leaf t) (s.threads t).stack := by
  induction hreach with
  | init => simp [State.init, Stacked, Chain]
  | @step trace s s' u choice e hreach hstep ih =>
    intro t
    by_cases htu : t = u
    · subst htu
      rcases step_eq_some hstep with ⟨_, th', -, hinvoke, rfl, -⟩ |
        ⟨f, callers, a, hstack, hact, happly⟩
      · simpa using Thread.invoke_stacked hinvoke
      · have hf : f.Valid v nodes := Reach.valid hw hreach t f (by simp [hstack])
        exact State.apply_stacked (hstack ▸ ih t)
          (hact.elim (Frame.step_keeps hf) Frame.spuriousStep_keeps) happly
    · rw [step_other hstep htu]
      exact ih t

end Reach

/-- What every reachable state of every class keeps: valid frames in well-formed
stacks. -/
structure Shaped (v : Variant) (w : Wiring τ) (nodes : Nat) (s : State τ) : Prop where
  valid : ∀ t, ∀ f ∈ (s.threads t).stack, f.Valid v nodes
  stacked : ∀ t, Stacked w.parent (w.leaf t) (s.threads t).stack

theorem Shaped.reach [DecidableEq τ] {v : Variant} {w : Wiring τ} {nodes : Nat} {s : State τ}
    (hw : w.WellShaped nodes) {trace : List (τ × Event)} (hreach : Reach v w trace s) :
    Shaped v w nodes s :=
  ⟨Reach.valid hw hreach, Reach.stacked hw hreach⟩

end Snzi.Machine
