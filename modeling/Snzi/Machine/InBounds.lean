import Snzi.Machine.Presence

/-!
# Every node index stays inside the array

The node operations index `others[n]` with an `n` taken from
`get_leaf_for_thread` or from the `parent` a node stores.  In every reachable
state of every class every frame of every stack is valid (`Frame.Valid`): a node
frame runs on an index in `[1, total_nodes)`, the direct path runs only in the
full-contention class, and an `Arrive` has made no parent call before its loop.
This holds in the full-contention class too, also after a switch to the tree has
taken a counter below zero: validity follows from the control flow alone, and no
counter value enters the argument.
-/

namespace Snzi.Machine

variable {τ : Type}

/-- The frames an action leaves on the stack are valid. -/
def Action.Valid (v : Variant) (nodes : Nat) : Action → Prop
  | .set f | .write _ _ f | .flag _ _ f => f.Valid v nodes
  | .call caller callee => caller.Valid v nodes ∧ callee.Valid v nodes
  | .ret => True

section Frames

variable {v : Variant} {w : Wiring τ} {nodes : Nat} {X : Nat → Int} {announce : Nat → Bool}
  {f : Frame} {a : Action}

/-- Every ordinary step of a valid frame leaves valid frames; a call goes to the
parent, which lies in the array below the caller's index. -/
theorem Frame.step_valid (hw : w.WellShaped nodes) (hvalid : f.Valid v nodes)
    (h : f.step v w.parent X announce = some a) : a.Valid v nodes := by
  cases f with
  | nodeArrive n pc oldx pArrInv =>
    obtain ⟨hn, hlt, hp⟩ := hvalid
    have hup : w.parent n < nodes := (hw.parent_lt n hn hlt).trans hlt
    cases pc <;> simp only [Frame.step, nodeArriveStep, casStep] at h <;> (repeat' split at h) <;>
      cases h <;> first
        | exact ⟨by simp_all [Frame.Valid], arriveOn_valid v hup⟩
        | exact ⟨by simp_all [Frame.Valid], departOn_valid v hup⟩
        | simp_all [Action.Valid, Frame.Valid]
  | nodeDepart n pc oldx =>
    obtain ⟨hn, hlt⟩ := hvalid
    have hup : w.parent n < nodes := (hw.parent_lt n hn hlt).trans hlt
    cases pc <;> simp only [Frame.step, nodeDepartStep, casStep] at h <;> (repeat' split at h) <;>
      cases h <;> first
        | exact ⟨by simp_all [Frame.Valid], departOn_valid v hup⟩
        | simp_all [Action.Valid, Frame.Valid]
  | arriveDirectly pc =>
    cases pc <;> simp only [Frame.step, casStep] at h <;> (try split at h) <;> cases h <;>
      simp_all [Action.Valid, Frame.Valid]
  | rootArrive b | rootDepart b | departDirectly b | rootQuery b =>
    cases b <;> cases h <;> simp_all [Action.Valid, Frame.Valid]

theorem Frame.spuriousStep_valid (hvalid : f.Valid v nodes) (h : f.spuriousStep v X = some a) :
    a.Valid v nodes := by
  unfold Frame.spuriousStep at h
  split at h <;> (try split at h) <;> cases h <;> simp_all [Action.Valid, Frame.Valid]

theorem Frame.resume_valid {f' : Frame} {e : Event} (hvalid : f.Valid v nodes)
    (h : f.resume = some (f', e)) : f'.Valid v nodes := by
  unfold Frame.resume at h
  split at h <;> cases h <;> simp_all [Frame.Valid]

end Frames

/-- Invoking an operation pushes a valid frame: the thread's leaf's, the root's, or
the direct path's in the full-contention class. -/
theorem Thread.invoke_valid {v : Variant} {nodes leaf : Nat} {th th' : Thread} {op : Op}
    (hleaf : leaf < nodes) (h : th.invoke v leaf op = some th') :
    ∀ f ∈ th'.stack, f.Valid v nodes := by
  cases op <;> simp only [Thread.invoke] at h <;> (try split at h) <;> cases h <;>
    simp only [List.mem_singleton, forall_eq] <;> (try split) <;> first
      | exact arriveOn_valid v hleaf
      | exact departOn_valid v hleaf
      | simp_all [Frame.Valid]

section Reach

variable [DecidableEq τ] {v : Variant} {w : Wiring τ} {nodes : Nat} {s s' : State τ} {t : τ}

theorem State.apply_valid {f : Frame} {callers : List Frame} {a : Action} {e : Event}
    (hvalid : ∀ g ∈ f :: callers, g.Valid v nodes) (ha : a.Valid v nodes)
    (happly : s.apply t f callers a = some (s', e)) :
    ∀ g ∈ (s'.threads t).stack, g.Valid v nodes := by
  have hcallers : ∀ g ∈ callers, g.Valid v nodes := fun g hg => hvalid g (by simp [hg])
  cases a with
  | ret =>
    cases callers with
    | nil =>
      simp only [State.apply, Option.some.injEq, Prod.mk.injEq] at happly
      obtain ⟨rfl, -⟩ := happly
      simp
    | cons caller rest =>
      simp only [State.apply, Option.map_eq_some', Prod.exists, Prod.mk.injEq] at happly
      obtain ⟨f', e', hresume, rfl, -⟩ := happly
      have := Frame.resume_valid (hcallers caller (by simp)) hresume
      simp_all
  | call caller callee =>
    simp only [State.apply, Option.some.injEq, Prod.mk.injEq] at happly
    obtain ⟨rfl, -⟩ := happly
    simp_all [Action.Valid]
  | _ =>
    simp only [State.apply, Option.some.injEq, Prod.mk.injEq] at happly
    obtain ⟨rfl, -⟩ := happly
    simp_all [Action.Valid]

/-- Every reachable state of every class has only valid frames. -/
theorem Reach.valid (hw : w.WellShaped nodes) {trace : List (τ × Event)} (hreach : Reach v w trace s) :
    ∀ t, ∀ f ∈ (s.threads t).stack, f.Valid v nodes := by
  induction hreach with
  | init => simp [State.init]
  | @step trace s s' u choice e _ hstep ih =>
    intro t
    by_cases htu : t = u
    · subst htu
      rcases step_eq_some hstep with ⟨op, th', -, hinvoke, rfl, -⟩ |
        ⟨f, callers, a, hstack, hact, happly⟩
      · simpa using Thread.invoke_valid (hw.leaf_lt t) hinvoke
      · have hvalid : ∀ g ∈ f :: callers, g.Valid v nodes := hstack ▸ ih t
        have hf := hvalid f (by simp)
        exact State.apply_valid hvalid
          (hact.elim (Frame.step_valid hw hf) (Frame.spuriousStep_valid hf)) happly
    · rw [step_other hstep htu]
      exact ih t

end Reach

open Snzi.Tree in
/-- In every tree a constructor builds with `K ≥ 2` and `K^(H+1) < 2^64`, in every
class (the full-contention one included, whatever its threads' statuses), for
every assignment of `tid`s and every interleaving: every frame of every reachable
state is valid, so every index a node operation uses for `others[n]` lies in
`[1, total_nodes)`, and every counter a frame writes is inside the array. -/
theorem frames_in_bounds (ceilQuotient : SizeType → SizeType → SizeType)
    (allocates : SizeType → Bool) (K H T : SizeType) (hK : 2 ≤ K.toNat)
    (hfit : K.toNat ^ (H.toNat + 1) < 2 ^ 64) (shape : Shape)
    (hshape : construct ceilQuotient allocates K H T = .returned shape) :
    ∀ {τ : Type} [DecidableEq τ] (tidOf : τ → SizeType) (v : Variant)
      (trace : List (τ × Event)) (s : State τ), Reach v (shape.wiring tidOf) trace s →
      ∀ t, ∀ f ∈ (s.threads t).stack,
        f.Valid v shape.totalNodes.toNat ∧ f.node < shape.totalNodes.toNat := by
  obtain ⟨-, hwell⟩ := construct_wellShaped ceilQuotient allocates K H T hK hfit shape hshape
  refine fun tidOf v trace s hreach t f hf => ?_
  have hw := (hwell tidOf).1
  have hvalid := Reach.valid hw hreach t f hf
  exact ⟨hvalid, Frame.node_lt hvalid hw.root_lt⟩

open Snzi.Tree in
/-- `frames_in_bounds` for the binary tree of height one. -/
theorem frames_in_bounds_binary :
    ∃ shape, construct (fun _ _ => 1) (fun _ => true) 2#64 1#64 2#64 =
        .returned shape ∧
      ∀ {τ : Type} [DecidableEq τ] (tidOf : τ → SizeType) (v : Variant)
        (trace : List (τ × Event)) (s : State τ), Reach v (shape.wiring tidOf) trace s →
        ∀ t, ∀ f ∈ (s.threads t).stack,
          f.Valid v shape.totalNodes.toNat ∧ f.node < shape.totalNodes.toNat :=
  ⟨_, rfl, frames_in_bounds (fun _ _ => 1) (fun _ => true) 2#64 1#64 2#64
    (by decide) (by decide) _ rfl⟩

end Snzi.Machine
