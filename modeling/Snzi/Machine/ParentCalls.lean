import Snzi.Machine.Presence

/-!
# Calls to the parent

A node's operations call the parent's `Arrive` when they find the counter at zero,
and the parent's `Depart` to undo a surplus `Arrive` or after taking the counter
from one to zero.  Counted along the trace, the `Arrive`s on the parent that have
returned to a frame on node `n`, minus the `Depart`s that frames on `n` have
issued on the parent, are exactly `n`'s presence at its parent: one while its
counter is non-zero, plus the parent shares its frames hold.  That presence is
never negative, so every parent sees a well-formed sequence of `Arrive`s and
`Depart`s from each child, and no counter is ever decremented from zero.
-/

namespace Snzi.Machine

variable {τ : Type}

/-- How often event `e` occurs in a trace. -/
def eventCount (trace : List (τ × Event)) (e : Event) : Nat :=
  (trace.map Prod.snd).count e

@[simp] theorem eventCount_nil (e : Event) : eventCount ([] : List (τ × Event)) e = 0 := rfl

@[simp] theorem eventCount_snoc (trace : List (τ × Event)) (t : τ) (e e' : Event) :
    eventCount (trace ++ [(t, e)]) e' = eventCount trace e' + if e = e' then 1 else 0 := by
  simp [eventCount, List.count_singleton']

/-- The parent share a frame holds for node `n`'s presence at its parent. -/
def Frame.held (n : Nat) (f : Frame) : Int :=
  if f.node = n then f.parentShare else 0

/-- Node `n`'s presence at its parent: whether its counter is non-zero, and the
parent shares its frames hold. -/
def State.presenceAtParent [Fintype τ] (s : State τ) (n : Nat) : Int :=
  pos (s.X n) + ∑ t, ((s.threads t).stack.map (Frame.held n)).sum

theorem State.presenceAtParent_nonneg [Fintype τ] (s : State τ) (n : Nat) :
    0 ≤ s.presenceAtParent n := by
  have hframes : ∀ l : List Frame, 0 ≤ (l.map (Frame.held n)).sum := by
    intro l
    induction l with
    | nil => simp
    | cons f l ih =>
      have : 0 ≤ f.held n := by
        unfold Frame.held; split
        · exact parentShare_nonneg f
        · exact le_rfl
      simp only [List.map_cons, List.sum_cons]
      omega
  have := pos_nonneg (s.X n)
  have := Finset.sum_nonneg fun t (_ : t ∈ Finset.univ) => hframes (s.threads t).stack
  unfold State.presenceAtParent
  omega

section Step

variable [Fintype τ] [DecidableEq τ] {v : Variant} {w : Wiring τ} {nodes : Nat}
  {s s' : State τ} {t : τ} {n : Nat}

/-- Node `n`'s presence at its parent after thread `t` is replaced. -/
theorem presenceAtParent_update (th' : Thread)
    (hthreads : s'.threads = Function.update s.threads t th') :
    s'.presenceAtParent n = pos (s'.X n) + ∑ u, ((s.threads u).stack.map (Frame.held n)).sum +
      ((th'.stack.map (Frame.held n)).sum - ((s.threads t).stack.map (Frame.held n)).sum) := by
  have := sum_comp_update Finset.univ (fun _ th => (th.stack.map (Frame.held n)).sum)
    s.threads t th'
  simp only [Finset.mem_univ, if_true] at this
  rw [State.presenceAtParent, hthreads, this]
  ring

/-- One step moves node `n`'s presence at its parent exactly as it moves the count
of returned parent `Arrive`s minus issued parent `Depart`s of `n`. -/
theorem presenceAtParent_step (hw : w.WellShaped nodes) (hv : v ≠ .fullContention)
    (hinv : Invariant v w nodes s) {choice : Choice} {e : Event}
    (hstep : step v w s t choice = some (s', e)) (hn : n ≠ 0) :
    s'.presenceAtParent n + (if e = .callDepart n then 1 else 0) =
      s.presenceAtParent n + (if e = .returnArrive n then 1 else 0) := by
  rcases step_eq_some hstep with ⟨op, th', hidle, hinvoke, rfl, rfl⟩ |
    ⟨f, callers, a, hstack, hact, happly⟩
  · obtain ⟨-, rfl⟩ := Thread.invoke_eq_some hv hinvoke
    rw [presenceAtParent_update _ rfl]
    simp [hidle, Frame.held, State.presenceAtParent]
  have hlaw := hinv.law hw hstack hact
  have hsum : ∀ l : List Frame, ((s.threads t).stack.map (Frame.held n)).sum =
      f.held n + (callers.map (Frame.held n)).sum := by
    intro; simp [hstack]
  cases a with
  | set f' | flag _ _ f' =>
    simp only [State.apply, Option.some.injEq, Prod.mk.injEq] at happly
    obtain ⟨rfl, rfl⟩ := happly
    obtain ⟨hnode, -, -, hparent, -⟩ := hlaw
    rw [presenceAtParent_update _ rfl, hsum []]
    simp [State.presenceAtParent, Frame.held, hnode, hparent]
  | write m value f' =>
    simp only [State.apply, Option.some.injEq, Prod.mk.injEq] at happly
    obtain ⟨rfl, rfl⟩ := happly
    obtain ⟨rfl, hnode, -, -, -, hparent, -⟩ := hlaw
    rw [presenceAtParent_update _ rfl, hsum []]
    simp only [State.presenceAtParent, Frame.held, hnode, List.map_cons, List.sum_cons,
      reduceCtorEq, if_false, add_zero]
    by_cases hm : f.node = n
    · subst hm
      simp only [if_true, Function.update_same, hn, if_false] at hparent ⊢
      omega
    · simp only [hm, if_false, Function.update_noteq (Ne.symm hm)]
      omega
  | call caller callee =>
    simp only [State.apply, Option.some.injEq, Prod.mk.injEq] at happly
    obtain ⟨rfl, rfl⟩ := happly
    obtain ⟨hnode, -, -, hcallee, -, hparent, -, -⟩ := hlaw
    rw [presenceAtParent_update _ rfl, hsum []]
    simp only [State.presenceAtParent, State.setThread_X, List.map_cons, List.sum_cons]
    rcases hcallee with rfl | rfl <;>
      simp [callEvent, Frame.held, hnode] at hparent ⊢ <;> split <;> omega
  | ret =>
    cases callers with
    | nil =>
      simp only [State.apply, Option.some.injEq, Prod.mk.injEq] at happly
      obtain ⟨rfl, rfl⟩ := happly
      rw [Frame.valid_not_direct hv (hinv.valid t f (by simp [hstack]))]
      rw [presenceAtParent_update _ rfl, hsum []]
      simp [State.presenceAtParent, Frame.held, hlaw.1]
    | cons caller rest =>
      simp only [State.apply, Option.map_eq_some', Prod.exists, Prod.mk.injEq] at happly
      obtain ⟨f', e', hresume, rfl, rfl⟩ := happly
      have hchain : Chain w.parent (w.leaf t) (f :: caller :: rest) := hstack ▸ hinv.chain t
      obtain ⟨hnode, -, -, hparent, -, rfl⟩ :=
        Frame.resume_law (hinv.valid t caller (by simp [hstack])) hchain.1 hresume
      have hheld : f'.held n =
          caller.held n + (if caller.node = n ∧ f.op = .arrive then 1 else 0) := by
        unfold Frame.held
        rw [hnode, hparent]
        split_ifs <;> simp_all
      have hf : f.held n = 0 := by unfold Frame.held; rw [hlaw.1]; simp
      rw [presenceAtParent_update _ rfl]
      simp only [State.presenceAtParent, State.setThread_X, hstack, List.map_cons,
        List.sum_cons, hheld, hf]
      by_cases harr : f.op = .arrive <;> by_cases hc : caller.node = n <;> simp [harr, hc]

end Step

variable [Fintype τ] [DecidableEq τ] {v : Variant} {w : Wiring τ} {nodes : Nat}

/-- Along every trace, the `Arrive`s on the parent that returned to frames on `n`
minus the `Depart`s that frames on `n` issued on the parent equal `n`'s presence at
its parent. -/
theorem parentCalls_count (hw : w.WellShaped nodes) (hv : v ≠ .fullContention)
    {trace : List (τ × Event)} {s : State τ} (hreach : Reach v w trace s) {n : Nat}
    (hn : n ≠ 0) :
    (eventCount trace (.returnArrive n) : Int) - eventCount trace (.callDepart n) =
      s.presenceAtParent n := by
  induction hreach with
  | init => simp [State.presenceAtParent, State.init, pos]
  | step hreach' hstep ih =>
    have := presenceAtParent_step hw hv (Invariant.reach hw hv hreach') hstep hn
    simp only [eventCount_snoc, Nat.cast_add]
    split <;> split <;> simp_all <;> omega

open Snzi.Tree in
/-- In the no- and semi-contention classes, over every constructed tree with
`K ≥ 2` and `K^(H+1) < 2^64`, every assignment of `tid`s, and every reachable
state of every interleaving of well-formed clients: for every non-root node `n`,
the `Depart`s that operations on `n` have issued on the parent never outnumber
the parent `Arrive`s that have returned to operations on `n`, and every counter
of the tree is non-negative, so none is ever decremented from zero. -/
theorem parentCalls_wellFormed (ceilQuotient : SizeType → SizeType → SizeType)
    (allocates : SizeType → Bool) (K H T : SizeType) (hK : 2 ≤ K.toNat)
    (hfit : K.toNat ^ (H.toNat + 1) < 2 ^ 64) (shape : Shape)
    (hshape : construct ceilQuotient allocates K H T = .returned shape) :
    ∀ {τ : Type} [Fintype τ] [DecidableEq τ] (tidOf : τ → SizeType) (v : Variant),
      v ≠ .fullContention → ∀ (trace : List (τ × Event)) (s : State τ),
        Reach v (shape.wiring tidOf) trace s →
        (∀ n, 0 < n → n < shape.totalNodes.toNat →
          eventCount trace (.callDepart n) ≤ eventCount trace (.returnArrive n)) ∧
        ∀ n < shape.totalNodes.toNat, 0 ≤ s.X n := by
  obtain ⟨-, hwired⟩ := construct_wellShaped ceilQuotient allocates K H T hK hfit shape hshape
  refine fun tidOf v hv trace s hreach => ⟨fun n hn _ => ?_, fun n hn => ?_⟩
  · have hcount := parentCalls_count (hwired tidOf).1 hv hreach (Nat.pos_iff_ne_zero.mp hn)
    have := s.presenceAtParent_nonneg n
    omega
  · exact (Invariant.reach (hwired tidOf).1 hv hreach).X_nonneg hn

open Snzi.Tree in
theorem parentCalls_wellFormed_binary :
    ∃ shape, construct (fun _ _ => 1) (fun _ => true) 2#64 1#64 2#64 =
        .returned shape ∧
      ∀ {τ : Type} [Fintype τ] [DecidableEq τ] (tidOf : τ → SizeType) (v : Variant),
        v ≠ .fullContention → ∀ (trace : List (τ × Event)) (s : State τ),
          Reach v (shape.wiring tidOf) trace s →
          (∀ n, 0 < n → n < shape.totalNodes.toNat →
            eventCount trace (.callDepart n) ≤ eventCount trace (.returnArrive n)) ∧
          ∀ n < shape.totalNodes.toNat, 0 ≤ s.X n :=
  ⟨_, rfl, parentCalls_wellFormed (fun _ _ => 1) (fun _ => true) 2#64 1#64 2#64
    (by decide) (by decide) _ rfl⟩

end Snzi.Machine
