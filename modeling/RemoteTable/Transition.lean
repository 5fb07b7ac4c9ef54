import Mathlib.Tactic.TypeStar
import Mathlib.Tactic.Push
import Mathlib.Algebra.BigOperators.Group.List.Basic
import Mathlib.Algebra.Order.Ring.Nat

/-! # Machines that step

A machine has initial states and a partial step: `step s a` is the state after the
action `a`, or `none` where the action is not enabled.  Any interleaving of any
number of actors is a sequence of actions, so a property of every run is a property
of every reachable state (`Reachable.invariant`).

A machine `Projects` onto another when each of its steps is a step of the other or
leaves the other's state alone.  Whatever holds in the states the second one reaches
then holds of the projections of those the first one reaches.
-/
namespace Transition

/-- A machine with states `σ` and actions `α`. -/
structure Machine (σ α : Type*) where
  Init : σ → Prop
  step : σ → α → Option σ

namespace Machine
variable {σ α τ β : Type*} {M : Machine σ α} {N : Machine τ β} {s s' : σ}

/-- The states of all runs. -/
inductive Reachable (M : Machine σ α) : σ → Prop
  | start {s : σ} : M.Init s → Reachable M s
  | next {s s' : σ} {a : α} : Reachable M s → M.step s a = some s' → Reachable M s'

/-- **The invariant rule**: what holds at the start and is kept by every step out of
a reachable state holds in every reachable state. -/
theorem Reachable.invariant {I : σ → Prop} (hinit : ∀ s, M.Init s → I s)
    (hstep : ∀ s a s', M.Reachable s → I s → M.step s a = some s' → I s')
    (h : M.Reachable s) : I s := by
  induction h with
  | start h0 => exact hinit _ h0
  | next hr ha ih => exact hstep _ _ _ hr ih ha

/-- The state after a sequence of actions, each of which has to be enabled. -/
def run (M : Machine σ α) (s : σ) : List α → Option σ
  | [] => some s
  | a :: as => (M.step s a).bind fun s' => M.run s' as

/-- A run that starts in a reachable state ends in one. -/
theorem Reachable.run {as : List α} (h : M.Reachable s) (hrun : M.run s as = some s') :
    M.Reachable s' := by
  induction as generalizing s with
  | nil => exact Option.some.inj hrun ▸ h
  | cons a as ih =>
    obtain ⟨s₁, hstep, hrest⟩ := Option.bind_eq_some_iff.mp hrun
    exact ih (h.next hstep) hrest

/-- `f` maps the runs of `M` to runs of `N`, stuttering where a step of `M` does not
concern `N`. -/
structure Projects (M : Machine σ α) (N : Machine τ β) (f : σ → τ) : Prop where
  init : ∀ s, M.Init s → N.Init (f s)
  step : ∀ s a s', M.step s a = some s' → f s' = f s ∨ ∃ b, N.step (f s) b = some (f s')

/-- **Reachable states project to reachable states.** -/
theorem Projects.reachable {f : σ → τ} (hf : M.Projects N f) (h : M.Reachable s) :
    N.Reachable (f s) := by
  induction h with
  | start h0 => exact .start (hf.init _ h0)
  | next _ ha ih =>
    rcases hf.step _ _ _ ha with hsame | ⟨b, hb⟩
    · rw [hsame]
      exact ih
    · exact ih.next hb

/-! ### Runs that come to an end -/

section Ending
variable {rank : σ → Nat} {p : α → Bool} {c : Nat}

/-- **A run is paid for by its rank**: when every step costs at least one, and only the actions
in `p` give something back, a run has no more actions than its start and these can pay for. -/
theorem Reachable.length_le
    (hcost : ∀ s a s', M.Reachable s → M.step s a = some s' →
      rank s' + 1 ≤ rank s + if p a then c else 0)
    {as : List α} (h : M.Reachable s) (hrun : M.run s as = some s') :
    as.length + rank s' ≤ rank s + c * as.countP p := by
  induction as generalizing s with
  | nil =>
    obtain rfl := Option.some.inj hrun
    simp
  | cons a as ih =>
    obtain ⟨s₁, hstep, hrest⟩ := Option.bind_eq_some_iff.mp hrun
    have hone := hcost s a s₁ h hstep
    have hmany := ih (h.next hstep) hrest
    rw [List.length_cons]
    by_cases hp : p a = true
    · rw [if_pos hp] at hone
      rw [List.countP_cons_of_pos hp, Nat.mul_succ]
      omega
    · rw [if_neg hp] at hone
      rw [List.countP_cons_of_neg hp]
      omega

/-- **Every run can be driven to its end** by actions that give nothing back: there no such
action is enabled any more. -/
theorem Reachable.exists_stuck
    (hcost : ∀ s a s', M.Reachable s → M.step s a = some s' →
      rank s' + 1 ≤ rank s + if p a then c else 0)
    (h : M.Reachable s) :
    ∃ as s', (∀ a ∈ as, p a = false) ∧ as.length ≤ rank s ∧ M.run s as = some s' ∧
      ∀ a, p a = false → M.step s' a = none := by
  induction hr : rank s using Nat.strongRecOn generalizing s with
  | _ r ih =>
    by_cases hstuck : ∀ a, p a = false → M.step s a = none
    · exact ⟨[], s, by simp, Nat.zero_le r, rfl, hstuck⟩
    · push Not at hstuck
      obtain ⟨a, ha, hne⟩ := hstuck
      obtain ⟨s₁, hstep⟩ := Option.ne_none_iff_exists'.mp hne
      have hone := hcost s a s₁ h hstep
      rw [ha, if_neg Bool.false_ne_true] at hone
      obtain ⟨as, s', has, hlen, hrun, hend⟩ := ih (rank s₁) (by omega) (h.next hstep) rfl
      refine ⟨a :: as, s', List.forall_mem_cons.mpr ⟨ha, has⟩, ?_, ?_, hend⟩
      · rw [List.length_cons]
        omega
      · rw [Machine.run, hstep]
        exact hrun

end Ending

end Machine
end Transition
