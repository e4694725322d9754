import Mathlib.Order.Monotone.Basic

/-!
# Simulations

Two deterministic machines behave in the same way if an observer cannot tell their runs apart.  An
observer sees something of every state, and what can be seen of a run is what can be seen of any of
its states.

A simulation relates states of two machines.  For every step of the first machine the second makes
some steps, or none if the first comes closer to a state where it cannot be waited for any longer.
Steps that are undefined need not be matched.
-/

namespace ThreeAddress

variable {σ σ' ο : Type}
variable {s : σ} {s' : σ'}

def Observes (step : σ → σ) (observe : σ → ο) (s : σ) (o : ο) : Prop :=
  ∃ n, observe (step^[n] s) = o

def Defined (step : σ → σ) (observe : σ → ο) (undefined : ο → Prop) (s : σ) : Prop :=
  ∀ n, ¬ undefined (observe (step^[n] s))

/-- The second machine follows a step of the first by some steps of its own.  It makes none only if
a measure of the first machine decreases, and nothing else can be seen on the way. -/
def Follows (step : σ → σ) (step' : σ' → σ') (observe : σ → ο) (observe' : σ' → ο)
    (related : σ → σ' → Prop) (measure : σ → Nat) (s : σ) (s' : σ') : Prop :=
  ∃ n, related (step s) (step'^[n] s') ∧ (n = 0 → measure (step s) < measure s) ∧
    ∀ m ≤ n, observe' (step'^[m] s') = observe s ∨ observe' (step'^[m] s') = observe (step s)

/-- A simulation of one machine by another.  The measure bounds how long the second machine waits
for the first. -/
structure Simulation (step : σ → σ) (step' : σ' → σ') (observe : σ → ο) (observe' : σ' → ο)
    (undefined : ο → Prop) (related : σ → σ' → Prop) (measure : σ → Nat) : Prop where
  agree : ∀ s s', related s s' → observe s = observe' s'
  advance : ∀ s s', related s s' → ¬ undefined (observe (step s)) →
    Follows step step' observe observe' related measure s s'

theorem Follows.of_step {step : σ → σ} {step' : σ' → σ'} {observe : σ → ο} {observe' : σ' → ο}
    {related : σ → σ' → Prop} {measure : σ → Nat} (hs : observe s = observe' s')
    (hrelated : related (step s) (step' s')) (hnext : observe (step s) = observe' (step' s')) :
    Follows step step' observe observe' related measure s s' := by
  refine ⟨1, hrelated, by simp, fun m hm => ?_⟩
  obtain rfl | rfl : m = 0 ∨ m = 1 := by omega
  · exact .inl hs.symm
  · exact .inr hnext.symm

namespace Simulation

variable {step : σ → σ} {step' : σ' → σ'} {observe : σ → ο} {observe' : σ' → ο}
  {undefined : ο → Prop} {related : σ → σ' → Prop} {measure : σ → Nat}

section

variable (h : Simulation step step' observe observe' undefined related measure)

include h

/-- What the first machine reaches by defined steps is related to what the second reaches. -/
theorem exists_related (hs : related s s') {n : Nat}
    (hdefined : ∀ m ≤ n, ¬ undefined (observe (step^[m] s))) :
    ∃ m, related (step^[n] s) (step'^[m] s') := by
  induction n with
  | zero => exact ⟨0, hs⟩
  | succ n ih =>
    obtain ⟨m, hm⟩ := ih fun i hi => hdefined i (by omega)
    have hnext := hdefined (n + 1) (Nat.le_refl _)
    rw [Function.iterate_succ_apply'] at hnext ⊢
    obtain ⟨k, hk, -⟩ := h.advance _ _ hm hnext
    exact ⟨k + m, by rwa [Function.iterate_add_apply]⟩

/-- There are times, one after another, at which the second machine is where the first is. -/
theorem exists_schedule (hs : related s s') : ∃ time : Nat → Nat, Monotone time ∧
      ∀ n, (∀ m ≤ n, ¬ undefined (observe (step^[m] s))) →
        related (step^[n] s) (step'^[time n] s') := by
  -- The steps that follow the `n`-th step of the first machine, from a time of the second on.
  let wait (n k : Nat) : Nat := Classical.epsilon fun j =>
    related (step^[n + 1] s) (step'^[j + k] s')
  let time (n : Nat) : Nat := n.rec 0 fun n k => wait n k + k
  refine ⟨time, monotone_nat_of_le_succ fun n => Nat.le_add_left _ _, fun n hdefined => ?_⟩
  induction n with
  | zero => exact hs
  | succ n ih =>
    have hn := ih fun m hm => hdefined m (by omega)
    have hnext := hdefined (n + 1) (Nat.le_refl _)
    rw [Function.iterate_succ_apply'] at hnext
    obtain ⟨k, hk, -⟩ := h.advance _ _ hn hnext
    have hexists : ∃ j, related (step^[n + 1] s) (step'^[j + time n] s') :=
      ⟨k, by rwa [Function.iterate_succ_apply', Function.iterate_add_apply]⟩
    exact Classical.epsilon_spec hexists

/-- What can be seen of the second machine can be seen of the first. -/
theorem exists_observed {m : Nat} :
    ∀ {s : σ} {s' : σ'}, related s s' → Defined step observe undefined s →
      ∃ n, observe (step^[n] s) = observe' (step'^[m] s') := by
  -- The steps that the second machine has left decrease, or else it waits and the measure does.
  induction m using Nat.strongRecOn with
  | ind m ihm =>
    intro s
    induction hmeasure : measure s using Nat.strongRecOn generalizing s with
    | ind k ihk =>
      intro s' hs hdefined
      obtain ⟨n, hn, hwait, hseen⟩ := h.advance s s' hs (hdefined 1)
      by_cases hm : m ≤ n
      · rcases hseen m hm with hsame | hnext
        · exact ⟨0, hsame.symm⟩
        · exact ⟨1, hnext.symm⟩
      · cases n with
        | zero =>
          obtain ⟨j, hj⟩ := ihk _ (hmeasure ▸ hwait rfl) rfl hn fun i => hdefined (i + 1)
          exact ⟨j + 1, hj⟩
        | succ n =>
          obtain ⟨j, hj⟩ := ihm (m - (n + 1)) (by omega) hn fun i => hdefined (i + 1)
          refine ⟨j + 1, hj.trans ?_⟩
          rw [← Function.iterate_add_apply]
          congr 2
          omega

end

end Simulation

end ThreeAddress
