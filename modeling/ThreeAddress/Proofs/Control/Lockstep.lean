import ThreeAddress.Proofs.Control.EditedCode

/-!
# Code in lockstep with what an edit leaves of it

Some edits can be followed step by step.  While the old code executes an instruction that is
removed, the edited code waits; otherwise both take a step.  At all times the edited code is at the
new position of where the old code is, and the memories are related.

This says more than that the edited code shows the same behaviour: it fixes the state of the edited
code at the time of every step of the old one.
-/

namespace ThreeAddress

open Machine List

variable {α L σ ρ τ : Type}

def isRemoved (edits : List (Option α)) (k : Nat) : Bool := edits[k]?.any Option.isNone

theorem isRemoved_iff {edits : List (Option α)} {k : Nat} :
    isRemoved edits k = true ↔ edits[k]? = some none := by
  rw [isRemoved, Option.any_eq_true]
  simp

/-- A state of the old code and one of the edited code at the same place. -/
structure InStep (edits : List (Option α)) (related : Nat → σ → σ → Prop) (s s' : State σ ρ) :
    Prop where
  position : s'.position = newPosition edits s.position
  ending : s'.ending = s.ending
  /-- No run ends at an instruction that is removed. -/
  isRemoved_eq : s.ending.isSome = true → isRemoved edits s.position = false
  related : related s.position s.memory s'.memory

variable [DecidableEq L] {M : Machine α L σ ρ τ}

/-- How many steps the edited code takes while the old code takes some: one for each that is not at
an instruction that is removed. -/
def keptSteps (M : Machine α L σ ρ τ) (code : List α) (edits : List (Option α)) (m : σ) : Nat → Nat
  | 0 => 0
  | n + 1 => keptSteps M code edits m n +
    if isRemoved edits (M.stateAt code m n).position then 0 else 1

/-- Outcomes of the same kind after which the memories are related again. -/
inductive OutcomesInStep (M : Machine α L σ ρ τ) (code : List α) (related : Nat → σ → σ → Prop)
    (k : Nat) : Outcome L σ ρ → Outcome L σ ρ → Prop
  | next {m m' : σ} (h : related (k + 1) m m') :
    OutcomesInStep M code related k (.next m) (.next m')
  | jump {l : L} {m m' : σ} (h : related (targetPosition M.flow code l) m m') :
    OutcomesInStep M code related k (.jump l m) (.jump l m')
  | stop {m m' : σ} {ending : Ending ρ} (h : related k m m') :
    OutcomesInStep M code related k (.stop m ending) (.stop m' ending)

theorem outcomesInStep_refl (M : Machine α L σ ρ τ) (code : List α) (k : Nat) (o : Outcome L σ ρ) :
    OutcomesInStep M code (fun _ m m' => m = m') k o o := by
  cases o with
  | next m => exact .next rfl
  | jump l m => exact .jump rfl
  | stop m ending => exact .stop rfl

/-- Every instruction keeps the relation between the memories, in the states that are good. -/
structure Lockstep (M : Machine α L σ ρ τ) (code : List α) (edits : List (Option α))
    (good : Nat → σ → Prop) (related : Nat → σ → σ → Prop) : Prop where
  length_eq : edits.length = code.length
  leave_eq : ∀ {k m m'}, code.length ≤ k → related k m m' → M.leave m = M.leave m'
  kept : ∀ {k m m' i i'}, good k m → related k m m' → code[k]? = some i →
    edits[k]? = some (some i') →
    OutcomesInStep M code related k (M.execute m i) (M.execute m' i')
  removed : ∀ {k m m' i}, good k m → related k m m' → code[k]? = some i → edits[k]? = some none →
    ∃ m₁, M.execute m i = .next m₁ ∧ related (k + 1) m₁ m'
  target_eq : ∀ {k : Nat} {i' l}, edits[k]? = some (some i') → (M.flow i').target? = some l →
    targetPosition M.flow edits.reduceOption l = newPosition edits (targetPosition M.flow code l)

/-- A piece of code and what an edit leaves of it run in lockstep as long as the states of the run
are covered: the states at the same time keep pace.  If all states are covered, every state of the
edited code is reached. -/
def RunsInLockstep (M : Machine α L σ ρ τ) (code code' : List α) (m : σ)
    (covered : State σ ρ → Prop) (keepsPace : List (Option α) → State σ ρ → State σ ρ → Prop) :
    Prop :=
  ∃ edits : List (Option α), edits.length = code.length ∧ edits.reduceOption = code' ∧
    (∀ n, covered (M.stateAt code m n) →
      keepsPace edits (M.stateAt code m n) (M.stateAt code' m (keptSteps M code edits m n))) ∧
    ((∀ n, covered (M.stateAt code m n)) → ∀ t, ∃ n, keptSteps M code edits m n = t)

namespace Lockstep

variable {code : List α} {edits : List (Option α)} {good : Nat → σ → Prop}
  {related : Nat → σ → σ → Prop} {s s' : State σ ρ}

section

variable (h : Lockstep M code edits good related) (hs : InStep edits related s s')
  (hgood : s.ending = none → good s.position s.memory)

include h hs hgood

theorem step_removed (hremoved : isRemoved edits s.position = true) :
    InStep edits related (M.step code s) s' := by
  cases hending : s.ending with
  | some ending => rwa [step_of_ending hending]
  | none =>
    have hnone := isRemoved_iff.mp hremoved
    have hlt : s.position < code.length := h.length_eq ▸ (List.getElem?_eq_some_iff.mp hnone).1
    have hi := getElem?_eq_getElem hlt
    obtain ⟨m₁, hnext, hrelated⟩ := h.removed (hgood hending) hs.related hi hnone
    -- A removed instruction has no new position, so its successor has the same one.
    rw [step_at hending hi, hnext]
    refine ⟨hs.position.trans (newPosition_succ_none hnone).symm, hs.ending, fun hended => ?_,
      hrelated⟩
    rw [show (M.apply code s (.next m₁)).ending = none from hending] at hended
    cases hended

theorem step_kept (hkept : isRemoved edits s.position = false) :
    InStep edits related (M.step code s) (M.step edits.reduceOption s') := by
  cases hending : s.ending with
  | some ending =>
    rwa [step_of_ending hending, step_of_ending (hs.ending.trans hending)]
  | none =>
    have hending' := hs.ending.trans hending
    cases hi : code[s.position]? with
    | none =>
      -- Both are left at their ends.
      have hle := getElem?_eq_none_iff.mp hi
      have hend : edits.reduceOption[s'.position]? = none := by
        rw [hs.position, newPosition_of_length_le (h.length_eq ▸ hle)]
        exact getElem?_eq_none (Nat.le_refl _)
      rw [step_at_end hending hi, step_at_end hending' hend]
      exact ⟨hs.position, by simp [h.leave_eq hle hs.related], fun _ => hkept, hs.related⟩
    | some i =>
      have hlt : s.position < edits.length :=
        h.length_eq ▸ (List.getElem?_eq_some_iff.mp hi).1
      obtain ⟨i', hi'⟩ : ∃ i', edits[s.position]? = some (some i') := by
        cases hedit : edits[s.position] with
        | some i' => exact ⟨i', by rw [getElem?_eq_getElem hlt, hedit]⟩
        | none =>
          rw [isRemoved_iff.mpr (by rw [getElem?_eq_getElem hlt, hedit])] at hkept
          cases hkept
      have hnew : edits.reduceOption[s'.position]? = some i' := by
        rw [hs.position, getElem?_newPosition hi']
      have hout := h.kept (hgood hending) hs.related hi hi'
      rw [step_at hending hi, step_at hending' hnew]
      generalize ho : M.execute s.memory i = o at hout
      generalize ho' : M.execute s'.memory i' = o' at hout
      -- Only an instruction that stops ends the run.
      have hruns {P : Prop} (hended : s.ending.isSome = true) : P := by
        rw [hending] at hended
        cases hended
      cases hout with
      | next hrelated =>
        refine ⟨?_, hs.ending, hruns, hrelated⟩
        show s'.position + 1 = _
        rw [hs.position]
        exact (newPosition_succ hi').symm
      | jump hrelated =>
        exact ⟨h.target_eq hi' (M.target?_of_jump ho'), hs.ending, hruns, hrelated⟩
      | stop hrelated => exact ⟨hs.position, rfl, fun _ => hkept, hrelated⟩

end

section

variable {m m' : σ} {n : Nat}

section

variable (h : Lockstep M code edits good related) (hstart : related 0 m m')

include h hstart

/-- Both pieces of code are in step at all times, if the states of the old code are good. -/
theorem inStep
    (hgood : ∀ j < n, (M.stateAt code m j).ending = none →
      good (M.stateAt code m j).position (M.stateAt code m j).memory) :
    InStep edits related (M.stateAt code m n)
      (M.stateAt edits.reduceOption m' (keptSteps M code edits m n)) := by
  induction n with
  | zero => exact ⟨(newPosition_zero edits).symm, rfl, nofun, hstart⟩
  | succ n ih =>
    have hs := ih fun j hj => hgood j (by omega)
    rw [stateAt_succ, keptSteps]
    -- The count of steps goes on exactly if the edited code does.
    cases hremoved : isRemoved edits (M.stateAt code m n).position with
    | true => exact h.step_removed hs (hgood n (Nat.lt_succ_self n)) hremoved
    | false =>
      rw [if_neg (by simp), stateAt_succ]
      exact h.step_kept hs (hgood n (Nat.lt_succ_self n)) hremoved

section

variable (hgood : ∀ j, (M.stateAt code m j).ending = none →
  good (M.stateAt code m j).position (M.stateAt code m j).memory)

include hgood

theorem exists_keptSteps_succ (n : Nat) :
    ∃ j, keptSteps M code edits m j = keptSteps M code edits m n + 1 := by
  -- The induction is on how far the position is from the end of the code.
  generalize hleft : code.length - (M.stateAt code m n).position = left
  induction left generalizing n with
  | zero =>
    refine ⟨n + 1, ?_⟩
    have hend : edits[(M.stateAt code m n).position]? = none :=
      getElem?_eq_none (by rw [h.length_eq]; omega)
    rw [keptSteps, isRemoved, hend]
    rfl
  | succ left ih =>
    cases hremoved : isRemoved edits (M.stateAt code m n).position with
    | false => exact ⟨n + 1, by rw [keptSteps, hremoved]; rfl⟩
    | true =>
      have hs := h.inStep (n := n) hstart fun j _ => hgood j
      have hending : (M.stateAt code m n).ending = none := by
        refine Option.not_isSome_iff_eq_none.mp fun hended => ?_
        rw [hs.isRemoved_eq hended] at hremoved
        cases hremoved
      have hi : code[(M.stateAt code m n).position]? = some code[(M.stateAt code m n).position] :=
        getElem?_eq_getElem (by omega)
      obtain ⟨m₁, hnext, -⟩ :=
        h.removed (hgood n hending) hs.related hi (isRemoved_iff.mp hremoved)
      -- The old code goes on to the next position, which is nearer to the end.
      have hmoves : (M.stateAt code m (n + 1)).position = (M.stateAt code m n).position + 1 := by
        rw [stateAt_succ, step_at hending hi, hnext]
        rfl
      obtain ⟨j, hj⟩ := ih (n + 1) (by omega)
      exact ⟨j, by rw [hj, keptSteps, hremoved]; rfl⟩

/-- Every step of the edited code is taken at some time. -/
theorem exists_keptSteps_eq (t : Nat) : ∃ n, keptSteps M code edits m n = t := by
  induction t with
  | zero => exact ⟨0, rfl⟩
  | succ t ih =>
    obtain ⟨n, rfl⟩ := ih
    exact h.exists_keptSteps_succ hstart hgood n

end

/-- The edited code shows the behaviour of the old one, if related memories look the same and the
states before one that is not undefined are good. -/
theorem preserves (hseen : ∀ {k m m'}, related k m m' → M.seen m = M.seen m')
    (hgood : ∀ {j n}, j < n → (M.stateAt code m n).ending ≠ some .undefined →
      (M.stateAt code m j).ending = none →
      good (M.stateAt code m j).position (M.stateAt code m j).memory) :
    Preserves M code m M edits.reduceOption m' := by
  have hobserve {n : Nat} (hdefined : (M.stateAt code m n).ending ≠ some .undefined) :
      M.observe (M.stateAt code m n) =
        M.observe (M.stateAt edits.reduceOption m' (keptSteps M code edits m n)) := by
    have hs := h.inStep hstart fun j hj => hgood hj hdefined
    rw [observe, observe, hseen hs.related, hs.ending]
  constructor
  · rintro o ⟨n, rfl⟩ hdefined
    exact ⟨_, (hobserve hdefined).symm⟩
  · rintro hdefined o ⟨t, rfl⟩
    obtain ⟨n, rfl⟩ := h.exists_keptSteps_eq hstart
      (fun j => hgood (Nat.lt_succ_self j) (hdefined (j + 1))) t
    exact ⟨n, hobserve (hdefined n)⟩

end

theorem runsInLockstep (h : Lockstep M code edits good related) (hstart : related 0 m m)
    {covered : State σ ρ → Prop} {keepsPace : List (Option α) → State σ ρ → State σ ρ → Prop}
    (hgood : ∀ {j n}, j < n → covered (M.stateAt code m n) → (M.stateAt code m j).ending = none →
      good (M.stateAt code m j).position (M.stateAt code m j).memory)
    (hpace : ∀ {n s'}, InStep edits related (M.stateAt code m n) s' →
      keepsPace edits (M.stateAt code m n) s') :
    RunsInLockstep M code edits.reduceOption m covered keepsPace :=
  ⟨edits, h.length_eq, rfl, fun _ hcovered => hpace (h.inStep hstart fun _ hj => hgood hj hcovered),
    fun hcovered => h.exists_keptSteps_eq hstart fun j => hgood (Nat.lt_succ_self j) (hcovered _)⟩

end

end Lockstep

end ThreeAddress
