import ThreeAddress.Proofs.Control.Edits
import ThreeAddress.Proofs.Control.Machine

/-!
# Code after an edit

A pass replaces some instructions of a piece of code and removes others.  The new code may also run
on another machine.  It shows the behaviour of the old code if there is a relation between memories,
one for every position, that holds at the start and is kept by every instruction: a replaced
instruction has the outcome of the old one, and one that is removed only moved on.
-/

namespace ThreeAddress

open Machine List

/-- Control goes to the new place of where it went, if an instruction is kept or replaced by one
that goes there too. -/
theorem nextPositions_newPosition {α α' L : Type} [DecidableEq L] {flow : α → Flow L}
    {flow' : α' → Flow L} {code : List α} {edits : List (Option α')} {k : Nat} {i : α} {i' : α'}
    (hlength : edits.length = code.length) (hi : code[k]? = some i)
    (hi' : edits[k]? = some (some i')) (hflow : flow' i' = flow i)
    (htarget : ∀ l, (flow i).target? = some l →
      targetPosition flow' edits.reduceOption l = newPosition edits (targetPosition flow code l)) :
    nextPositions flow' edits.reduceOption (newPosition edits k) =
      (nextPositions flow code k).map (newPosition edits) := by
  have hend :=
    newPosition_of_length_le hlength.le
  rw [nextPositions, nextPositions, getElem?_newPosition hi', hi, Option.map_some, Option.map_some,
    hflow]
  cases hf : flow i with
  | jump l | branch l => simp [htarget l (by rw [hf]; rfl), newPosition_succ hi']
  | label l | next => simp [newPosition_succ hi']
  | ret => simp [hend]

/-! ### Replaced instructions -/

section

variable {α α' L : Type} {code : List α} {drop : α' → Bool} {replace : α → α'} {k : Nat}

/-- The edit that replaces every instruction, and drops some of what results. -/
def replacing (replace : α → α') (drop : α' → Bool) (code : List α) : List (Option α') :=
  code.map fun i => if drop (replace i) then none else some (replace i)

theorem reduceOption_replacing (replace : α → α') (drop : α' → Bool) (code : List α) :
    (replacing replace drop code).reduceOption = (code.map replace).filter fun i => !drop i := by
  unfold replacing
  induction code with
  | nil => rfl
  | cons i rest ih =>
    rw [map_cons, map_cons, filter_cons]
    cases hdrop : drop (replace i) with
    | true => simpa [reduceOption_cons_of_none] using ih
    | false => simpa [reduceOption_cons_of_some] using ih

theorem getElem?_replacing_eq_some_some {i' : α'}
    (h : (replacing replace drop code)[k]? = some (some i')) :
    ∃ i, code[k]? = some i ∧ i' = replace i := by
  rw [replacing, getElem?_map, Option.map_eq_some_iff] at h
  obtain ⟨i, hi, heq⟩ := h
  refine ⟨i, hi, ?_⟩
  split at heq
  · cases heq
  · exact (Option.some.inj heq).symm

theorem getElem?_replacing_eq_some_none (h : (replacing replace drop code)[k]? = some none) :
    ∃ i, code[k]? = some i ∧ drop (replace i) = true := by
  rw [replacing, getElem?_map, Option.map_eq_some_iff] at h
  obtain ⟨i, hi, heq⟩ := h
  refine ⟨i, hi, ?_⟩
  split at heq
  · assumption
  · cases heq

/-- Jumps go to the new place of where they went, if no jump or label is replaced by something that
goes elsewhere, or dropped. -/
theorem targetPosition_replacing [DecidableEq L] {flow : α → Flow L} {flow' : α' → Flow L}
    (hflow : ∀ i ∈ code, flow' (replace i) = flow i)
    (hdrop : ∀ i ∈ code, drop (replace i) = true → flow i = .next) (l : L) :
    targetPosition flow' (replacing replace drop code).reduceOption l =
      newPosition (replacing replace drop code) (targetPosition flow code l) := by
  refine targetPosition_reduceOption (by simp [replacing]) (fun k b hb hl => ?_) fun a ha => ?_
  · obtain ⟨i, hi, rfl⟩ := getElem?_replacing_eq_some_some hb
    exact ⟨i, hi, by rw [← hflow i (mem_of_getElem? hi), hl]⟩
  · have hmem := mem_of_getElem? ha
    have hlabel : flow a = .label l := flow_of_getElem?_targetPosition ha
    have hkept : drop (replace a) = false := by
      by_contra htrue
      rw [hdrop a hmem (by simpa using htrue)] at hlabel
      cases hlabel
    exact ⟨replace a, by simp [replacing, ha, hkept], by rw [hflow a hmem, hlabel]⟩

end

/-! ### Correct edits -/

variable {α α' L σ σ' ρ τ : Type} [DecidableEq L] {M : Machine α L σ ρ τ}
  {M' : Machine α' L σ' ρ τ}

/-- Outcomes of two machines that match at a position of the code of the first.  What can be seen is
the same, and the relation holds where control goes. -/
inductive OutcomesMatch (M : Machine α L σ ρ τ) (M' : Machine α' L σ' ρ τ) (code : List α)
    (related : Nat → σ → σ' → Prop) (k : Nat) : Outcome L σ ρ → Outcome L σ' ρ → Prop
  | next {m : σ} {m' : σ'} (h : related (k + 1) m m') :
    OutcomesMatch M M' code related k (.next m) (.next m')
  | jump {l : L} {m : σ} {m' : σ'} (h : related (targetPosition M.flow code l) m m') :
    OutcomesMatch M M' code related k (.jump l m) (.jump l m')
  | stop {m : σ} {m' : σ'} {ending : Ending ρ} (h : M.seen m = M'.seen m') :
    OutcomesMatch M M' code related k (.stop m ending) (.stop m' ending)

def IsUndefinedAt (M : Machine α L σ ρ τ) (m : σ) (i : α) : Prop :=
  ∃ m₁, M.execute m i = .stop m₁ .undefined

/-- An edit keeps a relation between the memories at every position. -/
structure EditCorrect (M : Machine α L σ ρ τ) (M' : Machine α' L σ' ρ τ) (code : List α)
    (edits : List (Option α')) (related : Nat → σ → σ' → Prop) : Prop where
  length_eq : edits.length = code.length
  seen_eq : ∀ {k m m'}, related k m m' → M.seen m = M'.seen m'
  /-- The same results where the code is left. -/
  leave_eq : ∀ {m m'}, related code.length m m' → M.leave m = M'.leave m'
  /-- An instruction that is kept or replaced has a matching outcome. -/
  kept : ∀ {k m m' i i'}, related k m m' → code[k]? = some i → edits[k]? = some (some i') →
    ¬ IsUndefinedAt M m i →
    OutcomesMatch M M' code related k (M.execute m i) (M'.execute m' i')
  /-- An instruction that is removed only moves on, past labels at most. -/
  removed : ∀ {k m m' i}, related k m m' → code[k]? = some i → edits[k]? = some none →
    ¬ IsUndefinedAt M m i → ∃ t m₁, M.apply code ⟨k, m, none⟩ (M.execute m i) = ⟨t, m₁, none⟩ ∧
      k < t ∧ t ≤ code.length ∧ M.seen m₁ = M.seen m ∧ related t m₁ m' ∧
      ∀ j, k < j → j < t → edits[j]? = some none ∨
        ∃ i' l, edits[j]? = some (some i') ∧ M'.flow i' = .label l
  /-- Jumps go to the new place of where they went. -/
  target_eq : ∀ {k : Nat} {i' l}, edits[k]? = some (some i') → (M'.flow i').target? = some l →
    targetPosition M'.flow edits.reduceOption l =
      newPosition edits (targetPosition M.flow code l)

namespace EditCorrect

variable {code : List α} {edits : List (Option α')} {related : Nat → σ → σ' → Prop}

/-- States of the old code and of the edited one that correspond to each other. -/
inductive Corresponds (M : Machine α L σ ρ τ) (M' : Machine α' L σ' ρ τ) (code : List α)
    (edits : List (Option α')) (related : Nat → σ → σ' → Prop) : State σ ρ → State σ' ρ → Prop
  | running {k : Nat} {m : σ} {m' : σ'} (hk : k ≤ code.length) (h : related k m m') :
    Corresponds M M' code edits related ⟨k, m, none⟩ ⟨newPosition edits k, m', none⟩
  | ended {s : State σ ρ} {s' : State σ' ρ} {ending : Ending ρ} (hs : s.ending = some ending)
    (hs' : s'.ending = some ending) (hseen : M.seen s.memory = M'.seen s'.memory) :
    Corresponds M M' code edits related s s'

theorem Corresponds.observe_eq (h : EditCorrect M M' code edits related) {s : State σ ρ}
    {s' : State σ' ρ} (hs : Corresponds M M' code edits related s s') :
    M.observe s = M'.observe s' := by
  cases hs with
  | running hk hrel => simp [observe, h.seen_eq hrel]
  | ended hs hs' hseen => simp [observe, hs, hs', hseen]

section

variable {k : Nat} {m : σ} {m' : σ'}

/-- The old code at a position and the edited one at its new position. -/
def FollowsAt (M : Machine α L σ ρ τ) (M' : Machine α' L σ' ρ τ) (code : List α)
    (edits : List (Option α')) (related : Nat → σ → σ' → Prop) (k : Nat) (m : σ) (m' : σ') : Prop :=
  Follows (M.step code) (M'.step edits.reduceOption) M.observe M'.observe
    (Corresponds M M' code edits related) (fun s => code.length - s.position) ⟨k, m, none⟩
    ⟨newPosition edits k, m', none⟩

section

variable (h : EditCorrect M M' code edits related)

include h

theorem followsAt_of_step (hrel : related k m m')
    (hstep : Corresponds M M' code edits related (M.step code ⟨k, m, none⟩)
      (M'.step edits.reduceOption ⟨newPosition edits k, m', none⟩)) :
    FollowsAt M M' code edits related k m m' :=
  .of_step (by simp [observe, h.seen_eq hrel]) hstep (hstep.observe_eq h)

theorem followsAt_exit (hrel : related code.length m m') :
    FollowsAt M M' code edits related code.length m m' := by
  refine h.followsAt_of_step hrel ?_
  have hend : edits.reduceOption[newPosition edits code.length]? = none := by
    rw [newPosition_of_length_le (by rw [h.length_eq])]
    exact getElem?_eq_none (Nat.le_refl _)
  rw [step_at_end rfl (getElem?_eq_none (Nat.le_refl _)), step_at_end rfl hend]
  exact .ended rfl (by simp [h.leave_eq hrel]) (h.seen_eq hrel)

theorem followsAt_kept {i : α} {i' : α'} (hrel : related k m m') (hi : code[k]? = some i)
    (hi' : edits[k]? = some (some i')) (hdefined : ¬ IsUndefinedAt M m i) :
    FollowsAt M M' code edits related k m m' := by
  refine h.followsAt_of_step hrel ?_
  have hnew := getElem?_newPosition hi'
  have hlt : k < code.length := (List.getElem?_eq_some_iff.mp hi).1
  have hmatch := h.kept hrel hi hi' hdefined
  rw [step_at rfl hi, step_at rfl hnew]
  generalize ho : M.execute m i = o at hmatch
  generalize ho' : M'.execute m' i' = o' at hmatch
  cases hmatch with
  | @next m₁ m₁' hnext =>
    show Corresponds M M' code edits related ⟨k + 1, m₁, none⟩ ⟨newPosition edits k + 1, m₁', none⟩
    rw [← newPosition_succ hi']
    exact .running hlt hnext
  | @jump l m₁ m₁' hjump =>
    show Corresponds M M' code edits related ⟨targetPosition M.flow code l, m₁, none⟩
      ⟨targetPosition M'.flow edits.reduceOption l, m₁', none⟩
    rw [h.target_eq hi' (M'.target?_of_jump ho')]
    exact .running (targetPosition_le_length M.flow code l) hjump
  | stop hseen => exact .ended rfl rfl hseen

theorem followsAt_removed {i : α} (hrel : related k m m') (hi : code[k]? = some i)
    (hi' : edits[k]? = some none) (hdefined : ¬ IsUndefinedAt M m i) :
    FollowsAt M M' code edits related k m m' := by
  obtain ⟨t, m₁, happly, hkt, ht, hseen, hnext, hlabels⟩ := h.removed hrel hi hi' hdefined
  have hold := (step_at rfl hi).trans happly
  have hle : newPosition edits k ≤ newPosition edits t := newPosition_le_newPosition edits
    (by omega)
  have hlabels' : ∀ j, k ≤ j → j < t → edits[j]? = some none ∨
      ∃ i' l, edits[j]? = some (some i') ∧ M'.flow i' = .label l := by
    intro j hkj hjt
    rcases Nat.eq_or_lt_of_le hkj with rfl | hlt
    · exact .inl hi'
    · exact hlabels j hlt hjt
  have hnew : ∀ n ≤ newPosition edits t - newPosition edits k,
      (M'.step edits.reduceOption)^[n] ⟨newPosition edits k, m', none⟩ =
        ⟨newPosition edits k + n, m', none⟩ := by
    intro n hn
    refine iterate_step_labels fun j hj => ?_
    -- What is left on the way was kept on the way, and holds labels only.
    obtain ⟨q, b, hkq, hqt, hq, hget⟩ := exists_kept_between (hj.trans_le hn)
    rcases hlabels' q hkq hqt with hnone | ⟨i', l, hi', hl⟩
    · cases hq.symm.trans hnone
    · cases hq.symm.trans hi'
      exact ⟨_, l, hget, hl⟩
  refine ⟨newPosition edits t - newPosition edits k, ?_, fun _ => ?_, fun n hn => .inl ?_⟩
  · rw [hold, hnew _ (Nat.le_refl _), Nat.add_sub_cancel' hle]
    exact .running ht hnext
  · rw [hold]
    show code.length - t < code.length - k
    omega
  · rw [hnew n hn]
    simp [observe, h.seen_eq hrel]

end

end

theorem simulation (h : EditCorrect M M' code edits related) :
    Simulation (M.step code) (M'.step edits.reduceOption) M.observe M'.observe
      Observation.IsUndefined (Corresponds M M' code edits related)
      (fun s => code.length - s.position) where
  agree := fun _ _ hs => hs.observe_eq h
  advance := by
    intro s s' hs hdefined
    cases hs with
    | ended hs hs' hseen =>
      refine .of_step (Corresponds.ended hs hs' hseen |>.observe_eq h) ?_ ?_
      all_goals rw [step_of_ending hs, step_of_ending hs']
      · exact .ended hs hs' hseen
      · exact Corresponds.ended hs hs' hseen |>.observe_eq h
    | @running k m m' hk hrel =>
      cases hi : code[k]? with
      | none =>
        obtain rfl : k = code.length := by
          have := getElem?_eq_none_iff.mp hi
          omega
        exact h.followsAt_exit hrel
      | some i =>
        have hundef : ¬ IsUndefinedAt M m i := by
          rintro ⟨m₁, hstop⟩
          rw [step_at rfl hi, hstop] at hdefined
          exact hdefined rfl
        have hlt : k < edits.length := by
          rw [h.length_eq]
          exact (List.getElem?_eq_some_iff.mp hi).1
        cases hi' : edits[k] with
        | none => exact h.followsAt_removed hrel hi (by rw [getElem?_eq_getElem hlt, hi']) hundef
        | some i' =>
          exact h.followsAt_kept hrel hi (by rw [getElem?_eq_getElem hlt, hi']) hundef

/-- The edited code shows the behaviour of the old one. -/
theorem preserves (h : EditCorrect M M' code edits related) {m : σ} {m' : σ'}
    (hm : related 0 m m') : Preserves M code m M' edits.reduceOption m' :=
  .of_simulation h.simulation (.running (Nat.zero_le _) hm)

end EditCorrect

end ThreeAddress
