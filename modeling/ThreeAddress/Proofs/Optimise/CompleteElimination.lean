import ThreeAddress.Proofs.Optimise.DeadStoreLockstep

/-!
# One run removes all dead stores

Which stores are dead depends on which others are.  The analysis takes this into account, so one run
of the elimination finds all of them: in the listing that it leaves, every assignment matters, and a
second run removes nothing.  Liveness by paths is the link between the two listings, as it does not
depend on how a listing is cut into blocks.
-/

namespace ThreeAddress

open LiveNames

/-! ### Instructions that matter -/

/-- An instruction that does more than assign a variable, or assigns one that is aliased or live
after it. -/
def MattersAt (aliased : NameSet) (body : Listing Instr) (k : Nat) (i : Instr) : Prop :=
  i.isPure = true → ∃ w, i.written? = some w ∧
    (w.name ∈ aliased ∨ ∃ t ∈ nextPositions Instr.flow body k, LiveAt aliased body t w.name)

section

variable {aliased : NameSet} {body : Listing Instr} {i : Instr} {k : Nat} {x : String}

theorem isDead_eq_false_iff (hi : body[k]? = some i) :
    LiveNames.isDead aliased ((liveAnalysis aliased body).factsAfter k) i = false ↔
      MattersAt aliased body k i := by
  constructor
  · intro hlive hpure
    obtain ⟨w, hw⟩ := exists_written?_of_isPure hpure
    refine ⟨w, hw, ?_⟩
    by_contra hnot
    obtain ⟨haliased, hnext⟩ := not_or.mp hnot
    refine Bool.eq_false_iff.mp hlive (isDead_iff.mpr ⟨hpure, w, hw, fun hx => ?_, haliased⟩)
    obtain ⟨t, ht, hx | hx⟩ := exists_next_of_mem_factsAfter hi hx
    · exact haliased hx
    · exact hnext ⟨t, ht, hx⟩
  · intro hmatters
    refine Bool.eq_false_iff.mpr fun hdead => ?_
    obtain ⟨hpure, -⟩ := isDead_iff.mp hdead
    obtain ⟨w, hw, haliased | ⟨t, ht, hlive⟩⟩ := hmatters hpure
    · obtain ⟨-, u, hu, -, hnot⟩ := isDead_iff.mp hdead
      obtain rfl : u = w := Option.some.inj (hu.symm.trans hw)
      exact hnot haliased
    · exact (neededAt_next_of_isDead hw hdead hi ht).1 hlive.mem_neededAt

/-! ### What is left -/

theorem MattersAt.getElem?_deadEdits (h : MattersAt aliased body k i) (hi : body[k]? = some i) :
    (deadEdits aliased body)[k]? = some (some i) := by
  rw [ThreeAddress.getElem?_deadEdits hi, deadEdit, (isDead_eq_false_iff hi).mpr h,
    if_neg Bool.false_ne_true]

theorem nextPositions_deadEdits (h : MattersAt aliased body k i) (hi : body[k]? = some i) :
    nextPositions Instr.flow (deadEdits aliased body).reduceOption
        (newPosition (deadEdits aliased body) k) =
      (nextPositions Instr.flow body k).map (newPosition (deadEdits aliased body)) :=
  nextPositions_newPosition (length_deadEdits aliased body) hi (h.getElem?_deadEdits hi) rfl
    fun _ hl => (isRemoval_deadEdits aliased body).targetPosition_reduceOption
      (h.getElem?_deadEdits hi) hl

/-- What is live stays live without the dead stores. -/
theorem LiveAt.newPosition (h : LiveAt aliased body k x) :
    LiveAt aliased (deadEdits aliased body).reduceOption
      (newPosition (deadEdits aliased body) k) x := by
  induction h with
  | @read k i v hi hv heffect =>
    have hmatters : MattersAt aliased body k i := fun hpure => by
      obtain ⟨w, hw, haliased⟩ := heffect hpure
      exact ⟨w, hw, .inl haliased⟩
    exact .read (getElem?_newPosition (hmatters.getElem?_deadEdits hi)) hv heffect
  | @readForLive k t i v w hi hv hw ht hlive ih =>
    have hmatters : MattersAt aliased body k i := fun _ => ⟨w, hw, .inr ⟨t, ht, hlive⟩⟩
    refine .readForLive (getElem?_newPosition (hmatters.getElem?_deadEdits hi)) hv hw ?_ ih
    rw [nextPositions_deadEdits hmatters hi]
    exact List.mem_map_of_mem ht
  | @later k t i x hi ht hlive hkeep ih =>
    cases hdead : isDead aliased ((liveAnalysis aliased body).factsAfter k) i with
    | false =>
      have hmatters := (isDead_eq_false_iff hi).mp hdead
      refine .later (getElem?_newPosition (hmatters.getElem?_deadEdits hi)) ?_ ih hkeep
      rw [nextPositions_deadEdits hmatters hi]
      exact List.mem_map_of_mem ht
    | true =>
      -- A dead store is removed, and control goes on behind it.
      have hremoved : (deadEdits aliased body)[k]? = some none := by
        rw [getElem?_deadEdits hi, deadEdit, hdead, if_pos rfl]
      have hnext : i.flow = .next := by
        obtain ⟨hpure, -⟩ := isDead_iff.mp hdead
        cases i <;> first | rfl | cases hpure
      obtain rfl : t = k + 1 := by simpa [nextPositions, hi, hnext] using ht
      rwa [newPosition_succ_none hremoved] at ih

theorem mattersAt_eliminateDeadStores (hi : (eliminateDeadStores aliased body)[k]? = some i) :
    MattersAt aliased (eliminateDeadStores aliased body) k i := by
  rw [← reduceOption_deadEdits] at hi ⊢
  obtain ⟨j, hj, rfl⟩ := exists_of_getElem?_reduceOption hi
  have hi' := (isRemoval_deadEdits aliased body).getElem?_of_kept hj
  have hmatters := (isDead_eq_false_iff hi').mp (isDead_of_getElem?_deadEdits hi' hj).1
  intro hpure
  obtain ⟨w, hw, haliased | ⟨t, ht, hlive⟩⟩ := hmatters hpure
  · exact ⟨w, hw, .inl haliased⟩
  · refine ⟨w, hw, .inr ⟨_, ?_, hlive.newPosition⟩⟩
    rw [nextPositions_deadEdits hmatters hi']
    exact List.mem_map_of_mem ht

theorem eliminateDeadStores_eq_self (h : ∀ k i, body[k]? = some i → MattersAt aliased body k i) :
    eliminateDeadStores aliased body = body := by
  refine (eliminateDeadStores_sublist aliased body).eq_of_length ?_
  rw [← reduceOption_deadEdits, List.reduceOption_length_eq_iff.mpr, length_deadEdits]
  intro e he
  obtain ⟨k, hk⟩ := List.getElem?_of_mem he
  have hlt : k < body.length := length_deadEdits aliased body ▸ (List.getElem?_eq_some_iff.mp hk).1
  have hi := List.getElem?_eq_getElem hlt
  rw [(h k _ hi).getElem?_deadEdits hi] at hk
  rw [← Option.some.inj hk]
  rfl

end

/-- Dead-store elimination is complete in one run.  The analysis ends after a bounded number of
sweeps, every instruction that is left matters in what is left, and a second run removes nothing. -/
theorem eliminateDeadStores_complete (aliased : NameSet) (body : Listing Instr) :
    let a := LiveNames.analysis aliased body
    (∃ n ≤ a.graph.size * a.factBound + 1, a.solve = a.sweep^[n] (Array.replicate a.graph.size ∅) ∧
      a.sweep a.solve = a.solve) ∧
    (∀ k i, (eliminateDeadStores aliased body)[k]? = some i →
      MattersAt aliased (eliminateDeadStores aliased body) k i) ∧
    eliminateDeadStores aliased (eliminateDeadStores aliased body) =
      eliminateDeadStores aliased body := by
  intro a
  obtain ⟨n, hn, heq⟩ := exists_iterate_eq a.sweep (a.graph.size * a.factBound + 1)
    (Array.replicate a.graph.size ∅)
  refine ⟨⟨n, hn, heq, (liveAnalysis_climbs aliased body).sweep_solve.2⟩, ?_, ?_⟩
  · exact fun k i hi => mattersAt_eliminateDeadStores hi
  · exact eliminateDeadStores_eq_self fun k i hi => mattersAt_eliminateDeadStores hi

end ThreeAddress
