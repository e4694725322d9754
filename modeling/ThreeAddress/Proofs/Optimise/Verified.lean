import ThreeAddress.Proofs.Optimise.Behaviour

/-!
# Optimised programs pass verification

Every pass edits a body: it removes instructions and replaces others.  The types are kept by what an
instruction may be replaced by.  Jumps stay defined for another reason in each pass: folding, copy
propagation and the removal of dead stores and of redundant jumps never remove a label, a label is
not unused if a jump that remains names it, and what a reachable jump leads to is reachable.
-/

namespace ThreeAddress

open List Program Instr

variable {aliased : NameSet}

/-- All that verification asks of a body, with the type of every name. -/
structure Verified (floatingPoint : Bool) (returns : Option ScalarType)
    (arity? : String → Option Nat) (types : String → ScalarType) (body : Listing Instr) : Prop
    extends Accepted returns arity? types body where
  usesDouble_eq : ∀ i ∈ body, floatingPoint = true ∨ i.usesDouble = false

variable {floatingPoint : Bool} {returns : Option ScalarType} {arity? : String → Option Nat}
  {types : String → ScalarType} {body result : Listing Instr}

/-! ### Edited bodies -/

section

variable (h : Verified floatingPoint returns arity? types body)

include h

/-- A body stays verified if what replaces an instruction jumps nowhere else and uses no other
feature, and if every label remains that some remaining jump names. -/
theorem Verified.edit {edits : List (Option Instr)} (hlength : edits.length = body.length)
    (hwellFormed : WellFormed returns arity? types edits.reduceOption)
    (hedit : ∀ (k : Nat) i i', body[k]? = some i → edits[k]? = some (some i') →
      (∀ l, i'.target? = some l → i.target? = some l) ∧
      (i'.usesDouble = true → i.usesDouble = true))
    (hlabel : ∀ (j k : Nat) i' l, edits[j]? = some (some i') → i'.target? = some l →
      body[k]? = some (.label l) → edits[k]? = some (some (.label l))) :
    Verified floatingPoint returns arity? types edits.reduceOption := by
  refine ⟨⟨hwellFormed, fun i' hi' l hl => ?_⟩, fun i' hi' => ?_⟩
  · obtain ⟨j, i, hi, hj⟩ := exists_of_mem_reduceOption hlength hi'
    have htarget : i.target? = some l := (hedit j i i' hi hj).1 l hl
    have hdefined := h.target_defined i (mem_of_getElem? hi) l htarget
    obtain ⟨k, hk⟩ := mem_iff_getElem?.mp (mem_labels_iff.mp hdefined)
    have hkept := hlabel j k i' l hj hl hk
    refine mem_filterMap.mpr ⟨.label l, ?_, rfl⟩
    exact reduceOption_mem_iff.mpr (mem_of_getElem? hkept)
  · obtain ⟨k, i, hi, hk⟩ := exists_of_mem_reduceOption hlength hi'
    refine (h.usesDouble_eq i (mem_of_getElem? hi)).imp id fun hi => ?_
    by_contra hdouble
    have := (hedit k i i' ‹_› hk).2 (by simpa using hdouble)
    rw [hi] at this
    cases this

theorem Verified.removal {edits : List (Option Instr)} (hedits : IsRemoval body edits) :
    Verified floatingPoint returns arity? types edits.reduceOption := by
  refine ⟨⟨h.toWellFormed.sublist hedits.sublist, fun i hi l hl => ?_⟩,
    fun i hi => h.usesDouble_eq i (hedits.sublist.subset hi)⟩
  have htargets : TargetsDefined body := fun j hj l' hl' =>
    mem_labels_iff.mp (h.target_defined j hj l' hl')
  exact mem_labels_iff.mpr (hedits.targetsDefined htargets i hi l hl)

/-! ### Passes -/

theorem Verified.foldConstants :
    Verified floatingPoint returns arity? types (foldConstants body) := by
  have hwellFormed := h.toWellFormed.foldConstants
  rw [← reduceOption_map_fold] at hwellFormed ⊢
  refine h.edit (length_map _) hwellFormed (fun k i i' hi hi' => ?_)
    (fun j k i' l _ _ hk => by simp [hk, fold])
  have hfold : i.fold = some i' := by simpa [hi] using hi'
  have htype := h.typeDefect?_eq i (mem_of_getElem? hi)
  rcases fold_cases htype hfold with rfl | ⟨dst, c, rfl, hcomputes, hc⟩ | ⟨l, rfl, hl, -⟩
  · exact ⟨fun l hl => hl, id⟩
  · refine ⟨fun l hl => (by cases hl), fun hdouble => ?_⟩
    have htype : dst.type.isDouble = true := by
      simpa [usesDouble, written?, reads, addressed?, Value.type, hc] using hdouble
    simp [usesDouble, hcomputes.written?_eq, htype]
  · exact ⟨fun l' hl' => hl.trans hl', fun hdouble => (by cases hdouble)⟩

end

theorem usesDouble_mapReads {f : Value → Value} (hf : ∀ v, (f v).type = v.type) (i : Instr) :
    (i.mapReads f).usesDouble = i.usesDouble := by
  have haddressed : (i.mapReads f).addressed? = i.addressed? := by cases i <;> rfl
  simp [usesDouble, haddressed, hf, Function.comp_def]

theorem Verified.propagateCopies {visits : Nat}
    (h : Verified floatingPoint returns arity? types body)
    (hresult : propagateCopies? visits aliased body = some result) :
    Verified floatingPoint returns arity? types result := by
  have hwellFormed := h.toWellFormed.propagateCopies hresult
  obtain ⟨start, hsettled, rfl⟩ := propagateCopies?_eq_some hresult h.variable_type
  refine h.edit length_copyEdits hwellFormed (fun k i i' hi hi' => ?_) fun j k i' l _ _ hk => ?_
  · obtain ⟨known, hknown, rfl⟩ := exists_of_copyEdits hsettled h.variable_type hi hi'
    refine ⟨fun l hl => (i.target?_mapReads _).symm.trans hl, fun hdouble => ?_⟩
    rwa [usesDouble_mapReads hknown.type_substitute] at hdouble
  · obtain ⟨_, _, _, -, -, -, hedit⟩ := @getElem?_copyEdits aliased body start k _ hk
    exact hedit

theorem Verified.eliminateDeadStores (h : Verified floatingPoint returns arity? types body) :
    Verified floatingPoint returns arity? types (eliminateDeadStores aliased body) := by
  rw [← reduceOption_deadEdits]
  exact h.removal (isRemoval_deadEdits aliased body)

/-- Every pass leaves a body that passes verification. -/
theorem Pass.run?_verified {p : Pass} {visits : Nat}
    (h : Verified floatingPoint returns arity? types body)
    (hrun : p.run? visits aliased body = some result) :
    Verified floatingPoint returns arity? types result := by
  cases p with
  | fold =>
    cases hrun
    exact h.foldConstants
  | unreachable =>
    cases hrun
    exact eliminateUnreachable_induction (fun hedits h => h.removal hedits) h
  | copies => exact h.propagateCopies hrun
  | deadStores =>
    cases hrun
    exact h.eliminateDeadStores

/-! ### Functions and programs -/

/-- All of a function but its body. -/
def Function.header (f : Function) : Function := { f with body := [] }

theorem Program.arity?_eq_of_headers {p q : Program}
    (h : q.functions.map Function.header = p.functions.map Function.header) :
    q.arity? = p.arity? := by
  have hheaders : ∀ (p : Program) (callee : String), p.arity? callee =
      ((p.functions.map Function.header).findRev? (·.name == callee)).map (·.params.length) := by
    intro p callee
    rw [arity?, findRev?_eq_find?_reverse, findRev?_eq_find?_reverse,
      ← map_reverse, find?_map, Option.map_map]
    rfl
  funext callee
  rw [hheaders q, hheaders p, h]

theorem Program.verifyFunction_optimise? {p q : Program} {f : Function} {statics : NameSet}
    {c : Config} {r : Optimised} (hr : f.optimise? statics c = some r)
    (hstatics : q.statics = p.statics) (harity : q.arity? = p.arity?)
    (h : p.verifyFunction floatingPoint f = .ok ()) :
    q.verifyFunction floatingPoint r.function = .ok () := by
  obtain ⟨table, hinitial, haccepted, hdouble, hparams⟩ := verifyFunction_eq_ok h
  obtain ⟨course, hcourse, rfl⟩ := Option.map_eq_some_iff.mp hr
  have hresult := rounds?_invariant Pass.run?_verified id id ⟨haccepted, hdouble⟩ hcourse
  have hwithin := hinitial.within
  rw [← hstatics] at hwithin
  refine verifyFunction_of_accepted hwithin ?_ hresult.usesDouble_eq hparams
  rw [harity]
  exact hresult.toAccepted

/-- An optimised program passes the same verification as the program did, and only the bodies of its
functions have changed. -/
theorem Program.verify_optimise {p : Program} {checked c : Config} {r : OptimisedProgram}
    (h : p.verify checked = .ok ()) (hr : p.optimise? c = some r) :
    r.program.verify checked = .ok () ∧ r.program.statics = p.statics ∧
      r.program.functions.map Function.header = p.functions.map Function.header := by
  unfold optimise? at hr
  split at hr
  · obtain ⟨results, hresults, rfl⟩ := Option.map_eq_some_iff.mp hr
    have hforall := forall₂_of_mapM_eq_some hresults
    have hheaders : (results.map Optimised.function).map Function.header =
        p.functions.map Function.header := by
      rw [map_map, ← forall₂_eq_eq_eq, forall₂_map_left_iff,
        forall₂_map_right_iff]
      refine hforall.flip.imp fun r f hf => ?_
      obtain ⟨_, -, rfl⟩ := Option.map_eq_some_iff.mp hf
      rfl
    refine ⟨?_, rfl, hheaders⟩
    unfold verify at h ⊢
    split at h
    · cases h
    rename_i hstatics
    rw [hstatics]
    -- Calls are checked against the headers, and these have not changed.
    refine verifyFunctions_eq_ok_iff.mpr fun g hg => ?_
    obtain ⟨r, hr, rfl⟩ := mem_map.mp hg
    obtain ⟨f, hf, hfr⟩ := exists_of_forall₂_of_mem hforall hr
    exact verifyFunction_optimise? (p := p) hfr rfl (arity?_eq_of_headers hheaders)
      (verifyFunctions_eq_ok_iff.mp h f hf)
  · cases hr
    exact ⟨h, rfl, rfl⟩

/-- The labels, the jump and the copies of this program are gone afterwards. -/
theorem branchingProgram_verify_optimise :
    ∃ r, branchingProgram.optimise? {} = some r ∧ r.program ≠ branchingProgram ∧
      r.program.verify {} = .ok () ∧ r.program.statics = branchingProgram.statics ∧
      r.program.functions.map Function.header = [branchingFunction.header] := by
  have hchanged : (branchingProgram.optimise? {}).map
      (fun r => decide (r.program = branchingProgram)) = some false := by decide +kernel
  obtain ⟨r, hr, hne⟩ := Option.map_eq_some_iff.mp hchanged
  have hverify : branchingProgram.verify {} = .ok () := by decide
  exact ⟨r, hr, of_decide_eq_false hne, verify_optimise hverify hr⟩

end ThreeAddress
