import ThreeAddress.Proofs.Optimise.Behaviour

/-!
# What convergence means

The optimiser stops as soon as a whole round leaves a body as it was.  It compares the body before
the round with the one after it only, so it has to be excluded that one pass undoes what another one
did.  A pass can remove instructions and rewrite those it keeps, and no pass adds an instruction.
If a round leaves the body as it was, then no pass removed anything.  Of the two passes that rewrite
instructions, folding leaves copies of constants and jumps behind, and copy propagation has nothing
to replace in either of them.

This holds of every body, whether it passes verification or not.
-/

namespace ThreeAddress

open Option List Pass

variable {states : List (Pass × Listing Instr)}

/-! ### Rewritten lists -/

section

variable {α β : Type} {R : α → β → Prop}
variable {xs : List α} {ys : List β}

theorem sublistForall₂_append {xs' : List α} {ys' : List β} (h : List.SublistForall₂ R xs ys)
    (h' : List.SublistForall₂ R xs' ys') : List.SublistForall₂ R (xs ++ xs') (ys ++ ys') := by
  rw [sublistForall₂_iff] at h h' ⊢
  obtain ⟨zs, hzs, hsub⟩ := h
  obtain ⟨zs', hzs', hsub'⟩ := h'
  exact ⟨zs ++ zs', rel_append hzs hzs', hsub.append hsub'⟩

/-- What becomes of blocks one by one becomes of the whole.  There may be less data than blocks, and
then the blocks at the end are lost. -/
theorem sublistForall₂_zip {γ : Type} {f : List β × γ → List α} (blocks : List (List β))
    (data : List γ) (h : ∀ x, List.SublistForall₂ R (f x) x.1) :
    List.SublistForall₂ R ((blocks.zip data).flatMap f) blocks.flatten := by
  induction blocks generalizing data with
  | nil => exact .nil
  | cons b rest ih =>
    cases data with
    | nil => exact .nil
    | cons d data =>
      exact sublistForall₂_append (h (b, d)) (ih data)

theorem forall₂_of_length_eq (h : List.SublistForall₂ R xs ys) (hlength : xs.length = ys.length) :
    List.Forall₂ R xs ys := by
  obtain ⟨zs, hzs, hsub⟩ := sublistForall₂_iff.mp h
  have hzs_length : zs.length = ys.length := hzs.length_eq.symm.trans hlength
  rwa [hsub.eq_of_length hzs_length] at hzs

theorem length_le_of_sublistForall₂ (h : List.SublistForall₂ R xs ys) : xs.length ≤ ys.length := by
  obtain ⟨zs, hzs, hsub⟩ := sublistForall₂_iff.mp h
  rw [hzs.length_eq]
  exact hsub.length_le

end

/-! ### What passes do -/

/-- What a pass may make of an instruction that it keeps. -/
def Pass.Rewrites (p : Pass) (i' i : Instr) : Prop :=
  match p with
  | .fold => i.fold = some i'
  | .copies => ∃ known : Copies, i' = i.mapReads known.substitute
  | .unreachable | .deadStores => i' = i

theorem foldConstants_rewrites (body : Listing Instr) :
    List.SublistForall₂ (Pass.Rewrites .fold) (foldConstants body) body := by
  induction body with
  | nil => exact .nil
  | cons i rest ih =>
    rw [foldConstants, filterMap_cons]
    cases hfold : i.fold with
    | none => exact .cons_right ih
    | some i' => exact .cons hfold ih

theorem sublistForall₂_eq_iff {xs ys : Listing Instr} :
    List.SublistForall₂ (· = ·) xs ys ↔ xs.Sublist ys := by
  simp [sublistForall₂_iff, forall₂_eq_eq_eq]

theorem propagateBlock_rewrites (aliased : NameSet) (known : Copies) (block : Listing Instr) :
    List.SublistForall₂ (Pass.Rewrites .copies) (propagateBlock aliased known block) block := by
  induction block generalizing known with
  | nil => exact .nil
  | cons i rest ih =>
    rw [propagateBlock]
    split
    · exact .cons_right (ih known)
    · exact .cons ⟨known, rfl⟩ (ih _)

section

variable {p : Pass} {visits : Nat} {aliased : NameSet} {body result : Listing Instr}

/-- A pass removes instructions and rewrites those it keeps. -/
theorem Pass.run?_rewrites (h : p.run? visits aliased body = some result) :
    List.SublistForall₂ p.Rewrites result body := by
  cases p with
  | fold =>
    cases h
    exact foldConstants_rewrites body
  | unreachable =>
    cases h
    exact sublistForall₂_eq_iff.mpr (eliminateUnreachable_sublist body)
  | copies =>
    obtain ⟨starts, -, rfl⟩ := map_eq_some_iff.mp h
    have hblocks := sublistForall₂_zip (blocksOf Instr.flow body) starts.toList
      fun x => propagateBlock_rewrites aliased (x.2.getD []) x.1
    rwa [flatten_blocksOf] at hblocks
  | deadStores =>
    cases h
    exact sublistForall₂_eq_iff.mpr (eliminateDeadStores_sublist aliased body)

end

/-! ### Passes that leave a body as it was -/

theorem fold_shape {i i' : Instr} (h : i.fold = some i') :
    i' = i ∨ (∃ dst c, i' = .copy dst (.const c)) ∨ ∃ l, i' = .jump l := by
  have horCopy : ∀ dst c?, some (i.orCopy dst c?) = some i' →
      i' = i ∨ (∃ dst c, i' = .copy dst (.const c)) ∨ ∃ l, i' = .jump l := by
    intro dst c? h
    cases c? with
    | none => exact .inl (some.inj h).symm
    | some c => exact .inr (.inl ⟨dst, c, (some.inj h).symm⟩)
  unfold Instr.fold at h
  split at h
  · exact horCopy _ _ h
  · exact horCopy _ _ h
  · exact horCopy _ _ h
  · split at h
    · exact .inl (some.inj h).symm
    · exact horCopy _ _ h
  · split at h
    · exact .inr (Or.inr ⟨_, (some.inj h).symm⟩)
    · cases h
  · split at h
    · cases h
    · exact Or.inr (.inr ⟨_, (some.inj h).symm⟩)
  · exact .inl (some.inj h).symm

/-- If folding and then propagating copies keeps every instruction and leaves it as it was in the
end, folding does so. -/
theorem eq_of_forall₂ {body next : Listing Instr}
    (hfold : List.Forall₂ (fun i' i => i' = i ∨ Pass.Rewrites .fold i' i) next body)
    (hcopies : List.Forall₂ (fun i i' => i = i' ∨ Pass.Rewrites .copies i i') body next) :
    next = body := by
  induction hfold with
  | nil => rfl
  | cons hi _ ih =>
    obtain _ | ⟨hi', hrest⟩ := hcopies
    rw [ih hrest]
    congr 1
    obtain heq | hi := hi
    · exact heq
    · obtain heq | ⟨known, hknown⟩ := hi'
      · exact heq.symm
      · obtain heq | ⟨dst, c, rfl⟩ | ⟨l, rfl⟩ := fold_shape hi
        · exact heq
        · exact hknown.symm
        · exact hknown.symm

def Pass.runIf? (p : Pass) (enabled : Pass → Bool) (visits : Nat) (aliased : NameSet)
    (body : Listing Instr) : Option (Listing Instr) :=
  if enabled p then p.run? visits aliased body else some body

section

variable {p : Pass} {enabled : Pass → Bool} {visits : Nat} {aliased : NameSet}
  {body result : Listing Instr}

theorem Pass.runIf?_of_enabled (hp : enabled p = true) :
    p.runIf? enabled visits aliased body = p.run? visits aliased body := if_pos hp

theorem Pass.runIf?_rewrites (h : p.runIf? enabled visits aliased body = some result) :
    List.SublistForall₂ (fun i' i => i' = i ∨ p.Rewrites i' i) result body := by
  unfold runIf? at h
  split at h
  · obtain ⟨kept, hkept, hsub⟩ := sublistForall₂_iff.mp (run?_rewrites h)
    exact sublistForall₂_iff.mpr ⟨kept, hkept.imp fun _ _ => .inr, hsub⟩
  · cases h
    exact sublistForall₂_iff.mpr ⟨body, forall₂_same.mpr fun _ _ => .inl rfl, .refl body⟩

theorem Pass.runIf?_eq_self (hp : p = .unreachable ∨ p = .deadStores)
    (h : p.runIf? enabled visits aliased body = some result)
    (hlength : result.length = body.length) : result = body := by
  have hrewrites := forall₂_of_length_eq (runIf?_rewrites h) hlength
  have heq : Forall₂ (· = ·) result body := by
    refine hrewrites.imp fun i' i hi => ?_
    rcases hp with rfl | rfl <;> exact hi.elim id id
  rwa [forall₂_eq_eq_eq] at heq

/-- The states of a round are those that the passes leave one after another, where a pass that is
not enabled leaves a body as it is. -/
theorem foldlM_runIf?_of_passStates? {passes : List Pass}
    (h : passStates? visits aliased (passes.filter enabled) body = some states) :
    passes.foldlM (fun b p => p.runIf? enabled visits aliased b) body =
      some ((states.getLast?.map Prod.snd).getD body) := by
  induction passes generalizing body states with
  | nil =>
    cases h
    rfl
  | cons p rest ih =>
    rw [foldlM_cons]
    by_cases hp : enabled p = true
    · rw [filter_cons_of_pos hp] at h
      obtain ⟨next, hnext, hrest⟩ := bind_eq_some_iff.mp h
      obtain ⟨later, hlater, rfl⟩ := map_eq_some_iff.mp hrest
      rw [lastState_cons, ← ih hlater, runIf?_of_enabled hp, hnext]
      rfl
    · rw [filter_cons_of_neg hp] at h
      rw [runIf?, if_neg hp]
      exact ih h

/-- A round that leaves a body as it was consists of passes that do. -/
theorem round?_fixpoint {c : Config} {statics : NameSet}
    (h : round? c statics body = some (states, body)) (hp : c.passes.enables p = true) :
    p.run? c.maxVisits (aliasedNames statics body) body = some body := by
  obtain ⟨states', hstates, heq⟩ := map_eq_some_iff.mp h
  have hround : all.foldlM (fun b p => p.runIf? c.passes.enables c.maxVisits
      (aliasedNames statics body) b) body = some ((states'.getLast?.map Prod.snd).getD body) :=
    foldlM_runIf?_of_passStates? hstates
  rw [(Prod.mk.inj heq).2] at hround
  -- The bodies between the four passes have fewer and fewer instructions, and in the end as many as
  -- at first.
  obtain ⟨b₁, h₁, hround⟩ := bind_eq_some_iff.mp hround
  obtain ⟨b₂, h₂, hround⟩ := bind_eq_some_iff.mp hround
  obtain ⟨b₃, h₃, hround⟩ := bind_eq_some_iff.mp hround
  obtain ⟨b₄, h₄, hround⟩ := bind_eq_some_iff.mp hround
  obtain rfl : b₄ = body := some.inj hround
  have hl₁ := length_le_of_sublistForall₂ (runIf?_rewrites h₁)
  have hl₂ := length_le_of_sublistForall₂ (runIf?_rewrites h₂)
  have hl₃ := length_le_of_sublistForall₂ (runIf?_rewrites h₃)
  have hl₄ := length_le_of_sublistForall₂ (runIf?_rewrites h₄)
  obtain rfl : b₂ = b₁ := runIf?_eq_self (Or.inl rfl) h₂ (by omega)
  obtain rfl : b₄ = b₃ := runIf?_eq_self (.inr rfl) h₄ (by omega)
  obtain rfl : b₂ = b₄ := eq_of_forall₂ (forall₂_of_length_eq (runIf?_rewrites h₁) (by omega))
    (forall₂_of_length_eq (runIf?_rewrites h₃) (by omega))
  -- So each of the four passes, if it is enabled, left the body as it was.
  cases p with
  | fold => exact (runIf?_of_enabled hp).symm.trans h₁
  | unreachable => exact (runIf?_of_enabled hp).symm.trans h₂
  | copies => exact (runIf?_of_enabled hp).symm.trans h₃
  | deadStores => exact (runIf?_of_enabled hp).symm.trans h₄

end

/-! ### Whole optimisations -/

section

variable {c : Config} {statics : NameSet}

theorem round?_of_converged {limit : Nat} {body : Listing Instr} {course : Course}
    (h : rounds? c statics limit body = some course) (hconverged : course.converged = true) :
    ∃ states, round? c statics course.body = some (states, course.body) := by
  induction limit generalizing body course with
  | zero =>
    cases h
    cases hconverged
  | succ limit ih =>
    obtain ⟨⟨states, result⟩, hround, hrest⟩ := bind_eq_some_iff.mp h
    simp only at hrest
    split at hrest
    · rename_i heq
      cases hrest
      subst heq
      exact ⟨states, hround⟩
    · obtain ⟨later, hlater, rfl⟩ := map_eq_some_iff.mp hrest
      exact @ih result later hlater hconverged

theorem Function.converged_of_warnings {f : Function} {r : Optimised}
    (hr : f.optimise? statics c = some r) (hrounds : 0 < c.maxRounds)
    (hwarnings : r.warnings = []) :
    ∃ course, rounds? c statics c.maxRounds f.body = some course ∧ course.converged = true ∧
      r.function = { f with body := course.body } := by
  obtain ⟨course, hcourse, rfl⟩ := map_eq_some_iff.mp hr
  refine ⟨course, hcourse, ?_, rfl⟩
  have hne : (c.maxRounds == 0) = false := by
    rw [beq_eq_false_iff_ne]
    omega
  simpa [hne] using hwarnings

/-- If optimisation stops because a round left the body as it was, which is when it was allowed a
round and gave no warning, then no enabled pass changes the result any more, and neither does
optimising it again. -/
theorem Function.optimise_fixpoint {f : Function} {r : Optimised}
    (hr : f.optimise? statics c = some r) (hrounds : 0 < c.maxRounds)
    (hwarnings : r.warnings = []) :
    (∀ p : Pass, c.passes.enables p = true →
      p.run? c.maxVisits (aliasedNames statics r.function.body) r.function.body =
        some r.function.body) ∧
    ∃ again, r.function.optimise? statics c = some again ∧ again.function = r.function := by
  obtain ⟨course, hcourse, hconverged, hfunction⟩ :=
    Function.converged_of_warnings hr hrounds hwarnings
  obtain ⟨states, hround⟩ := round?_of_converged hcourse hconverged
  rw [hfunction]
  refine ⟨fun p hp => round?_fixpoint hround hp, ?_⟩
  obtain ⟨limit, hlimit⟩ := Nat.exists_eq_add_of_lt hrounds
  have hagain : rounds? c statics c.maxRounds course.body = some ⟨course.body, [states], true⟩ := by
    rw [hlimit, Nat.zero_add, rounds?, hround]
    exact if_pos rfl
  exact ⟨_, congrArg (Option.map _) hagain, rfl⟩

end

/-- Two rounds remove the branch, the copies and the value that nothing reads. -/
theorem branchingFunction_optimise_fixpoint :
    ∃ r, branchingFunction.optimise? branchingProgram.staticNames {} = some r ∧ r.warnings = [] ∧
      r.function ≠ branchingFunction ∧
      (∀ p : Pass, p.run? (2 ^ 62) (aliasedNames branchingProgram.staticNames r.function.body)
        r.function.body = some r.function.body) ∧
      ∃ again, r.function.optimise? branchingProgram.staticNames {} = some again ∧
        again.function = r.function := by
  have hchanged : (branchingFunction.optimise? branchingProgram.staticNames {}).map
      (fun r => (r.warnings, decide (r.function = branchingFunction))) = some ([], false) := by
    decide +kernel
  obtain ⟨r, hr, hresult⟩ := Option.map_eq_some_iff.mp hchanged
  obtain ⟨hwarnings, hne⟩ := Prod.mk.inj hresult
  obtain ⟨hpasses, hagain⟩ := Function.optimise_fixpoint hr (by decide) hwarnings
  exact ⟨r, hr, hwarnings, of_decide_eq_false hne, fun p => hpasses p (by cases p <;> rfl), hagain⟩

end ThreeAddress
