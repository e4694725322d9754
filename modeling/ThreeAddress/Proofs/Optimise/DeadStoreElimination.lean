import ThreeAddress.Optimise.DeadStores
import ThreeAddress.Proofs.Control.BackwardFacts
import ThreeAddress.Proofs.Control.Lockstep
import ThreeAddress.Proofs.Optimise.UnreachableCode

/-!
# Correctness of dead-store elimination

The memories of the old body and of the new one agree on the variables that are live and on those
that pointers can reach.  A dead assignment changes neither, and all other instructions depend on
nothing else.
-/

namespace ThreeAddress

open LiveNames Std.ExtTreeSet List CodeAnalysis Machine

namespace LiveNames

/-! ### Live names -/

theorem mem_foldl_insert {names : NameSet} {vs : List Variable} {x : String} :
    x ∈ vs.foldl (fun names v => names.insert v.name) names ↔ x ∈ names ∨ ∃ v ∈ vs, v.name = x := by
  induction vs generalizing names with
  | nil => simp
  | cons v rest ih =>
    rw [foldl_cons, ih, mem_insert, Std.LawfulEqOrd.compare_eq_iff_eq]
    simp only [mem_cons, exists_eq_or_imp]
    tauto

/-- What is live before an instruction that is executed. -/
theorem mem_transfer {aliased live : NameSet} {i : Instr} {x : String} :
    x ∈ transfer aliased live i ↔
      (x ∈ live ∧ ∀ v, i.written? = some v → v.name ≠ x) ∨ (∃ v ∈ i.readVars, v.name = x) ∨
        (mayReadAliased i = true ∧ x ∈ aliased) := by
  have herase : ∀ v : Variable, x ∈ live.erase v.name ↔ x ∈ live ∧ v.name ≠ x := by
    intro v
    rw [mem_erase, ne_eq, Std.LawfulEqOrd.compare_eq_iff_eq]
    exact and_comm
  unfold transfer
  cases mayReadAliased i <;> cases i.written? <;>
    simp [mem_foldl_insert, Std.ExtTreeSet.mem_union_iff, herase, or_assoc]

theorem isDead_iff {aliased live : NameSet} {i : Instr} : isDead aliased live i = true ↔
      i.isPure = true ∧ ∃ v, i.written? = some v ∧ v.name ∉ live ∧ v.name ∉ aliased := by
  unfold isDead
  cases hv : i.written? with
  | none => simp
  | some v => simp [← Std.ExtTreeSet.contains_iff_mem]

/-- A larger set of live names stays larger before an instruction.  If the instruction is dead with
the smaller set, that set does not have its variable. -/
theorem before_mono (aliased : NameSet) (i : Instr) {s t : NameSet} (h : ∀ x ∈ s, x ∈ t) :
    ∀ x ∈ before aliased i s, x ∈ before aliased i t := by
  intro x hx
  unfold before at hx ⊢
  by_cases hs : isDead aliased s i = true
  · rw [if_pos hs] at hx
    split
    · exact h x hx
    · obtain ⟨-, v, hv, hlive, -⟩ := isDead_iff.mp hs
      rw [mem_transfer]
      refine .inl ⟨h x hx, fun w hw => ?_⟩
      rw [hv] at hw
      cases hw
      rintro rfl
      exact hlive hx
  · have ht : ¬ isDead aliased t i = true := by
      intro ht
      obtain ⟨hpure, v, hv, hlive, haliased⟩ := isDead_iff.mp ht
      exact hs (isDead_iff.mpr ⟨hpure, v, hv, fun hmem => hlive (h _ hmem), haliased⟩)
    rw [if_neg hs] at hx
    rw [if_neg ht]
    rw [mem_transfer] at hx ⊢
    rcases hx with ⟨hx, hne⟩ | hx | hx
    · exact .inl ⟨h x hx, hne⟩
    · exact .inr (.inl hx)
    · exact .inr (.inr hx)

end LiveNames

/-! ### The analysis -/

def liveAnalysis (aliased : NameSet) (body : Listing Instr) : CodeAnalysis String Instr Label where
  flow := Instr.flow
  code := body
  before := LiveNames.before aliased
  atExit := aliased
  factBound := (body.flatMap Instr.reads).length + aliased.size

/-- The analysis settles: only names that are read somewhere or aliased can be live. -/
theorem liveAnalysis_climbs (aliased : NameSet) (body : Listing Instr) :
    (liveAnalysis aliased body).byBlocks.Climbs := by
  let read : NameSet := .ofList
    ((body.flatMap Instr.reads).filterMap fun v => v.var?.map Variable.name) compare
  refine climbs (fun i s t h => before_mono aliased i h) (read ∪ aliased)
    ?_ ?_ ?_
  · have hread : read.size ≤ (body.flatMap Instr.reads).length :=
      size_ofList_le.trans (length_filterMap_le _ _)
    have hunion : (read ∪ aliased).size ≤ read.size + aliased.size :=
      size_union_le_size_add_size
    show (read ∪ aliased).size ≤ (body.flatMap Instr.reads).length + aliased.size
    omega
  · intro x hx
    exact mem_union_iff.mpr (.inr hx)
  · intro i hi s hs x hx
    change x ∈ before aliased i s at hx
    unfold LiveNames.before at hx
    split at hx
    · exact hs x hx
    · rw [mem_transfer] at hx
      rcases hx with ⟨hx, -⟩ | ⟨v, hv, rfl⟩ | ⟨-, hx⟩
      · exact hs x hx
      · refine mem_union_iff.mpr (.inl ?_)
        rw [mem_ofList, List.contains_iff_mem]
        obtain ⟨val, hval, hvar⟩ := mem_filterMap.mp hv
        exact mem_filterMap.mpr ⟨val, mem_flatMap.mpr ⟨i, hi, hval⟩, by simp [hvar]⟩
      · exact mem_union_iff.mpr (.inr hx)

/-! ### Edits -/

/-- What becomes of an instruction, given the names live after it. -/
def deadEdit (aliased live : NameSet) (i : Instr) : Option Instr :=
  if LiveNames.isDead aliased live i then none else some i

/-- What becomes of the instructions of a block, given the names live at its end. -/
def deadBlockEdits (aliased : NameSet) (block : Listing Instr) (live : NameSet) :
    List (Option Instr) :=
  List.zipWith (deadEdit aliased)
    (CodeAnalysis.factsThrough (LiveNames.before aliased) block live) block

theorem reduceOption_deadBlockEdits (aliased : NameSet) (block : Listing Instr) (live : NameSet) :
    dropDead aliased block live =
      ((deadBlockEdits aliased block live).reduceOption,
        block.foldr (LiveNames.before aliased) live) := by
  induction block with
  | nil => rfl
  | cons i rest ih =>
    have hdrop : dropDead aliased (i :: rest) live =
        if isDead aliased (dropDead aliased rest live).2 i then dropDead aliased rest live
        else (i :: (dropDead aliased rest live).1,
          transfer aliased (dropDead aliased rest live).2 i) := rfl
    have hedits : deadBlockEdits aliased (i :: rest) live =
        deadEdit aliased (rest.foldr (before aliased) live) i ::
          deadBlockEdits aliased rest live := rfl
    rw [hdrop, hedits, ih, foldr_cons, deadEdit, LiveNames.before]
    by_cases hdead : isDead aliased (rest.foldr (before aliased) live) i = true
    · simp [hdead, reduceOption_cons_of_none]
    · simp [hdead, reduceOption_cons_of_some]

def deadEdits (aliased : NameSet) (body : Listing Instr) : List (Option Instr) :=
  (blocksOf Instr.flow body).zipIdx.flatMap fun (block, n) =>
    deadBlockEdits aliased block ((liveAnalysis aliased body).atEnd n)

theorem reduceOption_deadEdits (aliased : NameSet) (body : Listing Instr) :
    (deadEdits aliased body).reduceOption = eliminateDeadStores aliased body := by
  rw [deadEdits, reduceOption_flatMap]
  refine flatMap_congr fun x _ => ?_
  exact (congrArg Prod.fst (reduceOption_deadBlockEdits aliased x.1 _)).symm

theorem length_deadBlockEdits (aliased : NameSet) (block : Listing Instr) (live : NameSet) :
    (deadBlockEdits aliased block live).length = block.length := by
  simp [deadBlockEdits]

theorem length_deadEdits (aliased : NameSet) (body : Listing Instr) :
    (deadEdits aliased body).length = body.length := by
  rw [deadEdits, length_flatMap_zipIdx fun b n => length_deadBlockEdits aliased b _,
    flatten_blocksOf]

theorem getElem?_deadEdits {aliased : NameSet} {body : Listing Instr} {k : Nat} {i : Instr}
    (hi : body[k]? = some i) :
    (deadEdits aliased body)[k]? =
      some (deadEdit aliased ((liveAnalysis aliased body).factsAfter k) i) := by
  obtain ⟨n, j, b, hin, hb, hget⟩ := exists_inBlock_of_getElem? Instr.flow hi
  rw [deadEdits, getElem?_flatMap_zipIdx (fun b n => length_deadBlockEdits aliased b _) hin hb,
    (liveAnalysis aliased body).factsAfter_eq hin hb]
  show (zipWith _ _ _)[j]? = _
  rw [getElem?_zipWith, getElem?_factsThrough _ (hin.position hb).1, hget]
  rfl

/-! ### Correctness -/

section

variable {e : Environment} {aliased : NameSet} {body : Listing Instr} {i : Instr} {k : Nat}
  {m m' : Memory} {v : Variable}

/-- What the memories of the old and of the new body agree on at a position. -/
def neededAt (aliased : NameSet) (body : Listing Instr) (k : Nat) : Set String :=
  {x | x ∈ (liveAnalysis aliased body).factsBefore k ∨ x ∈ aliased}

theorem subset_neededAt (k : Nat) : {x | x ∈ aliased} ⊆ neededAt aliased body k :=
  fun _ hx => .inr hx

theorem factsBefore_liveAnalysis (hi : body[k]? = some i) :
    (liveAnalysis aliased body).factsBefore k =
      LiveNames.before aliased i ((liveAnalysis aliased body).factsAfter k) :=
  factsBefore_of_getElem? hi

theorem neededAt_next {t : Nat} (hi : body[k]? = some i)
    (hlive : LiveNames.isDead aliased ((liveAnalysis aliased body).factsAfter k) i = false)
    (ht : t ∈ nextPositions Instr.flow body k) :
    neededAt aliased body t ⊆ neededAt aliased body k ∪ Agree.written i := by
  rintro x (hx | hx)
  · have hafter := factsBefore_subset (liveAnalysis_climbs aliased body) ht x hx
    by_cases hw : ∃ v, i.written? = some v ∧ v.name = x
    · exact .inr hw
    · refine .inl (.inl ?_)
      rw [factsBefore_liveAnalysis hi, LiveNames.before, hlive, if_neg (by simp),
        mem_transfer]
      exact .inl ⟨hafter, fun v hv hname => hw ⟨v, hv, hname⟩⟩
  · exact .inl (.inr hx)

theorem neededAt_next_of_isDead {t : Nat} (hv : i.written? = some v)
    (hdead : LiveNames.isDead aliased ((liveAnalysis aliased body).factsAfter k) i = true)
    (hi : body[k]? = some i) (ht : t ∈ nextPositions Instr.flow body k) :
    v.name ∉ neededAt aliased body t ∧ neededAt aliased body t ⊆ neededAt aliased body k := by
  obtain ⟨-, w, hw, hlive, haliased⟩ := isDead_iff.mp hdead
  obtain rfl : w = v := Option.some.inj (hw.symm.trans hv)
  have hsub := factsBefore_subset (liveAnalysis_climbs aliased body) ht
  constructor
  · rintro (hx | hx)
    · exact hlive (hsub _ hx)
    · exact haliased hx
  · rintro x (hx | hx)
    · refine .inl ?_
      rw [factsBefore_liveAnalysis hi, LiveNames.before, if_pos hdead]
      exact hsub x hx
    · exact .inr hx

section

variable (hi : body[k]? = some i)
  (hlive : LiveNames.isDead aliased ((liveAnalysis aliased body).factsAfter k) i = false)

include hi hlive

theorem mem_factsBefore_of_mem_readVars (hv : v ∈ i.readVars) :
    v.name ∈ (liveAnalysis aliased body).factsBefore k := by
  rw [factsBefore_liveAnalysis hi, LiveNames.before, hlive, if_neg (by simp),
    mem_transfer]
  exact .inr (.inl ⟨v, hv, rfl⟩)

theorem mem_neededAt_of_mem_reads (hv : .var v ∈ i.reads) : v.name ∈ neededAt aliased body k :=
  .inl (mem_factsBefore_of_mem_readVars hi hlive (mem_filterMap.mpr ⟨.var v, hv, rfl⟩))

end

theorem outcomesAgree_of_isDead_eq_false (hstatics : e.statics ⊆ {x | x ∈ aliased})
    (hagree : Agree (neededAt aliased body k) m m') (hconfined : Confined {x | x ∈ aliased} m)
    (hi : body[k]? = some i)
    (hlive : LiveNames.isDead aliased ((liveAnalysis aliased body).factsAfter k) i = false) :
    OutcomesAgree (neededAt aliased body k ∪ Agree.written i) (execute e m i) (execute e m' i) := by
  have hsub : {x | x ∈ aliased} ⊆ neededAt aliased body k := subset_neededAt k
  have hconfined' : Confined (neededAt aliased body k) m :=
    ⟨fun x => (hconfined.origins x).trans hsub, hconfined.escaped.trans hsub⟩
  exact hagree.execute hconfined' (hstatics.trans hsub) fun v => mem_neededAt_of_mem_reads hi hlive

theorem agree_of_isDead (hagree : Agree (neededAt aliased body k) m m') (hi : body[k]? = some i)
    (hdead : LiveNames.isDead aliased ((liveAnalysis aliased body).factsAfter k) i = true)
    (hdefined : ¬ IsUndefinedAt e.machine m i) :
    ∃ m₁, execute e m i = .next m₁ ∧ m₁.trace = m.trace ∧
      Agree (neededAt aliased body (k + 1)) m₁ m' := by
  obtain ⟨hpure, v, hv, -⟩ := isDead_iff.mp hdead
  obtain ⟨d, hnext⟩ : ∃ d, execute e m i = .next (m.assign v d) := by
    have hexecute := execute_of_isPure (e := e) (m := m) hpure hv
    cases hr : result? e m i with
    | none => exact absurd ⟨m, hexecute.trans (by rw [hr]; rfl)⟩ hdefined
    | some d => exact ⟨d, by rw [hexecute, hr]; rfl⟩
  have ht := mem_nextPositions_of_next (M := e.machine) hi hnext
  obtain ⟨hnot, hsub⟩ := neededAt_next_of_isDead hv hdead hi ht
  refine ⟨m.assign v d, hnext, rfl, fun x hx => ?_, hagree.escaped, hagree.trace⟩
  have hne : x ≠ v.name := by
    rintro rfl
    exact hnot hx
  rw [Memory.assign, Memory.set_store_of_ne m hne]
  exact hagree.store x (hsub hx)

theorem isDead_of_getElem?_deadEdits {i' : Instr} (hi : body[k]? = some i)
    (hi' : (deadEdits aliased body)[k]? = some (some i')) :
    LiveNames.isDead aliased ((liveAnalysis aliased body).factsAfter k) i = false ∧ i' = i := by
  rw [getElem?_deadEdits hi, deadEdit] at hi'
  obtain ⟨hlive, rfl⟩ := by simpa using hi'
  exact ⟨hlive, rfl⟩

theorem isDead_of_getElem?_deadEdits_eq_none (hi : body[k]? = some i)
    (hi' : (deadEdits aliased body)[k]? = some none) :
    LiveNames.isDead aliased ((liveAnalysis aliased body).factsAfter k) i = true := by
  rw [getElem?_deadEdits hi, deadEdit] at hi'
  simpa using hi'

theorem isRemoval_deadEdits (aliased : NameSet) (body : Listing Instr) :
    IsRemoval body (deadEdits aliased body) where
  length_eq := length_deadEdits aliased body
  keep := fun hi hi' => (isDead_of_getElem?_deadEdits hi hi').2
  target := by
    intro k i l a _ _ ha
    have hlabel := flow_of_getElem?_targetPosition ha
    have hlive : isDead aliased ((liveAnalysis aliased body).factsAfter
        (targetPosition Instr.flow body l)) a = false := by
      cases a <;> first | rfl | cases hlabel
    rw [getElem?_deadEdits ha, deadEdit, hlive, if_neg (by simp)]

/-- Pointers are confined to aliased variables, and the next instruction is defined. -/
def SafeAt (e : Environment) (aliased : NameSet) (body : Listing Instr) (k : Nat) (m : Memory) :
    Prop :=
  Confined {x | x ∈ aliased} m ∧ ∀ i, body[k]? = some i → ¬ IsUndefinedAt e.machine m i

/-- Every instruction keeps the agreement on what is needed. -/
theorem lockstep_deadStores (hstatics : e.statics ⊆ {x | x ∈ aliased}) :
    Lockstep e.machine body (deadEdits aliased body) (SafeAt e aliased body)
      (fun k => Agree (neededAt aliased body k)) where
  length_eq := length_deadEdits aliased body
  leave_eq := fun _ hagree =>
    congrArg (Result.mk none) (hagree.contents_eq (hstatics.trans (subset_neededAt _)))
  kept := by
    intro k m m' i i' hsafe hagree hi hi'
    obtain ⟨hlive, rfl⟩ := isDead_of_getElem?_deadEdits hi hi'
    have hout := outcomesAgree_of_isDead_eq_false hstatics hagree hsafe.1 hi hlive
    show OutcomesInStep e.machine body _ k (execute e m i') (execute e m' i')
    generalize ho : execute e m i' = o at hout
    generalize ho' : execute e m' i' = o' at hout
    cases hout with
    | next hnext =>
      exact .next (hnext.mono (neededAt_next hi hlive
        (mem_nextPositions_of_next (M := e.machine) hi ho)))
    | jump l hjump =>
      exact .jump (hjump.mono (neededAt_next hi hlive (mem_nextPositions_of_jump hi ho)))
    | stop ending htrace =>
      -- Stopping adds to the trace at most.
      obtain ⟨hstore, hescaped⟩ := execute_stop_cases ho
      obtain ⟨hstore', hescaped'⟩ := execute_stop_cases ho'
      refine .stop ⟨fun x hx => ?_, ?_, htrace⟩
      · rw [hstore, hstore', hagree.store x hx]
      · rw [hescaped, hescaped', hagree.escaped]
  removed := by
    intro k m m' i hsafe hagree hi hi'
    obtain ⟨m₁, hnext, -, hagree'⟩ :=
      agree_of_isDead hagree hi (isDead_of_getElem?_deadEdits_eq_none hi hi') (hsafe.2 i hi)
    exact ⟨m₁, hnext, hagree'⟩
  target_eq := (isRemoval_deadEdits aliased body).targetPosition_reduceOption

theorem safeAt_of_not_undefined
    (hconfined : ∀ n, Confined {x | x ∈ aliased} (e.machine.stateAt body m n).memory) {j n : Nat}
    (hj : j < n) (hdefined : (e.machine.stateAt body m n).ending ≠ some .undefined)
    (hending : (e.machine.stateAt body m j).ending = none) :
    SafeAt e aliased body (e.machine.stateAt body m j).position
      (e.machine.stateAt body m j).memory := by
  refine ⟨hconfined j, fun i hi hundefined => ?_⟩
  obtain ⟨m₁, hstop⟩ := hundefined
  refine not_isUndefined_of_le hj hdefined ?_
  show (e.machine.stateAt body m (j + 1)).ending = some .undefined
  rw [stateAt_succ, step_at hending hi, hstop]
  rfl

theorem eliminateDeadStores_sublist (aliased : NameSet) (body : Listing Instr) :
    (eliminateDeadStores aliased body).Sublist body := by
  rw [← reduceOption_deadEdits]
  exact (isRemoval_deadEdits aliased body).sublist

/-- Removing dead stores keeps the behaviour of a body. -/
theorem preserves_eliminateDeadStores (hstatics : e.statics ⊆ {x | x ∈ aliased})
    (haddressed : AddressesWithin aliased body) (hm : Confined {x | x ∈ aliased} m) :
    Preserves e.machine body m e.machine (eliminateDeadStores aliased body) m := by
  rw [← reduceOption_deadEdits]
  exact (lockstep_deadStores hstatics).preserves ⟨fun _ _ => rfl, rfl, rfl⟩ (fun h => h.trace)
    (safeAt_of_not_undefined (haddressed.confined_stateAt hstatics hm))

end

end ThreeAddress
