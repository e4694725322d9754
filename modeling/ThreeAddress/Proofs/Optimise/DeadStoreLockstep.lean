import ThreeAddress.Proofs.Optimise.Behaviour

/-!
# Dead-store elimination in lockstep

A body and what is left of it without its dead stores run in lockstep, as long as the body does
nothing undefined.  At every step the memories agree on the variables that pointers can reach and
on those that are live.

Liveness is stated here without the analysis, by paths through the body: a variable is live if it
is read before it is assigned, by an instruction that matters.  An instruction matters if it does
more than assign a variable, or if that variable is aliased or live after it.  The analysis finds
exactly these variables.
-/

namespace ThreeAddress

open LiveNames

/-! ### Liveness -/

/-- The variables that are live at a position. -/
inductive LiveAt (aliased : NameSet) (body : Listing Instr) : Nat → String → Prop
  /-- It is read by an instruction with an effect. -/
  | read {k : Nat} {i : Instr} {v : Variable} (hi : body[k]? = some i) (hv : v ∈ i.readVars)
    (heffect : i.isPure = true → ∃ w, i.written? = some w ∧ w.name ∈ aliased) :
    LiveAt aliased body k v.name
  /-- It is read to assign a variable that is live. -/
  | readForLive {k t : Nat} {i : Instr} {v w : Variable} (hi : body[k]? = some i)
    (hv : v ∈ i.readVars) (hw : i.written? = some w) (ht : t ∈ nextPositions Instr.flow body k)
    (hlive : LiveAt aliased body t w.name) : LiveAt aliased body k v.name
  /-- It is live later, and not assigned before. -/
  | later {k t : Nat} {i : Instr} {x : String} (hi : body[k]? = some i)
    (ht : t ∈ nextPositions Instr.flow body k) (hlive : LiveAt aliased body t x)
    (hkeep : ∀ w, i.written? = some w → w.name ≠ x) : LiveAt aliased body k x

section

variable {aliased : NameSet} {body : Listing Instr} {k : Nat} {x : String}

theorem LiveAt.mem_neededAt (h : LiveAt aliased body k x) : x ∈ neededAt aliased body k := by
  induction h with
  | @read k i v hi hv heffect =>
    refine .inl (mem_factsBefore_of_mem_readVars hi (Bool.eq_false_iff.mpr fun hdead => ?_) hv)
    obtain ⟨hpure, u, hu, -, hnot⟩ := isDead_iff.mp hdead
    -- A dead instruction assigns nothing that is aliased.
    obtain ⟨w, hw, haliased⟩ := heffect hpure
    obtain rfl : u = w := Option.some.inj (hu.symm.trans hw)
    exact hnot haliased
  | @readForLive k t i v w hi hv hw ht _ ih =>
    refine .inl (mem_factsBefore_of_mem_readVars hi (Bool.eq_false_iff.mpr fun hdead => ?_) hv)
    exact (neededAt_next_of_isDead hw hdead hi ht).1 ih
  | @later k t i x hi ht _ hkeep ih =>
    cases hdead : isDead aliased ((liveAnalysis aliased body).factsAfter k) i with
    | true =>
      obtain ⟨-, w, hw, -⟩ := isDead_iff.mp hdead
      exact (neededAt_next_of_isDead hw hdead hi ht).2 ih
    | false =>
      rcases neededAt_next hi hdead ht ih with hx | ⟨w, hw, rfl⟩
      · exact hx
      · exact absurd rfl (hkeep w hw)

/-- If all that is found after an instruction is aliased or live somewhere next, all that is found
before it is aliased or live there. -/
theorem liveAt_of_mem_before {i : Instr} (hi : body[k]? = some i) {facts : NameSet}
    (hfacts : ∀ x ∈ facts, ∃ t ∈ nextPositions Instr.flow body k,
      x ∈ aliased ∨ LiveAt aliased body t x)
    (hx : x ∈ LiveNames.before aliased i facts) : x ∈ aliased ∨ LiveAt aliased body k x := by
  have hlater : x ∈ facts → (∀ w, i.written? = some w → w.name ≠ x) →
      x ∈ aliased ∨ LiveAt aliased body k x := by
    intro hmem hkeep
    obtain ⟨t, ht, hx | hx⟩ := hfacts x hmem
    · exact .inl hx
    · exact .inr (.later hi ht hx hkeep)
  unfold before at hx
  cases hdead : isDead aliased facts i with
  | true =>
    -- A dead instruction is skipped by the analysis, and does not assign what was found.
    rw [hdead] at hx
    obtain ⟨-, w, hw, hnot, -⟩ := isDead_iff.mp hdead
    refine hlater hx fun u hu => ?_
    obtain rfl : u = w := Option.some.inj (hu.symm.trans hw)
    rintro rfl
    exact hnot hx
  | false =>
    rw [hdead, if_neg (by simp), mem_transfer] at hx
    rcases hx with ⟨hx, hkeep⟩ | ⟨v, hv, rfl⟩ | ⟨-, hx⟩
    · exact hlater hx hkeep
    · -- The instruction has an effect, or assigns a variable that was found.
      by_cases hfound : ∃ w, i.written? = some w ∧ w.name ∈ facts
      · obtain ⟨w, hw, hmem⟩ := hfound
        obtain ⟨t, ht, haliased | hlive⟩ := hfacts w.name hmem
        · exact .inr (.read hi hv fun _ => ⟨w, hw, haliased⟩)
        · exact .inr (.readForLive hi hv hw ht hlive)
      · refine .inr (.read hi hv fun hpure => ?_)
        obtain ⟨w, hw⟩ := exists_written?_of_isPure hpure
        refine ⟨w, hw, ?_⟩
        -- Pure, and assigning neither an aliased variable nor one that was found: it would be dead.
        by_contra hnot
        have hisDead :=
          isDead_iff.mpr ⟨hpure, w, hw, fun hmem => hfound ⟨w, hw, hmem⟩, hnot⟩
        rw [hisDead] at hdead
        cases hdead
    · exact .inl hx

theorem exists_next_of_mem_factsAfter {i : Instr} (hi : body[k]? = some i)
    (hx : x ∈ (liveAnalysis aliased body).factsAfter k) :
    ∃ t ∈ nextPositions Instr.flow body k, x ∈ aliased ∨ LiveAt aliased body t x :=
  CodeAnalysis.exists_next_of_mem_factsAfter (c := liveAnalysis aliased body)
    (fun _ hx => .inl hx) (fun _ _ hi _ hfacts _ hx => liveAt_of_mem_before hi hfacts hx)
    (List.getElem?_eq_some_iff.mp hi).1 x hx

/-- The analysis finds exactly the variables that are aliased or live. -/
theorem neededAt_eq (aliased : NameSet) (body : Listing Instr) (k : Nat) :
    neededAt aliased body k = {x | x ∈ aliased ∨ LiveAt aliased body k x} := by
  ext x
  constructor
  · rintro (hx | hx)
    · cases hi : body[k]? with
      | none =>
        -- Past the end of the body there are only the facts at the exit.
        have hexit : (liveAnalysis aliased body).factsBefore k = aliased := by
          rw [CodeAnalysis.factsBefore, show (liveAnalysis aliased body).code[k]? = none from hi]
          rfl
        exact .inl (hexit ▸ hx)
      | some i =>
        rw [factsBefore_liveAnalysis hi] at hx
        exact liveAt_of_mem_before hi (fun _ => exists_next_of_mem_factsAfter hi) hx
    · exact .inl hx
  · rintro (hx | hx)
    · exact .inr hx
    · exact hx.mem_neededAt

end

/-! ### Lockstep -/

section

variable {e : Environment} {aliased : NameSet} {body : Listing Instr} {m : Memory}

/-- A state of a body and a state of what is left of it, at the same time.  The same instruction is
executed next, with the same operands, or one that is not needed. -/
structure DeadStoresKeepPace (e : Environment) (aliased : NameSet) (body : Listing Instr)
    (edits : List (Option Instr)) (s s' : State Memory Result) : Prop where
  position : s'.position = newPosition edits s.position
  ending : s'.ending = s.ending
  agree : Agree {x | x ∈ aliased ∨ LiveAt aliased body s.position x} s.memory s'.memory
  /-- An instruction that is left has the same operands and the same outcome. -/
  kept : ∀ {i i' : Instr}, body[s.position]? = some i → edits[s.position]? = some (some i') →
    i' = i ∧ i.reads.map s.memory.eval = i.reads.map s'.memory.eval ∧
      OutcomesAgree ({x | x ∈ aliased ∨ LiveAt aliased body s.position x} ∪ Agree.written i)
        (execute e s.memory i) (execute e s'.memory i)
  /-- An instruction that is removed assigns a variable that is not live. -/
  removed : ∀ {i : Instr}, body[s.position]? = some i → edits[s.position]? = some none →
    i.isPure = true ∧ ∃ v, i.written? = some v ∧ v.name ∉ aliased ∧
      ∀ t ∈ nextPositions Instr.flow body s.position, ¬ LiveAt aliased body t v.name

theorem DeadStoresKeepPace.of_inStep (hstatics : e.statics ⊆ {x | x ∈ aliased})
    {s s' : State Memory Result} (hconfined : Confined {x | x ∈ aliased} s.memory)
    (hs : InStep (deadEdits aliased body) (fun k => Agree (neededAt aliased body k)) s s') :
    DeadStoresKeepPace e aliased body (deadEdits aliased body) s s' := by
  refine ⟨hs.position, hs.ending, neededAt_eq aliased body s.position ▸ hs.related,
    fun {i i'} hi hi' => ?_, fun {i} hi hi' => ?_⟩
  · obtain ⟨hlive, rfl⟩ := isDead_of_getElem?_deadEdits hi hi'
    refine ⟨rfl, List.map_congr_left fun val hval => ?_, ?_⟩
    · refine hs.related.eval fun v hv => mem_neededAt_of_mem_reads hi hlive ?_
      rwa [← hv]
    · rw [← neededAt_eq]
      exact outcomesAgree_of_isDead_eq_false hstatics hs.related hconfined hi hlive
  · have hdead := isDead_of_getElem?_deadEdits_eq_none hi hi'
    obtain ⟨hpure, v, hv, -, haliased⟩ := isDead_iff.mp hdead
    refine ⟨hpure, v, hv, haliased, fun t ht hlive => ?_⟩
    exact (neededAt_next_of_isDead hv hdead hi ht).1 hlive.mem_neededAt

/-- A body and what is left of it without dead stores run in lockstep until the body does something
undefined, from every memory in which pointers stay confined to aliased variables. -/
theorem eliminateDeadStores_runs_in_lockstep (hstatics : e.statics ⊆ {x | x ∈ aliased})
    (hconfined : ∀ n, Confined {x | x ∈ aliased} (e.machine.stateAt body m n).memory) :
    RunsInLockstep e.machine body (eliminateDeadStores aliased body) m
      (fun s => s.ending ≠ some .undefined) (DeadStoresKeepPace e aliased body) := by
  rw [← reduceOption_deadEdits]
  exact (lockstep_deadStores hstatics).runsInLockstep ⟨fun _ _ => rfl, rfl, rfl⟩
    (safeAt_of_not_undefined hconfined) (.of_inStep hstatics (hconfined _))

/-- A loop that adds to a static variable, with assignments that only dead ones read, and one to a
variable whose address is taken. -/
def summingBody : Listing Instr :=
  [.addressOf ⟨"p", .pointer⟩ (.var ⟨"a", .int⟩),
    .label ⟨"l", 0⟩,
    .binary ⟨"d", .int⟩ .add (.var ⟨"i", .int⟩) (.const (.ofInt .int 1)),
    .binary ⟨"u", .int⟩ .multiply (.var ⟨"d", .int⟩) (.var ⟨"u", .int⟩),
    .copy ⟨"a", .int⟩ (.var ⟨"i", .int⟩),
    .binary ⟨"g", .int⟩ .add (.var ⟨"g", .int⟩) (.var ⟨"i", .int⟩),
    .binary ⟨"i", .int⟩ .subtract (.var ⟨"i", .int⟩) (.const (.ofInt .int 1)),
    .jumpIfNotZero (.var ⟨"i", .int⟩) ⟨"l", 0⟩,
    .copy ⟨"d", .int⟩ (.var ⟨"g", .int⟩),
    .ret (some (.var ⟨"i", .int⟩))]

/-- The chain of dead assignments in the loop is removed. -/
theorem summingBody_runs_in_lockstep :
    eliminateDeadStores (aliasedNames {"g"} summingBody) summingBody =
      [.label ⟨"l", 0⟩,
        .copy ⟨"a", .int⟩ (.var ⟨"i", .int⟩),
        .binary ⟨"g", .int⟩ .add (.var ⟨"g", .int⟩) (.var ⟨"i", .int⟩),
        .binary ⟨"i", .int⟩ .subtract (.var ⟨"i", .int⟩) (.const (.ofInt .int 1)),
        .jumpIfNotZero (.var ⟨"i", .int⟩) ⟨"l", 0⟩,
        .ret (some (.var ⟨"i", .int⟩))] ∧
    (Environment.isolated {"g"}).machine.RunsDefined summingBody
      (.initial fun _ => .ofInt .int 2) ∧
    RunsInLockstep (Environment.isolated {"g"}).machine summingBody
      (eliminateDeadStores (aliasedNames {"g"} summingBody) summingBody)
      (.initial fun _ => .ofInt .int 2) (fun s => s.ending ≠ some .undefined)
      (DeadStoresKeepPace (.isolated {"g"}) (aliasedNames {"g"} summingBody) summingBody) := by
  have hstatics : (Environment.isolated {"g"}).statics ⊆
      {x | x ∈ aliasedNames {"g"} summingBody} := by
    rintro x rfl
    decide +kernel
  obtain ⟨result, hreturned⟩ : ∃ result,
      (((Environment.isolated {"g"}).machine.step summingBody)^[17]
        (.start Result (.initial fun _ => .ofInt .int 2))).ending = some (.returned result) :=
    ⟨_, rfl⟩
  have hconfined := (addressesWithin_aliasedNames {"g"} summingBody).confined_stateAt hstatics
    ((isInitial_initial fun _ => .ofInt .int 2).confined _)
  exact ⟨by decide +kernel, Machine.runsDefined_of_returned hreturned,
    eliminateDeadStores_runs_in_lockstep hstatics hconfined⟩

end

end ThreeAddress
