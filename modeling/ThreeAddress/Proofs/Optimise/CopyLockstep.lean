import ThreeAddress.Proofs.Optimise.Behaviour

/-!
# Copy propagation in lockstep

A body and what copy propagation makes of it run in lockstep, with equal memories at all times.  An
instruction that is left has operands of the same values, so it branches in the same way, and makes
the same calls, stores and assignments.  One that is removed is a copy that changes nothing.

The aliased variables have to include all that calls and stores change in the run, and nothing else
is asked of them.  The search may end with any sets of copies that are settled; it does not matter
how it got there.
-/

namespace ThreeAddress

variable {types : String → ScalarType} {aliased : NameSet} {body : Listing Instr}
  {start : Nat → Copies} {e : Environment} {m : Memory}

/-- A state of a body and a state of what copy propagation makes of it, at the same time. -/
structure CopiesKeepPace (e : Environment) (body : Listing Instr) (edits : List (Option Instr))
    (s s' : State Memory Result) : Prop where
  position : s'.position = newPosition edits s.position
  ending : s'.ending = s.ending
  memory : s'.memory = s.memory
  /-- An instruction that is left only has other operands, with the same values. -/
  kept : ∀ {i i' : Instr}, s.ending = none → body[s.position]? = some i →
    edits[s.position]? = some (some i') →
    (∃ f, i' = i.mapReads f) ∧ i'.reads.map s.memory.eval = i.reads.map s.memory.eval ∧
      execute e s.memory i' = execute e s.memory i
  /-- An instruction that is removed is a copy that changes nothing. -/
  removed : ∀ {i : Instr}, s.ending = none → body[s.position]? = some i →
    edits[s.position]? = some none →
    (∃ dst src, i = .copy dst src) ∧ execute e s.memory i = .next s.memory

theorem CopiesKeepPace.of_inStep (hbody : ∀ i ∈ body, Copies.TypedInstr types i)
    {s s' : State Memory Result}
    (hhold : s.ending = none → CopiesHold types aliased body start s.position s.memory)
    (hs : InStep (copyEdits aliased body start) (fun _ m m' => m = m') s s') :
    CopiesKeepPace e body (copyEdits aliased body start) s s' where
  position := hs.position
  ending := hs.ending
  memory := hs.related.symm
  kept := by
    intro i i' hending hi hi'
    obtain ⟨f, rfl, heval, hsame⟩ := (hhold hending).execute_eq hi hi'
    refine ⟨⟨f, rfl⟩, ?_, hsame⟩
    rw [Instr.reads_mapReads, List.map_map]
    exact List.map_congr_left fun v _ => heval v
  removed := fun hending hi hi' => (hhold hending).execute_removed hbody hi hi'

/-- A body and what copy propagation makes of it run in lockstep, from every memory in which
variables have their types, if the calls and stores of the run change aliased variables only. -/
theorem propagateCopies_runs_in_lockstep {visits : Nat} {result : Listing Instr}
    (hresult : propagateCopies? visits aliased body = some result)
    (hbody : ∀ i ∈ body, ∀ v ∈ i.variables, types v.name = v.type) (hm : HoldsTypes types m)
    (hmodifies : ModifiesWithin e aliased body m) :
    RunsInLockstep e.machine body result m (fun _ => True) (CopiesKeepPace e body) := by
  obtain ⟨start, hsettled, rfl⟩ := propagateCopies?_eq_some hresult hbody
  have hhold := copiesHold_stateAt hsettled hbody hm hmodifies
  exact (lockstep_copies hbody).runsInLockstep rfl (fun {j _} _ _ => hhold j)
    (fun {n _} => .of_inStep hbody (hhold n))

/-- A loop with a copy that is known when it is reached again, and a call that ends another. -/
def copyingBody : Listing Instr :=
  [.copy ⟨"y", .int⟩ (.var ⟨"g", .int⟩),
    .copy ⟨"z", .int⟩ (.var ⟨"x", .int⟩),
    .label ⟨"l", 0⟩,
    .copy ⟨"z", .int⟩ (.var ⟨"x", .int⟩),
    .binary ⟨"c", .int⟩ .subtract (.var ⟨"c", .int⟩) (.const (.ofInt .int 1)),
    .call none "f" [.var ⟨"z", .int⟩, .var ⟨"y", .int⟩],
    .jumpIfNotZero (.var ⟨"c", .int⟩) ⟨"l", 0⟩,
    .ret (some (.var ⟨"z", .int⟩))]

/-- The copy in the loop is removed.  That of the static variable is not known at the call. -/
def propagatedBody : Listing Instr :=
  [.copy ⟨"y", .int⟩ (.var ⟨"g", .int⟩),
    .copy ⟨"z", .int⟩ (.var ⟨"x", .int⟩),
    .label ⟨"l", 0⟩,
    .binary ⟨"c", .int⟩ .subtract (.var ⟨"c", .int⟩) (.const (.ofInt .int 1)),
    .call none "f" [.var ⟨"x", .int⟩, .var ⟨"y", .int⟩],
    .jumpIfNotZero (.var ⟨"c", .int⟩) ⟨"l", 0⟩,
    .ret (some (.var ⟨"x", .int⟩))]

/-- An environment whose callees return, and change all that they reach. -/
def Environment.answering (statics : Set String) : Environment :=
  { Environment.isolated statics with
    respond := fun _ => some ⟨.ofInt .int 0, fun _ => .ofInt .int 7⟩ }

theorem copyingBody_runs_in_lockstep :
    propagateCopies? 10 {"g"} copyingBody = some propagatedBody ∧
      RunsInLockstep (Environment.answering {"g"}).machine copyingBody propagatedBody
        (.initial fun _ => .ofInt .int 2) (fun _ => True)
        (CopiesKeepPace (.answering {"g"}) copyingBody) := by
  have hresult : propagateCopies? 10 {"g"} copyingBody = some propagatedBody := by decide +kernel
  have hstatics : (Environment.answering {"g"}).statics ⊆ {x | x ∈ ({"g"} : NameSet)} := by
    rintro x rfl
    decide +kernel
  have haddressed : AddressesWithin {"g"} copyingBody := by
    simp [AddressesWithin, copyingBody, Instr.addressed?]
  have hmodifies := haddressed.modifiesWithin hstatics
    ((isInitial_initial fun _ => .ofInt .int 2).confined _)
  exact ⟨hresult, propagateCopies_runs_in_lockstep hresult (by decide) (isInitial_initial _).types
    hmodifies⟩

end ThreeAddress
