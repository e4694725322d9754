import ThreeAddress.Proofs.Control.Positions
import ThreeAddress.Proofs.Control.Simulation

/-!
# Machines that run code

A machine executes the instructions of a piece of code one after another.  An instruction changes
the memory of the machine and moves on, jumps to a label, or ends the run; a run also ends where it
leaves the code at its end.

An observer sees something of the memory, and how the run ends.  A piece of code keeps the behaviour
of another if an observer cannot tell them apart, unless the run of the other does something
undefined.  Even then everything that could be observed before is still observed.
-/

namespace ThreeAddress

/-- The label that control may go to. -/
def Flow.target? {L : Type} : Flow L → Option L
  | jump l | branch l => some l
  | label _ | ret | next => none

section

variable {α L : Type} [DecidableEq L] {flow : α → Flow L} {code : List α}

theorem mem_nextPositions_of_target? {k : Nat} {i : α} {l : L} (hi : code[k]? = some i)
    (h : (flow i).target? = some l) : targetPosition flow code l ∈ nextPositions flow code k := by
  unfold nextPositions
  rw [hi, Option.map_some]
  cases hf : flow i with
  | jump l' | branch l' =>
    rw [hf] at h
    cases h
    simp
  | _ =>
    rw [hf] at h
    cases h

theorem cases_of_mem_nextPositions {k k' : Nat} {i : α} (hi : code[k]? = some i)
    (hk : k' ∈ nextPositions flow code k) :
    k' = k + 1 ∨ (∃ l, (flow i).target? = some l ∧ k' = targetPosition flow code l) ∨
      flow i = .ret := by
  rw [nextPositions, hi, Option.map_some] at hk
  cases hflow : flow i with
  | jump l =>
    rw [hflow] at hk
    exact .inr (.inl ⟨l, rfl, List.mem_singleton.mp hk⟩)
  | branch l =>
    rw [hflow] at hk
    rcases List.mem_cons.mp hk with hk | hk
    · exact .inr (.inl ⟨l, rfl, hk⟩)
    · exact .inl (List.mem_singleton.mp hk)
  | label l | next =>
    rw [hflow] at hk
    exact .inl (List.mem_singleton.mp hk)
  | ret => exact .inr (.inr rfl)

end

def Flow.mayContinue {L : Type} : Flow L → Bool
  | label _ | branch _ | next => true
  | jump _ | ret => false

/-- Whether an instruction says nothing but where control goes. -/
def Flow.passesOn {L : Type} : Flow L → Bool
  | label _ | jump _ | branch _ => true
  | ret | next => false

/-- How a run ends, with results of type `ρ`. -/
inductive Ending (ρ : Type) where
  /-- The code is left. -/
  | returned (result : ρ)
  /-- A callee never returns. -/
  | lost
  /-- An operation is undefined. -/
  | undefined

/-- What an instruction leads to, with labels of type `L` and memories of type `σ`. -/
inductive Outcome (L σ ρ : Type) where
  | next (m : σ)
  | jump (l : L) (m : σ)
  | stop (m : σ) (ending : Ending ρ)

/-- A machine with instructions of type `α`, of whose memories an observer sees something of type
`τ`. -/
structure Machine (α L σ ρ τ : Type) where
  flow : α → Flow L
  execute : σ → α → Outcome L σ ρ
  /-- What results if a run leaves the code at its end. -/
  leave : σ → ρ
  /-- What an observer sees of a memory. -/
  seen : σ → τ
  target?_of_jump : ∀ {m m' : σ} {i : α} {l : L}, execute m i = .jump l m' →
    (flow i).target? = some l
  mayContinue_of_next : ∀ {m m' : σ} {i : α}, execute m i = .next m' →
    (flow i).mayContinue = true
  execute_label : ∀ {m : σ} {i : α} {l : L}, flow i = .label l → execute m i = .next m

/-- A state of a run. -/
structure State (σ ρ : Type) where
  position : Nat
  memory : σ
  ending : Option (Ending ρ)

/-- Code starts at its first instruction. -/
def State.start {σ : Type} (ρ : Type) (m : σ) : State σ ρ := ⟨0, m, none⟩

/-- What can be observed of a run at some time. -/
structure Observation (τ ρ : Type) where
  seen : τ
  ending : Option (Ending ρ)

/-- Whether a run ended in an undefined operation. -/
def Observation.IsUndefined {τ ρ : Type} (o : Observation τ ρ) : Prop :=
  o.ending = some .undefined

namespace Machine

variable {α L σ ρ τ : Type} [DecidableEq L] (M : Machine α L σ ρ τ) {code : List α} {s : State σ ρ}
  {k n : Nat} {m : σ} {ending : Ending ρ} {i : α}

def apply (code : List α) (s : State σ ρ) : Outcome L σ ρ → State σ ρ
  | .next m => { s with position := s.position + 1, memory := m }
  | .jump l m => { s with position := targetPosition M.flow code l, memory := m }
  | .stop m ending => { s with memory := m, ending := some ending }

/-- One step of a run.  A run that ended stays as it is. -/
def step (code : List α) (s : State σ ρ) : State σ ρ :=
  match s.ending with
  | some _ => s
  | none =>
    match code[s.position]? with
    | some i => M.apply code s (M.execute s.memory i)
    | none => { s with ending := some (.returned (M.leave s.memory)) }

omit [DecidableEq L] in
def observe (s : State σ ρ) : Observation τ ρ := ⟨M.seen s.memory, s.ending⟩

def stateAt (code : List α) (m : σ) (n : Nat) : State σ ρ := (M.step code)^[n] (.start ρ m)

/-- What can be observed of the run of a piece of code. -/
def Observable (code : List α) (m : σ) (o : Observation τ ρ) : Prop :=
  Observes (M.step code) M.observe (.start ρ m) o

/-- The run of a piece of code never gets to an undefined operation. -/
def RunsDefined (code : List α) (m : σ) : Prop :=
  Defined (M.step code) M.observe Observation.IsUndefined (.start ρ m)

/-! ### Steps -/

theorem stateAt_succ (code : List α) (m : σ) (n : Nat) :
    M.stateAt code m (n + 1) = M.step code (M.stateAt code m n) :=
  Function.iterate_succ_apply' ..

variable {M}

theorem step_of_ending (h : s.ending = some ending) : M.step code s = s := by
  simp [step, h]

theorem step_at (h : s.ending = none) (hi : code[s.position]? = some i) :
    M.step code s = M.apply code s (M.execute s.memory i) := by
  simp [step, h, hi]

theorem step_at_end (h : s.ending = none) (hi : code[s.position]? = none) :
    M.step code s = { s with ending := some (.returned (M.leave s.memory)) } := by
  simp [step, h, hi]

theorem iterate_step_of_ending (h : s.ending = some ending) (n : Nat) : (M.step code)^[n] s = s :=
  Function.iterate_fixed (step_of_ending h) n

theorem not_isUndefined_of_le (h : k ≤ n) (hn : ¬ (M.observe ((M.step code)^[n] s)).IsUndefined) :
    ¬ (M.observe ((M.step code)^[k] s)).IsUndefined := by
  intro hk
  obtain ⟨d, rfl⟩ := Nat.exists_eq_add_of_le' h
  refine hn ?_
  have hending := hk
  rwa [Function.iterate_add_apply, iterate_step_of_ending hending]

theorem ending_unique {ending' : Ending ρ} (hn : ((M.step code)^[n] s).ending = some ending)
    (hk : ((M.step code)^[k] s).ending = some ending') : ending = ending' := by
  rcases Nat.le_total k n with hle | hle
  · obtain ⟨d, rfl⟩ := Nat.exists_eq_add_of_le' hle
    rw [Function.iterate_add_apply, iterate_step_of_ending hk, hk] at hn
    exact (Option.some.inj hn).symm
  · obtain ⟨d, rfl⟩ := Nat.exists_eq_add_of_le' hle
    rw [Function.iterate_add_apply, iterate_step_of_ending hn, hn] at hk
    exact Option.some.inj hk

theorem runsDefined_of_returned {result : ρ}
    (h : ((M.step code)^[n] (.start ρ m)).ending = some (.returned result)) :
    M.RunsDefined code m := by
  intro k hk
  exact nomatch ending_unique h hk

theorem iterate_step_labels (h : ∀ j < n, ∃ i l, code[k + j]? = some i ∧ M.flow i = .label l) :
    (M.step code)^[n] ⟨k, m, none⟩ = ⟨k + n, m, none⟩ := by
  induction n with
  | zero => rfl
  | succ n ih =>
    obtain ⟨i, l, hi, hl⟩ := h n (by omega)
    rw [Function.iterate_succ_apply', ih fun j hj => h j (by omega), step_at rfl hi,
      M.execute_label hl]
    rfl

/-! ### Where control goes -/

theorem mem_nextPositions_of_jump {m₁ : σ} {l : L} (hi : code[k]? = some i)
    (h : M.execute m i = .jump l m₁) :
    targetPosition M.flow code l ∈ nextPositions M.flow code k :=
  mem_nextPositions_of_target? hi (M.target?_of_jump h)

theorem mem_nextPositions_of_next {m₁ : σ} (hi : code[k]? = some i) (h : M.execute m i = .next m₁) :
    k + 1 ∈ nextPositions M.flow code k := by
  have hnext := M.mayContinue_of_next h
  unfold nextPositions
  rw [hi, Option.map_some]
  cases hf : M.flow i with
  | label l | branch l | next => simp
  | _ =>
    rw [hf] at hnext
    cases hnext

end Machine

/-! ### Behaviour -/

section

variable {α α' α'' L L' L'' σ σ' σ'' ρ τ : Type} [DecidableEq L] [DecidableEq L'] [DecidableEq L'']
  {M : Machine α L σ ρ τ} {M' : Machine α' L' σ' ρ τ} {M'' : Machine α'' L'' σ'' ρ τ}
  {code : List α} {code' : List α'} {code'' : List α''} {m : σ} {m' : σ'} {m'' : σ''}

/-- A second run shows all the behaviour of a first, and nothing else if the first is defined. -/
structure Preserves (M : Machine α L σ ρ τ) (code : List α) (m : σ) (M' : Machine α' L' σ' ρ τ)
    (code' : List α') (m' : σ') : Prop where
  shows : ∀ {o}, M.Observable code m o → ¬ o.IsUndefined → M'.Observable code' m' o
  nothingElse : M.RunsDefined code m → ∀ {o}, M'.Observable code' m' o → M.Observable code m o

namespace Preserves

theorem refl (M : Machine α L σ ρ τ) (code : List α) (m : σ) : Preserves M code m M code m :=
  ⟨fun ho _ => ho, fun _ _ ho => ho⟩

theorem runsDefined (h : Preserves M code m M' code' m') (hdefined : M.RunsDefined code m) :
    M'.RunsDefined code' m' := by
  intro n hn
  obtain ⟨k, hk⟩ := h.nothingElse hdefined ⟨n, rfl⟩
  exact hdefined k (by rwa [hk])

theorem trans (h : Preserves M code m M' code' m') (h' : Preserves M' code' m' M'' code'' m'') :
    Preserves M code m M'' code'' m'' :=
  ⟨fun ho hundefined => h'.shows (h.shows ho hundefined) hundefined,
    fun hdefined _ ho => h.nothingElse hdefined (h'.nothingElse (h.runsDefined hdefined) ho)⟩

theorem observable_iff (h : Preserves M code m M' code' m') (hdefined : M.RunsDefined code m)
    (o : Observation τ ρ) : M.Observable code m o ↔ M'.Observable code' m' o := by
  refine ⟨fun ho => h.shows ho ?_, fun ho => h.nothingElse hdefined ho⟩
  obtain ⟨n, rfl⟩ := ho
  exact hdefined n

theorem of_simulation {related : State σ ρ → State σ' ρ → Prop} {measure : State σ ρ → Nat}
    (h : Simulation (M.step code) (M'.step code') M.observe M'.observe Observation.IsUndefined
      related measure) (hstart : related (.start ρ m) (.start ρ m')) :
    Preserves M code m M' code' m' where
  shows := by
    rintro o ⟨n, rfl⟩ hdefined
    obtain ⟨k, hk⟩ := h.exists_related hstart fun j hj => Machine.not_isUndefined_of_le hj hdefined
    exact ⟨k, (h.agree _ _ hk).symm⟩
  nothingElse := by
    rintro hdefined o ⟨n, rfl⟩
    exact h.exists_observed hstart hdefined

end Preserves

end

end ThreeAddress
