import ThreeAddress.Proofs.Control.FaithfulGraphs
import ThreeAddress.Proofs.Optimise.UnreachableCode

/-!
# Exact elimination of unreachable code

The removals leave nothing that control cannot get to and no label that nothing jumps to.  What is
left runs as before: a machine that also records what it executes, apart from labels and jumps,
cannot tell the two bodies apart.
-/

namespace ThreeAddress

/-! ### Histories -/

namespace Machine

variable {α L σ ρ τ : Type}

/-- What is known of a run after some steps: what it executed, the memory, and how it ended. -/
structure History (α σ ρ : Type) where
  executed : List (α × σ)
  memory : σ
  ending : Option (Ending ρ)

/-- A record with another instruction, and the memory that it left.  Labels and jumps are not
recorded. -/
def record (M : Machine α L σ ρ τ) (log : List (α × σ)) (i : α) (m : σ) : List (α × σ) :=
  if (M.flow i).passesOn then log else log ++ [(i, m)]

section

variable [DecidableEq L] (M : Machine α L σ ρ τ)

/-- What the first steps of a run executed, in order. -/
def executed (code : List α) (m : σ) : Nat → List (α × σ)
  | 0 => []
  | n + 1 =>
    match (M.stateAt code m n).ending, code[(M.stateAt code m n).position]? with
    | none, some i => M.record (executed code m n) i (M.stateAt code m (n + 1)).memory
    | _, _ => executed code m n

def history (code : List α) (m : σ) (n : Nat) : History α σ ρ :=
  ⟨M.executed code m n, (M.stateAt code m n).memory, (M.stateAt code m n).ending⟩

end

/-- The machine that keeps a record of what it executes.  All of it can be seen, and all endings
are results. -/
def recording (M : Machine α L σ ρ τ) :
    Machine α L (σ × List (α × σ)) (Ending ρ) (σ × List (α × σ)) where
  flow := M.flow
  execute s i :=
    match M.execute s.1 i with
    | .next m => .next (m, M.record s.2 i m)
    | .jump l m => .jump l (m, M.record s.2 i m)
    | .stop m ending => .stop (m, M.record s.2 i m) (.returned ending)
  leave s := .returned (M.leave s.1)
  seen := id
  target?_of_jump := by
    intro s s' i l h
    split at h <;> cases h
    rename_i hjump
    exact M.target?_of_jump hjump
  mayContinue_of_next := by
    intro s s' i h
    split at h <;> cases h
    rename_i hnext
    exact M.mayContinue_of_next hnext
  execute_label := by
    intro s i l hl
    simp [M.execute_label hl, record, hl, Flow.passesOn]

variable [DecidableEq L] {M : Machine α L σ ρ τ} {code code' : List α} {m : σ}

theorem stateAt_recording (M : Machine α L σ ρ τ) (code : List α) (m : σ) (n : Nat) :
    M.recording.stateAt code (m, []) n =
      ⟨(M.stateAt code m n).position, ((M.stateAt code m n).memory, M.executed code m n),
        (M.stateAt code m n).ending.map .returned⟩ := by
  induction n with
  | zero => rfl
  | succ n ih =>
    rw [stateAt_succ, ih, executed, stateAt_succ M]
    obtain ⟨position, memory, _ | ending⟩ := M.stateAt code m n
    · cases hi : code[position]? with
      | none => rw [step_at_end rfl hi, step_at_end rfl hi]; rfl
      | some i =>
        rw [step_at rfl hi, step_at rfl hi]
        cases ho : M.execute memory i <;> simp [recording, ho, apply]
    · rw [step_of_ending rfl, step_of_ending rfl]

theorem observable_recording_iff {h : History α σ ρ} :
    M.recording.Observable code (m, []) ⟨(h.memory, h.executed), h.ending.map .returned⟩ ↔
      h ∈ Set.range (M.history code m) := by
  refine exists_congr fun n => ?_
  have hstate := stateAt_recording M code m n
  rw [stateAt] at hstate
  obtain ⟨log, memory, ending⟩ := h
  have hinj : Function.Injective (Option.map (Ending.returned (ρ := Ending ρ))) :=
    Option.map_injective fun _ _ => Ending.returned.inj
  rw [hstate, history]
  simp only [observe, recording, id, Observation.mk.injEq, Prod.mk.injEq, History.mk.injEq,
    hinj.eq_iff]
  tauto

theorem runsDefined_recording : M.recording.RunsDefined code (m, []) := by
  intro n hn
  have hstate := stateAt_recording M code m n
  rw [stateAt] at hstate
  rw [hstate] at hn
  obtain ⟨ending, -, hending⟩ := Option.map_eq_some_iff.mp hn
  cases hending

theorem range_history_eq (h : Preserves M.recording code (m, []) M.recording code' (m, [])) :
    Set.range (M.history code m) = Set.range (M.history code' m) := by
  ext history
  rw [← observable_recording_iff, ← observable_recording_iff]
  exact h.observable_iff runsDefined_recording _

end Machine

theorem RunsInstr.recording {σ ρ τ : Type} {M : Machine Instr Label σ ρ τ} (hM : RunsInstr M) :
    RunsInstr M.recording where
  flow_eq := hM.flow_eq
  passes := by
    rintro ⟨m, log⟩ i hi
    have hrecord : M.record log i m = log := by rw [Machine.record, hM.flow_eq, if_pos hi]
    rcases hM.passes (m := m) hi with hnext | ⟨l, hjump⟩
    · exact .inl (by simp [Machine.recording, hnext, hrecord])
    · exact .inr ⟨l, by simp [Machine.recording, hjump, hrecord]⟩

/-! ### What is left -/

variable {body : Listing Instr} {k : Nat}

theorem IsShortcut.isVisited_reduceOption {edits : List (Option Instr)} {entered : Nat → Prop}
    (h : IsShortcut body edits entered)
    (hbody : ∀ {k}, k < body.length → IsVisited Instr.flow body k)
    (hk : k < edits.reduceOption.length) : IsVisited Instr.flow edits.reduceOption k :=
  h.isVisited_of_kept (fun hi => hbody (List.getElem?_eq_some_iff.mp (h.getElem?_of_kept hi)).1) hk

theorem isVisited_keepReachable (hk : k < (keepReachable body).length) :
    IsVisited Instr.flow (keepReachable body) k := by
  rw [← reduceOption_keepReachableEdits] at hk ⊢
  refine (isShortcut_keepReachableEdits body).isVisited_of_kept (fun {k i} hi => ?_) hk
  have hi' := (isRemoval_keepReachableEdits body).getElem?_of_kept hi
  have hlt := (List.getElem?_eq_some_iff.mp hi').1
  exact (isReachable_iff hlt).mp ((keepReachableEdits_eq_some_iff hi' i).mp hi).2

theorem isVisited_eliminateUnreachable (hlabels : (body.filterMap Instr.label?).Nodup)
    (hk : k < (eliminateUnreachable body).length) :
    IsVisited Instr.flow (eliminateUnreachable body) k := by
  have hjumps {k : Nat} (hk : k < (dropRedundantJumps (keepReachable body)).length) :
      IsVisited Instr.flow (dropRedundantJumps (keepReachable body)) k := by
    rw [← reduceOption_redundantJumpEdits] at hk ⊢
    exact (isShortcut_redundantJumpEdits
      (nodup_labels_keepReachable hlabels)).isVisited_reduceOption
      isVisited_keepReachable hk
  rw [eliminateUnreachable, ← reduceOption_unusedLabelEdits] at hk ⊢
  exact (isShortcut_unusedLabelEdits _).isVisited_reduceOption hjumps hk

theorem IsVisited.exists_reaches {α L : Type} [DecidableEq L] {flow : α → Flow L} {code : List α}
    (h : IsVisited flow code k) (hk : k < code.length) :
    ∃ n, (FlowGraph.ofCode flow code).Holds code.length (.block n) k ∧
      (FlowGraph.ofCode flow code).Reaches .entry (.block n) := by
  obtain ⟨n, j, _, hin, -⟩ := exists_inBlock_of_getElem? flow (List.getElem?_eq_getElem hk)
  refine ⟨n, FlowGraph.holds_block_iff.mpr ⟨j, hin⟩, ?_⟩
  exact FlowGraph.mem_reachableBlocks.mp ((isReachable_iff hk).mpr h n j hin)

theorem exists_target_of_mem_dropUnusedLabels {l : Label} (h : .label l ∈ dropUnusedLabels body) :
    ∃ i ∈ dropUnusedLabels body, i.target? = some l := by
  have hused : l ∈ body.filterMap Instr.target? := by
    simpa [Instr.label?] using (List.mem_filter.mp h).2
  obtain ⟨i, hi, hl⟩ := List.mem_filterMap.mp hused
  refine ⟨i, List.mem_filter.mpr ⟨hi, ?_⟩, hl⟩
  cases i <;> cases hl <;> rfl

/-- In what is left of a body whose labels are defined once and whose jumps name labels of it, every
instruction is reachable, every label is jumped to, and every jump names a label.  Its runs have the
histories of the runs of the body. -/
theorem eliminateUnreachable_exact (hlabels : (body.filterMap Instr.label?).Nodup)
    (htargets : TargetsDefined body) :
    (∀ k < (eliminateUnreachable body).length,
      ∃ n, (FlowGraph.ofCode Instr.flow (eliminateUnreachable body)).Holds
          (eliminateUnreachable body).length (.block n) k ∧
        (FlowGraph.ofCode Instr.flow (eliminateUnreachable body)).Reaches .entry (.block n)) ∧
      (∀ l, .label l ∈ eliminateUnreachable body →
        ∃ i ∈ eliminateUnreachable body, i.target? = some l) ∧
      TargetsDefined (eliminateUnreachable body) ∧
      ∀ (e : Environment) (m : Memory), Set.range (e.machine.history body m) =
        Set.range (e.machine.history (eliminateUnreachable body) m) := by
  refine ⟨fun k hk => (isVisited_eliminateUnreachable hlabels hk).exists_reaches hk,
    fun l => exists_target_of_mem_dropUnusedLabels,
    eliminateUnreachable_induction IsRemoval.targetsDefined htargets, fun e m => ?_⟩
  exact Machine.range_history_eq
    (preserves_eliminateUnreachable (runsInstr_machine e).recording hlabels (m, []))

/-- A loop with a jump around code that is never reached.  Without that code the jump is redundant,
and without the jump its label is unused. -/
def detouringBody : Listing Instr :=
  [.label ⟨"l", 0⟩,
    .jump ⟨"l", 1⟩,
    .copy ⟨"x", .int⟩ (.const (.ofInt .int 1)),
    .label ⟨"l", 1⟩,
    .binary ⟨"x", .int⟩ .subtract (.var ⟨"x", .int⟩) (.const (.ofInt .int 1)),
    .jumpIfNotZero (.var ⟨"x", .int⟩) ⟨"l", 0⟩,
    .ret (some (.var ⟨"x", .int⟩))]

def straightenedBody : Listing Instr :=
  [.label ⟨"l", 0⟩,
    .binary ⟨"x", .int⟩ .subtract (.var ⟨"x", .int⟩) (.const (.ofInt .int 1)),
    .jumpIfNotZero (.var ⟨"x", .int⟩) ⟨"l", 0⟩,
    .ret (some (.var ⟨"x", .int⟩))]

theorem detouringBody_straightened :
    (detouringBody.filterMap Instr.label?).Nodup ∧ TargetsDefined detouringBody ∧
      eliminateUnreachable detouringBody = straightenedBody ∧
      TargetsDefined straightenedBody ∧
      ∀ (e : Environment) (m : Memory), Set.range (e.machine.history detouringBody m) =
        Set.range (e.machine.history straightenedBody m) := by
  have hlabels : (detouringBody.filterMap Instr.label?).Nodup := by decide
  have htargets : TargetsDefined detouringBody := by
    simp [TargetsDefined, detouringBody, Instr.target?]
  have hresult : eliminateUnreachable detouringBody = straightenedBody := by decide +kernel
  obtain ⟨-, -, hdefined, hhistory⟩ := eliminateUnreachable_exact hlabels htargets
  exact ⟨hlabels, htargets, hresult, hdefined, hhistory⟩

end ThreeAddress
