import ThreeAddress.Proofs.Amd64.SourceExecution
import ThreeAddress.Proofs.Control.BlockSimulation

/-!
# Calls as a record

What is seen of a run are its calls.  A call adds an entry to them, whether it returns or not, and
no other instruction changes them.  This holds for three-address code and for machine code.
-/

namespace ThreeAddress.Amd64

open Option

/-! ### Three-address code -/

namespace SourceState

variable {ctx : LoweringContext} {e : Setting} {s s' : SourceState} {i : ThreeAddress.Instr}

@[simp] theorem trace_assign (s : SourceState) (v : Variable) (c : Const) :
    (s.assign ctx e v c).trace = s.trace := by
  unfold assign
  split <;> rfl

@[simp] theorem trace_receive (s : SourceState) (dst : Option Variable) (r : Return) :
    (s.receive ctx e dst r).trace = s.trace := by
  cases dst with
  | none => rfl
  | some v => exact trace_assign s v _

theorem trace_write? {ptr c : Const} (h : s.write? e ptr c = some s') : s'.trace = s.trace := by
  unfold write? at h
  split at h
  · cases h
    rfl
  · cases h

/-- What an outcome adds to the calls. -/
abbrev Recorded (s : SourceState) : Step → Prop := Outcome.Recorded SourceState.trace s

theorem recorded_leave {value : Option Const} : s.Recorded (s.leave e value) := by
  unfold leave
  split <;> rfl

theorem recorded_withValue {v : Value} {f : Const → Step} (h : ∀ c, s.Recorded (f c)) :
    s.Recorded (s.withValue ctx e v f) := by
  unfold withValue
  split
  · exact h _
  · rfl

theorem recorded_goOn {r : Option SourceState} (h : ∀ s', r = some s' → s'.trace = s.trace) :
    s.Recorded (s.goOn r) := by
  cases r with
  | none => rfl
  | some s' => exact .inl (h s' rfl)

theorem recorded_execute : s.Recorded (s.execute ctx e i) := by
  cases i with
  | ret value =>
    cases value with
    | none => exact recorded_leave
    | some v => exact recorded_withValue fun c => recorded_leave
  | jump l => rfl
  | jumpIfZero cond l | jumpIfNotZero cond l =>
    refine recorded_withValue fun c => ?_
    split
    · first | rfl | exact .inl rfl
    · first | rfl | exact .inl rfl
  | label l => exact .inl rfl
  | store ptr src =>
    exact recorded_withValue fun p => recorded_withValue fun c => recorded_goOn fun _ h =>
      trace_write? h
  | call dst callee args =>
    simp only [execute]
    split
    · rfl
    · simp only [call]
      split
      · rfl
      · split
        · exact List.length_append
        · exact .inr ⟨_, trace_receive _ _ _⟩
  | unary dst | binary dst | copy dst | addressOf dst | load dst | convert dst =>
    refine recorded_goOn fun s' h => ?_
    obtain ⟨c, -, rfl⟩ := map_eq_some_iff.mp h
    exact trace_assign s dst c

end SourceState

/-! ### Machine code -/

section

variable {e : Setting} {k : Checks} {m m' : Storage} {p : Procedure}

theorem Storage.trace_put? {x : Extent} {w : Width} {v : Word} {d : Place}
    (h : m.put? k x w v d = some m') : m'.trace = m.trace := by
  cases d with
  | value y => cases h
  | cell l =>
    cases h
    rfl
  | address a =>
    simp only [put?] at h
    split at h
    · cases h
      rfl
    · cases h

theorem Storage.trace_putAll? {x : Extent} {places : List ((Place × Width) × Word)}
    (h : m.putAll? k x places = some m') : m'.trace = m.trace := by
  induction places generalizing m with
  | nil =>
    cases h
    rfl
  | cons place rest ih =>
    obtain ⟨m₁, hput, hrest⟩ := bind_eq_some_iff.mp h
    rw [ih hrest, trace_put? hput]

namespace Procedure

theorem trace_compute? {c : Computation} (h : p.compute? e k m c = some m') :
    m'.trace = m.trace := by
  obtain ⟨values, -, h⟩ := bind_eq_some_iff.mp h
  obtain ⟨places, -, h⟩ := bind_eq_some_iff.mp h
  obtain ⟨results, -, h⟩ := bind_eq_some_iff.mp h
  obtain ⟨m₁, hput, rfl⟩ := map_eq_some_iff.mp h
  have htrace : m₁.trace = m.trace := Storage.trace_putAll? hput
  exact htrace

theorem trace_push? {o : Operand} (h : p.push? e k m o = some m') : m'.trace = m.trace := by
  obtain ⟨_, _, -, -, -, rfl⟩ := push?_eq_some_iff.mp h
  rfl

theorem trace_lea? {d s : Operand} (h : p.lea? e k m d s = some m') : m'.trace = m.trace := by
  obtain ⟨place, -, h⟩ := bind_eq_some_iff.mp h
  cases place with
  | address a =>
    obtain ⟨place', -, h⟩ := bind_eq_some_iff.mp h
    exact Storage.trace_put? h
  | value x | cell l => cases h

theorem recorded_goOn {r : Option Storage} (h : ∀ m', r = some m' → m'.trace = m.trace) :
    Outcome.Recorded Storage.trace m (goOn m r) := by
  cases r with
  | none => rfl
  | some m' => exact .inl (h m' rfl)

theorem recorded_execute {i : Instr} : Outcome.Recorded Storage.trace m (p.execute e k m i) := by
  unfold execute
  split
  · exact .inl rfl
  · rfl
  · split
    · rfl
    · exact .inl rfl
  · unfold leave
    split <;> rfl
  · exact recorded_goOn fun _ h => trace_push? h
  · unfold call
    split
    · rfl
    · simp only
      split
      · exact List.length_append
      · exact .inr ⟨_, rfl⟩
  · exact recorded_goOn fun _ h => trace_lea? h
  · refine recorded_goOn fun m' h => ?_
    obtain ⟨c, -, h⟩ := bind_eq_some_iff.mp h
    exact trace_compute? h

end Procedure

end

end ThreeAddress.Amd64
