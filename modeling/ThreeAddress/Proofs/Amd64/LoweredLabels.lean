import ThreeAddress.Proofs.Amd64.LoweredForms
import ThreeAddress.Proofs.Amd64.LoweringSteps
import ThreeAddress.Proofs.Control.BlockSimulation

/-!
# Labels in lowered code

Code without doubles has the labels of the function that it is lowered from, and no others.  So a
jump of lowered code goes to where the jump of three-address code goes.
-/

namespace ThreeAddress.Amd64

def Labelless (code : List Instr) : Prop := ∀ i ∈ code, i.op ≠ .label

theorem Instr.IsLowered.op_ne_label {i : Instr} {stack : Bool} {targets : Label → Prop}
    (h : i.IsLowered false stack targets) : i.op ≠ .label := by
  cases h with
  | label h => cases h rfl
  | combine hop | modify hop | shift hop | shiftByRegister _ hop | extend hop | divide _ hop
  | moveStack hop =>
    rintro rfl
    simp at hop
  | _ => exact nofun

theorem flow_ne_label_of_labelless {code : List Instr} (h : Labelless code) {i : Instr}
    (hi : i ∈ code) (l : Label) : i.flow ≠ .label l :=
  fun hflow => h i hi (Procedure.op_of_flow_label hflow)

theorem Labelless.keepsLabels {ctx : LoweringContext} {code : List Instr} (h : Labelless code)
    {i : ThreeAddress.Instr} (hi : ∀ l, i.flow ≠ .label l) :
    KeepsLabels ThreeAddress.Instr.flow Instr.flow ctx.qualified i code :=
  ⟨fun l hl => absurd hl (hi l),
    fun _ hmem _ hflow => absurd hflow (flow_ne_label_of_labelless h hmem _)⟩

namespace LoweringContext

variable {ctx : LoweringContext}

theorem qualified_injective : Function.Injective ctx.qualified := by
  intro l l' h
  obtain ⟨hname, hsubscript⟩ := Label.mk.inj h
  have hname : l.name = l'.name := by simpa [String.append_right_inj] using hname
  exact congrArg₂ Label.mk hname hsubscript

/-- The code of an instruction without doubles has its label, and no other. -/
theorem keepsLabels_instr {i : ThreeAddress.Instr} {returns : Option ScalarType}
    {arity? : String → Option Nat} (hdouble : i.usesDouble = false)
    (htype : i.typeDefect? returns arity? = none) :
    Lower.Yields (ctx.instr i)
      (KeepsLabels ThreeAddress.Instr.flow Instr.flow ctx.qualified i) := by
  cases hlabel : i.label? with
  | none =>
    have hflow : ∀ l, i.flow ≠ .label l := by
      intro l hl
      cases i <;> cases hl
      cases hlabel
    refine (lowers_instr false true (by simp [hlabel]) (by simp [hdouble]) (fun _ _ _ _ => rfl)
      htype).mono fun code hcode => ?_
    have hforms := @hcode (fun _ => True) (fun _ _ => trivial) fun _ _ => trivial
    exact Labelless.keepsLabels (fun j hj => (hforms j hj).op_ne_label) hflow
  | some l =>
    obtain rfl := Instr.eq_label_of_label? hlabel
    refine .pure ⟨?_, fun _ _ _ _ => ⟨l, rfl⟩⟩
    rintro _ ⟨⟩
    exact ⟨_, rfl, rfl⟩

end LoweringContext

end ThreeAddress.Amd64
