import ThreeAddress.Proofs.Amd64.LoweringRules
import ThreeAddress.Proofs.Amd64.SourceExecution

/-!
# Variables in lowered code

A variable of three-address code is a pseudo register of lowered code, or it is in memory.
Variables in memory do not overlap.  A sketch of the machine agrees with a state of three-address
code if all variables have the same values in both.

Lowered code writes to variables, and to temporaries and registers in which it keeps no variable.
To write to the place of a variable is to assign it, and all else is left alone.
-/

namespace ThreeAddress

open ThreeAddress.Const

theorem Const.ofWord_ofInt_toInt (c : Const) :
    ofWord c.type (BitVec.ofInt 64 c.bits.toInt) = c := by
  obtain ⟨t, bits⟩ := c
  have hbits : (bits.signExtend 64).setWidth t.width = bits := by
    apply BitVec.eq_of_getLsbD_eq
    intro i hi
    have hle := t.width_le
    rw [BitVec.getLsbD_setWidth, BitVec.getLsbD_signExtend, decide_eq_true hi,
      decide_eq_true (by omega), if_pos hi, Bool.true_and, Bool.true_and]
  exact congrArg (mk t) hbits

namespace Amd64

/-- The variables that some code uses, and their types.  Those in memory are in shared memory, and
do not overlap. -/
structure Layout (ctx : LoweringContext) (e : Setting) where
  used : Set String
  types : String → ScalarType
  shared : ∀ x ∈ used, ∀ a, ctx.address? e x = some a →
    ∀ i < (types x).size, e.region (byteAt a i) = .shared
  apart : ∀ x ∈ used, ∀ y ∈ used, x ≠ y → ∀ a b, ctx.address? e x = some a →
    ctx.address? e y = some b → ∀ i < (types x).size, ∀ j < (types y).size, byteAt a i ≠ byteAt b j

namespace LoweringContext

variable (ctx : LoweringContext)

def home (e : Setting) (x : String) : Place :=
  match ctx.address? e x with
  | some a => .address a
  | none => .cell (.pseudo x)

/-- The operand of a value that is not a double. -/
def operandOf : Value → Operand
  | .const c => immediate c
  | .var v => ctx.variableOperandOf v

end LoweringContext

namespace Layout

variable {ctx : LoweringContext} {e : Setting} (L : Layout ctx e)

/-- A variable that the code uses, with its type. -/
def Has (v : Variable) : Prop := v.name ∈ L.used ∧ L.types v.name = v.type

/-- A value whose variables the code uses. -/
def HasValue (x : Value) : Prop := ∀ v ∈ x.var?, L.Has v

/-- No variable is named like a temporary, unless it has static storage. -/
def Ordinary : Prop :=
  ∀ n, NameSupply.temporary n ∈ L.used → NameSupply.temporary n ∈ ctx.statics

/-- A location that holds no variable, and is not the stack pointer. -/
def IsScratch : Location Register → Prop
  | .reg r => r ≠ .rsp
  | .pseudo x => x ∈ L.used → ctx.address? e x ≠ none

end Layout

/-- A procedure knows which variables are in memory. -/
structure Procedure.Hosts (p : Procedure) {ctx : LoweringContext} {e : Setting} (L : Layout ctx e) :
    Prop where
  isAliased_variable : ∀ x ∈ L.used, x ∉ ctx.statics → p.isAliased x = ctx.aliased.contains x
  isAliased_temporary : ∀ n, p.isAliased (NameSupply.temporary n) = false

/-- All variables have the same values in a sketch as in a state of three-address code. -/
structure Sketch.Agrees {ctx : LoweringContext} {e : Setting} (A : Sketch) (L : Layout ctx e)
    (top : Option Const) (s : SourceState) : Prop where
  locals : ∀ x ∈ L.used, ctx.address? e x = none → A.cells (.pseudo x) = s.locals x
  typed : ∀ x ∈ L.used, ctx.address? e x = none → ∀ c, s.locals x = some c → c.type = L.types x
  bytes : A.bytes = s.bytes
  trace : A.trace = s.trace
  stack : A.cells (.reg .rsp) = top

section

variable {ctx : LoweringContext} {e : Setting} {L : Layout ctx e} {p : Procedure} {A : Sketch}
  {s : SourceState} {top : Option Const} {v : Variable} {c : Const} {x : String}

theorem Procedure.Hosts.place?_variable (hp : p.Hosts L) (hv : v.name ∈ L.used) :
    A.place? p e (ctx.variableOperandOf v) = some (ctx.home e v.name) := by
  unfold LoweringContext.variableOperandOf LoweringContext.home LoweringContext.address?
  by_cases hstatic : v.name ∈ ctx.statics
  · simp [hstatic, Sketch.place?]
  · have haliased := hp.isAliased_variable v.name hv hstatic
    by_cases hmem : v.name ∈ ctx.aliased
    · have hcontains : ctx.aliased.contains v.name = true := hmem
      simp [hstatic, hmem, Sketch.place?, haliased, hcontains]
    · have hcontains : ctx.aliased.contains v.name = false := by
        rw [Bool.eq_false_iff]
        exact hmem
      simp [hstatic, hmem, Sketch.place?, haliased, hcontains]

theorem Procedure.Hosts.place?_temporary (hp : p.Hosts L) (n : Nat) :
    A.place? p e (.pseudo (NameSupply.temporary n)) =
      some (.cell (.pseudo (NameSupply.temporary n))) := by
  simp [Sketch.place?, hp.isAliased_temporary n]

theorem Layout.Has.writable (hv : L.Has v) : e.Writable v.type (ctx.home e v.name) := by
  unfold LoweringContext.home
  split
  · rename_i a ha
    rw [← hv.2]
    exact L.shared v.name hv.1 a ha
  · trivial

theorem Layout.Ordinary.isScratch (hL : L.Ordinary) (n : Nat) :
    L.IsScratch (.pseudo (NameSupply.temporary n)) := by
  intro hused hnone
  rw [LoweringContext.address?, if_pos (hL n hused)] at hnone
  cases hnone

namespace Sketch.Agrees

theorem fetch?_variable (hA : A.Agrees L top s) (hv : L.Has v)
    (hc : s.eval? ctx e (.var v) = some c) : A.fetch? e v.type (ctx.home e v.name) = some c := by
  unfold LoweringContext.home
  simp only [SourceState.eval?] at hc
  cases ha : ctx.address? e v.name with
  | some a =>
    rw [ha] at hc
    have hshared := L.shared v.name hv.1 a ha
    rw [hv.2] at hshared
    simp only [fetch?, if_pos hshared, hA.bytes]
    exact hc
  | none =>
    rw [ha] at hc
    obtain ⟨c₁, hlocal, rfl⟩ := Option.map_eq_some_iff.mp hc
    have htype : c₁.type = v.type := (hA.typed v.name hv.1 ha c₁ hlocal).trans hv.2
    simp only [fetch?, hA.locals v.name hv.1 ha, hlocal, Option.bind_some]
    rw [← htype, if_pos (Nat.le_refl _), ofWord_raw, as_self]

theorem read?_variable (hA : A.Agrees L top s) (hp : p.Hosts L) (hv : L.Has v)
    (hc : s.eval? ctx e (.var v) = some c) :
    A.read? p e (ctx.variableOperandOf v) v.type = some c := by
  rw [Sketch.read?, hp.place?_variable hv.1]
  exact hA.fetch?_variable hv hc

theorem read?_operand {x : Value} (hA : A.Agrees L top s) (hp : p.Hosts L)
    (hx : ∀ v ∈ x.var?, L.Has v) (hc : s.eval? ctx e x = some c) :
    A.read? p e (ctx.operandOf x) x.type = some c := by
  cases x with
  | const c₁ =>
    cases hc
    exact congrArg some c.ofWord_ofInt_toInt
  | var v => exact hA.read?_variable hp (hx v rfl) hc

/-- Registers and temporaries hold no variable. -/
theorem set_scratch {l : Location Register} (hA : A.Agrees L top s) (hl : L.IsScratch l) :
    (A.set (.cell l) c).Agrees L top s := by
  refine ⟨?_, hA.typed, hA.bytes, hA.trace, ?_⟩
  · intro x hx hnone
    have hne : .pseudo x ≠ l := by
      rintro rfl
      exact hl hx hnone
    show Function.update A.cells l (some c) (.pseudo x) = s.locals x
    rw [Function.update_of_ne hne, hA.locals x hx hnone]
  · have hne : .reg .rsp ≠ l := by
      rintro rfl
      exact hl rfl
    show Function.update A.cells l (some c) (.reg .rsp) = top
    rw [Function.update_of_ne hne, hA.stack]

/-- To write to the place of a variable is to assign it. -/
theorem set_variable (hA : A.Agrees L top s) (hv : L.Has v) (hc : c.type = v.type) :
    (A.set (ctx.home e v.name) c).Agrees L top (s.assign ctx e v c) := by
  unfold LoweringContext.home SourceState.assign
  cases ha : ctx.address? e v.name with
  | some a =>
    refine ⟨hA.locals, hA.typed, ?_, hA.trace, hA.stack⟩
    show storeBytes A.bytes a c.type.size c.raw = storeBytes s.bytes a v.type.size (c.as v.type).raw
    rw [hA.bytes, hc, as_eq_self hc]
  | none =>
    refine ⟨?_, ?_, hA.bytes, hA.trace, ?_⟩
    · intro x hx hnone
      show Function.update A.cells (.pseudo v.name) (some c) (.pseudo x) =
        Function.update s.locals v.name (some (c.as v.type)) x
      by_cases hne : x = v.name
      · subst hne
        rw [Function.update_self, Function.update_self, as_eq_self hc]
      · rw [Function.update_of_ne hne, Function.update_of_ne (by simpa using hne),
          hA.locals x hx hnone]
    · intro x hx hnone c₁ hc₁
      have hc₁ : Function.update s.locals v.name (some (c.as v.type)) x = some c₁ := hc₁
      by_cases hne : x = v.name
      · subst hne
        rw [Function.update_self] at hc₁
        cases hc₁
        exact hv.2.symm
      · rw [Function.update_of_ne hne] at hc₁
        exact hA.typed x hx hnone c₁ hc₁
    · show Function.update A.cells (.pseudo v.name) (some c) (.reg .rsp) = top
      rw [Function.update_of_ne (by simp), hA.stack]

theorem withFlags (flags : Option Flags) (hA : A.Agrees L top s) :
    (A.withFlags flags).Agrees L top s :=
  ⟨hA.locals, hA.typed, hA.bytes, hA.trace, hA.stack⟩

end Sketch.Agrees

/-! ### Assignments -/

namespace SourceState

variable {u : Variable} {d : Const}

theorem eval?_type {x : Value} (h : s.eval? ctx e x = some c) : c.type = x.type := by
  cases x with
  | const c₁ =>
    cases h
    rfl
  | var v =>
    simp only [eval?] at h
    split at h
    · cases h
      rfl
    · obtain ⟨c₁, -, rfl⟩ := Option.map_eq_some_iff.mp h
      rfl

theorem eval?_of_address {a : Word} (h : ctx.address? e v.name = some a) :
    s.eval? ctx e (.var v) = some (.ofWord v.type (loadBytes s.bytes a v.type.size)) := by
  simp only [eval?, h]

theorem eval?_of_local (h : ctx.address? e v.name = none) :
    s.eval? ctx e (.var v) = (s.locals v.name).map (·.as v.type) := by
  simp only [eval?, h]

theorem assign_of_address {a : Word} (h : ctx.address? e v.name = some a) : s.assign ctx e v c =
      { s with bytes := storeBytes s.bytes a v.type.size (c.as v.type).raw } := by
  simp only [assign, h]

theorem assign_of_local (h : ctx.address? e v.name = none) : s.assign ctx e v c =
      { s with locals := Function.update s.locals v.name (some (c.as v.type)) } := by
  simp only [assign, h]

theorem eval?_assign_self : (s.assign ctx e v c).eval? ctx e (.var v) = some (c.as v.type) := by
  cases ha : ctx.address? e v.name with
  | some a =>
    have hlow := low_raw (c.as v.type)
    rw [as_type, ScalarType.width] at hlow
    rw [eval?_of_address ha, assign_of_address ha, loadBytes_storeBytes _ _ v.type.size_le, hlow]
    exact congrArg some (ofWord_raw (c.as v.type))
  | none =>
    rw [eval?_of_local ha, assign_of_local ha]
    simp only [Function.update_self, Option.map_some, as_as_self]

theorem eval?_assign_of_ne (hv : L.Has v) (hu : L.Has u) (hne : u.name ≠ v.name) :
    (s.assign ctx e v c).eval? ctx e (.var u) = s.eval? ctx e (.var u) := by
  cases ha : ctx.address? e v.name with
  | none =>
    rw [assign_of_local ha]
    cases hb : ctx.address? e u.name with
    | some b => rw [eval?_of_address hb, eval?_of_address hb]
    | none =>
      rw [eval?_of_local hb, eval?_of_local hb]
      simp only [Function.update_of_ne hne]
  | some a =>
    rw [assign_of_address ha]
    cases hb : ctx.address? e u.name with
    | none => rw [eval?_of_local hb, eval?_of_local hb]
    | some b =>
      rw [eval?_of_address hb, eval?_of_address hb]
      refine congrArg (fun x => some (ofWord u.type x)) (loadBytes_congr fun j hj => ?_)
      refine storeBytes_of_not_mem fun i hi => ?_
      rw [← hu.2] at hj
      rw [← hv.2] at hi
      exact L.apart u.name hu.1 v.name hv.1 hne b a hb ha j hj i hi

theorem assign_assign : (s.assign ctx e v c).assign ctx e v d = s.assign ctx e v d := by
  unfold assign
  cases ctx.address? e v.name with
  | some a =>
    simp only [mk.injEq, true_and, and_true]
    funext b
    simp only [storeBytes]
    split <;> rfl
  | none => simp

end SourceState

end

end Amd64

end ThreeAddress
