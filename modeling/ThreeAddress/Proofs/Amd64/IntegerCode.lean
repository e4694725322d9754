import ThreeAddress.Proofs.Amd64.GeneratedLabels

/-!
# Code without doubles

A program may be compiled with floating point switched off.  Verification then rejects every
instruction that mentions a double, and every static variable that is one.  It does not look at
parameters.  So what is lowered is free of doubles if and only if no parameter is one.
-/

namespace ThreeAddress.Amd64

open LoweringContext List

variable {targets : Label → Prop}

/-- Whether the operation exists for doubles only. -/
def Opcode.isSse : Opcode → Bool
  | cvttsd2si | cvtsi2sd _ | comisd => true
  | _ => false

def Operand.namesSse (o : Operand) : Bool := o.reg?.any Register.isSse || o.base?.any Register.isSse

/-- Whether an instruction works with doubles: by its width, its operation or a register. -/
def Instr.usesSse (i : Instr) : Bool :=
  i.width = .double || i.op.isSse || i.operands.any Operand.namesSse

/-! ### Forms without doubles -/

namespace Operand

@[simp] theorem namesSse_reg (r : Register) : (reg r).namesSse = r.isSse := Bool.or_false _

theorem namesSse_of_isValue {o : Operand} (h : o.isValue = true) : o.namesSse = false := by
  cases o <;> first | rfl | cases h

end Operand

theorem Instr.IsLowered.width_and_op {i : Instr} {stack : Bool}
    (h : i.IsLowered false stack targets) : i.width ≠ .double ∧ i.op.isSse = false := by
  have hwidth {w : Width} (hw : w = .double → false = true) : w ≠ .double := fun h => nomatch hw h
  have hinteger (ops : List Opcode) (hops : ∀ op ∈ ops, op.isSse = false) {op : Opcode}
      (hop : op ∈ ops) : op.isSse = false := hops op hop
  cases h with
  | copy hd | truncate _ hd | ofRegister _ hd | ofStack hd | load _ hd | toRegister _ _ hd
  | store _ hd | compare hd => exact ⟨hwidth hd.2, rfl⟩
  | combine hop hd =>
    refine ⟨hwidth hd.2, hop.elim (hinteger _ (by decide)) ?_⟩
    rintro ⟨rfl, -⟩
    rfl
  | modify hop hd | shift hop _ hd | shiftByRegister _ hop hd =>
    exact ⟨hwidth hd.2, hinteger _ (by decide) hop⟩
  | extend hop hd => rcases hop with rfl | rfl <;> exact ⟨hwidth hd.2, rfl⟩
  | signUpper _ hw => exact ⟨hw, rfl⟩
  | divide _ hop hw => exact ⟨hw, hinteger _ (by decide) hop⟩
  | moveStack hop => exact ⟨nofun, hinteger _ (by decide) hop⟩
  | setByte | clearUpper | address | jump | branch | ret | push | pushRegister | call =>
    exact ⟨nofun, rfl⟩
  | compareDoubles h | toDouble h | toInteger _ h => cases h.2 rfl
  | label h => cases h rfl

theorem Instr.IsLowered.usesSse_eq_false {i : Instr} {stack : Bool}
    (h : i.IsLowered false stack targets) : i.usesSse = false := by
  obtain ⟨hwidth, hop⟩ := h.width_and_op
  simp only [usesSse, hwidth, hop, decide_false, Bool.false_or, any_eq_false]
  intro o ho
  cases h.operands o ho with
  | value ho => simp [Operand.namesSse_of_isValue ho]
  | register hr hsse => simpa using hsse
  | _ => nofun

/-! ### Functions and programs -/

namespace LoweringContext

variable {ctx : LoweringContext} {returns : Option ScalarType} {arity? : String → Option Nat}

theorem usesSse_body {body : Listing ThreeAddress.Instr}
    (hdouble : ∀ i ∈ body, i.usesDouble = false)
    (htype : ∀ i ∈ body, i.typeDefect? returns arity? = none) :
    Lower.Yields (ctx.body body) fun code => ∀ j ∈ code, j.usesSse = false := by
  refine keeps_body_forall_mem (Q := fun j => j.usesSse = false) (fun i hi => ?_) rfl
  cases hlabel : i.label? with
  | none =>
    have hforms := ctx.lowers_instr false true (by simp [hlabel]) (by simp [hdouble i hi])
      (fun _ _ _ _ => rfl) (htype i hi)
    refine hforms.mono fun code hcode j hj => ?_
    exact (@hcode (fun _ => True) (fun _ _ => trivial) (fun _ _ => trivial) j hj).usesSse_eq_false
  | some l =>
    obtain rfl := Instr.eq_label_of_label? hlabel
    exact .pure (forall_mem_singleton.mpr rfl)

theorem usesSse_params (ps : List Variable) : Lower.Yields (ctx.params ps) fun code =>
      (∀ j ∈ code, j.usesSse = false) ↔ ∀ v ∈ ps, v.type.isDouble = false := by
  refine fun st code st' _ hrun => ⟨trivial, fun hcode v hv => ?_, fun hps j hj => ?_⟩
  · have hmem : .ofType v.type ∈ code.map Instr.width := by
      rw [(width_params ps).of_run hrun]
      exact mem_map_of_mem hv
    obtain ⟨j, hj, hwidth⟩ := mem_map.mp hmem
    cases ht : v.type with
    | double =>
      rw [ht] at hwidth
      simpa [Instr.usesSse, hwidth, Width.ofType] using hcode j hj
    | _ => rfl
  · have hforms := (lowers_params false true fun v hv => by simp [hps v hv]).of_run hrun
    exact (hforms j hj fun _ => True).usesSse_eq_false

end LoweringContext

/-- A function whose body mentions no double is lowered to code without doubles, if none of its
parameters is one. -/
theorem usesSse_lowerFunction {p : Program} {f : Function} {returns : Option ScalarType}
    {arity? : String → Option Nat} (platform : Platform) (constants : ConstantPool)
    (hdouble : ∀ i ∈ f.body, i.usesDouble = false)
    (htype : ∀ i ∈ f.body, i.typeDefect? returns arity? = none) :
    ∃ q constants', lowerFunction p platform f constants = .ok (q, constants') ∧
      ((∀ i ∈ q.body, i.usesSse = false) ↔ ∀ v ∈ f.params, v.type.isDouble = false) := by
  obtain ⟨⟨params, st₁⟩, hparams⟩ :=
    (of p platform f).succeeds_params f.params (.initial f constants)
  obtain ⟨⟨body, st₂⟩, hbody⟩ :=
    (of p platform f).succeeds_body hdouble htype st₁
  refine ⟨_, _, lowerFunction_eq_ok hparams hbody, ?_⟩
  have hparams : (∀ j ∈ params, j.usesSse = false) ↔ ∀ v ∈ f.params, v.type.isDouble = false :=
    (usesSse_params f.params).of_run hparams
  rw [← hparams, forall_mem_append]
  exact and_iff_left ((usesSse_body hdouble htype).of_run hbody)

/-- With floating point switched off, an accepted program is lowered, and the code of a function is
free of doubles if and only if none of its parameters is a double. -/
theorem lowerFunctions_usesSse_iff {p : Program} {c : Config} (hverify : p.verify c = .ok ())
    (hfloat : c.floatingPoint = false) :
    ∃ procedures constants,
      lowerFunctions p c.platform p.functions (.empty c.platform) = .ok (procedures, constants) ∧
      List.Forall₂ (fun f q => (∀ i ∈ q.body, i.usesSse = false) ↔
        ∀ v ∈ f.params, v.type.isDouble = false) p.functions procedures := by
  refine exists_lowerFunctions (I := fun _ => True) (fun f hf constants _ => ?_) trivial
  obtain ⟨table, -, haccepted, hdouble, -⟩ := p.accepted_of_verify hverify hf
  have hdouble : ∀ i ∈ f.body, i.usesDouble = false := by
    intro i hi
    exact (hdouble i hi).resolve_left (by simp [hfloat])
  obtain ⟨q, constants', hq, hiff⟩ := usesSse_lowerFunction (p := p) c.platform constants hdouble
    haccepted.typeDefect?_eq
  exact ⟨q, constants', hq, trivial, hiff⟩

/-- A function that takes a double and does nothing with it, and one that calls with an integer. -/
def idleProgram : Program where
  functions :=
    [⟨"idle", true, [⟨"a", .double⟩], none, [.ret none]⟩,
      ⟨"calling", true, [⟨"b", .long⟩], none, [.call none "idle" [.var ⟨"b", .long⟩]]⟩]
  statics := []

/-- Only the second function is lowered to code without doubles. -/
theorem idleProgram_usesSse_iff :
    idleProgram.verify { floatingPoint := false } = .ok () ∧
      ∃ q q' constants, lowerFunctions idleProgram .linux idleProgram.functions (.empty .linux) =
          .ok ([q, q'], constants) ∧
        ¬(∀ i ∈ q.body, i.usesSse = false) ∧ ∀ i ∈ q'.body, i.usesSse = false := by
  have hverify : idleProgram.verify { floatingPoint := false } = .ok () := by decide
  obtain ⟨procedures, constants, hlowered, hall⟩ := lowerFunctions_usesSse_iff hverify rfl
  obtain ⟨q, _, hq, hrest, rfl⟩ := List.forall₂_cons_left_iff.mp hall
  obtain ⟨q', _, hq', hnil, rfl⟩ := List.forall₂_cons_left_iff.mp hrest
  obtain rfl := List.forall₂_nil_left_iff.mp hnil
  refine ⟨hverify, q, q', constants, hlowered, fun h => ?_, hq'.mpr (by decide)⟩
  exact absurd (hq.mp h) (by decide)

/-- With floating point switched off, a function with a double as parameter is accepted, and lowered
to code that moves a double. -/
theorem verify_doubleParameter :
    idleProgram.verify { floatingPoint := false } = .ok () ∧
      ∃ q constants, lowerFunction idleProgram .linux
          ⟨"idle", true, [⟨"a", .double⟩], none, [.ret none]⟩ (.empty .linux) = .ok (q, constants) ∧
        ⟨.mov, .double, [.pseudo "a", .reg (.xmm 0)]⟩ ∈ q.body :=
  ⟨by decide, _, _, rfl, List.mem_cons_self⟩

end ThreeAddress.Amd64
