import ThreeAddress.Proofs.Amd64.LoweringRules

/-!
# Forms of lowered instructions

Lowered code has few kinds of instructions.  Their operands are variables, temporaries and
constants, and registers appear only where an instruction of the machine asks for them: for
arguments and results, for division and shifts, and for addresses.  Doubles appear only where the
three-address code has them, and so do labels that it does not define itself.
-/

namespace ThreeAddress

open List

variable {returns : Option ScalarType} {arity? : String → Option Nat}

/-- A body in which running off the end is a return without a value. -/
def completed (body : Listing Instr) : Listing Instr :=
  match body.getLast? with
  | some (.ret _) => body
  | _ => body ++ [.ret none]

theorem Instr.eq_label_of_label? {i : Instr} {l : Label} (h : i.label? = some l) :
    i = .label l := by
  cases i <;> cases h
  rfl

namespace Amd64

variable {constants constants' : ConstantPool} {f : Function} {p : Program} {platform : Platform}

/-! ### Forms -/

theorem mem_callerSaved_of_mem_namedRegisters {r : Register} (hr : r ∈ namedRegisters) :
    r ∈ Register.callerSaved := by
  revert r
  decide

/-- The forms of instructions with or without doubles, calls, and registers that were set before. -/
def Forms.lowered (doubles stack registers : Bool) : Forms where
  allows w := w = .double → doubles = true
  has t _ := t.isDouble = true → doubles = true
  fits w _ := w = .double → doubles = true
  addressable o := o.isValue = true
  narrows := True
  registers := registers = true
  calls := stack = true

/-- Lowered instructions. -/
abbrev Instr.IsLowered (doubles stack : Bool) (targets : Label → Prop) (i : Instr) : Prop :=
  i.HasForm (.lowered doubles stack true) targets

/-- The operands of lowered instructions. -/
inductive Operand.IsLowered (doubles stack : Bool) : Operand → Prop
  | value {o : Operand} (ho : o.isValue = true) : IsLowered doubles stack o
  | register {r : Register} (hr : r ∈ namedRegisters) (hsse : r.isSse = true → doubles = true) :
      IsLowered doubles stack (.reg r)
  | argument {n : Nat} : IsLowered doubles stack (.memory .rbp (stackArgumentOffset n))
  | pointer : IsLowered doubles stack (.memory .r11 0)
  | label {l : Label} : IsLowered doubles stack (.label l)
  | stackPointer (h : stack = true) : IsLowered doubles stack (.reg .rsp)
  | callee {symbol : String} (h : stack = true) : IsLowered doubles stack (.callee symbol)

theorem Instr.IsLowered.operands {i : Instr} {doubles stack : Bool} {targets : Label → Prop}
    (h : i.IsLowered doubles stack targets) : ∀ o ∈ i.operands, o.IsLowered doubles stack := by
  have hvariable {o : Operand} (ho : o.isVariable = true) : o.IsLowered doubles stack :=
    .value (Operand.isValue_of_isVariable ho)
  have hregister {r : Register} (hr : r ∈ namedRegisters ∧ r.isSse = false) :
      (Operand.reg r).IsLowered doubles stack := .register hr.1 (by simp [hr.2])
  have himm (n : Int) : (Operand.imm n).IsLowered doubles stack := .value rfl
  cases h with
  | copy hd hs | truncate _ hd hs | combine _ hd hs | extend _ hd hs | toDouble hd hs
  | toInteger hd hs => simp [hvariable hd.1, Operand.IsLowered.value hs.1]
  | address hd hs => simp [hvariable hd.1, Operand.IsLowered.value hs]
  | toRegister hr hsse hs =>
    simp [Operand.IsLowered.register hr fun h => hsse h rfl, Operand.IsLowered.value hs.1]
  | ofRegister _ hd hr hsse =>
    simp [hvariable hd.1, Operand.IsLowered.register hr fun h => hsse h rfl]
  | ofStack hd => simp [hvariable hd.1, Operand.IsLowered.argument]
  | load _ hd => simp [hvariable hd.1, Operand.IsLowered.pointer]
  | store _ hs => simp [Operand.IsLowered.value hs.1, Operand.IsLowered.pointer]
  | modify _ hd | setByte _ hd => simp [hvariable hd.1]
  | @shift _ _ _ n _ _ hd => simp [hvariable hd.1, himm n]
  | shiftByRegister _ _ hd => simp [hvariable hd.1, hregister (r := .rcx) (by decide)]
  | compare ha hb | compareDoubles ha hb =>
    simp [Operand.IsLowered.value ha.1, Operand.IsLowered.value hb.1]
  | divide _ _ _ hs | push _ hs => simp [Operand.IsLowered.value hs.1]
  | clearUpper => simp [hregister (r := .rdx) (by decide)]
  | jump | branch | label => simp [Instr.label, bare, Operand.IsLowered.label]
  | signUpper | ret => simp [bare]
  | pushRegister => simp [hregister (r := .rax) (by decide)]
  | call h => simp [Operand.IsLowered.callee h]
  | @moveStack _ n _ h => simp [Operand.IsLowered.stackPointer h, himm n]

def FormRules.lowered (ctx : LoweringContext) (doubles stack registers : Bool) : FormRules ctx where
  toForms := .lowered doubles stack registers
  state _ := True
  accepts x := x.type.isDouble = true → doubles = true
  allows_of_ne h h' := absurd h' h
  allows_of_accepts h h' := h (Width.ofType_eq_double h')
  allows_of_fits := id
  fits_of_has h h' := h (Width.ofType_eq_double h')
  fits_of_size _ h _ _ := h
  fits_of_ne h _ _ := h
  has_of_ne h _ _ h' := h (congrArg Width.ofType ((ScalarType.isDouble_iff _).mp h'))
  has_variable := id
  intern h _ := ⟨trivial, fun _ => h rfl⟩
  state_drawn := id
  state_noted _ _ := id
  state_labels := id
  state_arguments := id

namespace LoweringContext

open Lower

variable {ctx : LoweringContext}
variable {P : ThreeAddress.Instr → List Instr → Prop}

/-! ### Operands -/

theorem yields_variableOperand (v : Variable) :
    Yields (ctx.variableOperand v) fun o => o.isVariable = true :=
  ((FormRules.lowered ctx true true true).keeps_variable fun _ => rfl).mono fun _ h => h.1

theorem yields_operand (v : Value) : Yields (ctx.operand v) fun o => o.isValue = true :=
  ((FormRules.lowered ctx true true true).keeps_operand fun _ => rfl).mono fun _ h => h.1

/-! ### Instructions and parameters -/

/-- What the code of an instruction looks like.  Labels are kept as they are. -/
theorem lowers_instr (doubles stack : Bool) {i : ThreeAddress.Instr}
    (hlabel : i.label?.isSome = true → doubles = true)
    (hdouble : i.usesDouble = true → doubles = true)
    (hstack : ∀ dst callee args, i = .call dst callee args → stack = true)
    (htype : i.typeDefect? returns arity? = none) :
    Yields (ctx.instr i) fun code => ∀ ⦃targets : Label → Prop⦄,
      (∀ l, Instr.label l ∈ code → targets l) →
      (∀ l, i.target? = some l → targets (ctx.qualified l)) →
        ∀ j ∈ code, j.IsLowered doubles stack targets := by
  refine FormRules.keeps_instr (R := .lowered ctx doubles stack true) (fun _ => rfl)
    (fun h _ => hlabel h) hstack (fun _ => trivial) (fun v _ => ctx.isValue_variableOperandOf v)
    (fun x hx h => hdouble ?_) (fun x hx h => hdouble ?_) (fun x hx h => hdouble ?_) htype
  all_goals simp only [Instr.usesDouble, Bool.or_eq_true, any_eq_true]
  · exact .inr (by rw [Option.mem_def.mp hx]; exact h)
  · exact .inl (.inl (by rw [Option.mem_def.mp hx]; exact h))
  · exact .inl (.inr ⟨x, hx, h⟩)

/-- What the code that copies the parameters looks like. -/
theorem lowers_params (doubles stack : Bool) {ps : List Variable}
    (hps : ∀ v ∈ ps, v.type.isDouble = true → doubles = true) :
    Yields (ctx.params ps) fun code => ∀ i ∈ code, ∀ targets, i.IsLowered doubles stack targets :=
  FormRules.keeps_params (R := .lowered ctx doubles stack true) rfl hps

theorem width_params (ps : List Variable) : Yields (ctx.params ps) fun code =>
    code.map Instr.width = ps.map fun v => Width.ofType v.type := by
  refine (Keeps.mapM (R := fun x i => .ofType x.1.type = i.width) ?_).mono fun code hcode => ?_
  · exact fun x _ => .bind (yields_variableOperand x.1) fun _ _ => .pure rfl
  · have hwidths : (ps.zip (ArgumentPlace.ofTypes (ps.map (·.type)))).map
        (fun x => .ofType x.1.type) = code.map Instr.width := by
      rw [← forall₂_eq_eq_eq]
      exact forall₂_map_left_iff.mpr (forall₂_map_right_iff.mpr hcode)
    have hfst : (ps.zip (ArgumentPlace.ofTypes (ps.map (·.type)))).map Prod.fst = ps :=
      map_fst_zip (by simp)
    rw [← hwidths]
    conv_rhs => rw [← hfst, map_map]
    rfl

variable {I : LoweringState → Prop} {body : Listing ThreeAddress.Instr}

/-- The code of the return that is added to a body. -/
def ending (body : Listing ThreeAddress.Instr) : List Instr :=
  match body.getLast? with
  | some (.ret _) => []
  | _ => [.bare .ret []]

theorem body_eq (ctx : LoweringContext) (body : Listing ThreeAddress.Instr) :
    ctx.body body = body.mapM ctx.instr >>= fun blocks => pure (blocks.flatten ++ ending body) := by
  refine bind_congr fun blocks => ?_
  cases hlast : body.getLast? with
  | none =>
    simp only [ending, hlast]
    rfl
  | some i =>
    simp only [ending, hlast]
    cases i <;> rfl

theorem exists_completed {blocks : List (List Instr)} (hblocks : List.Forall₂ P body blocks)
    (hret : P (.ret none) [.bare .ret []]) :
    ∃ blocks', blocks.flatten ++ ending body = blocks'.flatten ∧
      List.Forall₂ P (completed body) blocks' := by
  unfold ending completed
  split
  · exact ⟨blocks, append_nil _, hblocks⟩
  · exact ⟨blocks ++ [[.bare .ret []]], by simp, rel_append hblocks (.cons hret .nil)⟩

theorem keeps_body (hinstr : ∀ i ∈ body, Keeps I (ctx.instr i) (P i))
    (hret : P (.ret none) [.bare .ret []]) :
    Keeps I (ctx.body body) fun code =>
      ∃ blocks, code = blocks.flatten ∧ List.Forall₂ P (completed body) blocks := by
  rw [body_eq]
  exact .bind (.mapM hinstr) fun blocks hblocks => .pure (exists_completed hblocks hret)

theorem keeps_body_forall_mem {Q : Instr → Prop}
    (hinstr : ∀ i ∈ body, Keeps I (ctx.instr i) fun code => ∀ j ∈ code, Q j)
    (hret : Q (.bare .ret [])) : Keeps I (ctx.body body) fun code => ∀ j ∈ code, Q j := by
  refine (keeps_body hinstr (forall_mem_singleton.mpr hret)).mono ?_
  rintro _ ⟨blocks, rfl, hblocks⟩ j hj
  obtain ⟨block, hblock, hj⟩ := mem_flatten.mp hj
  obtain ⟨_, -, hall⟩ := exists_of_forall₂_of_mem hblocks hblock
  exact hall j hj

end LoweringContext

/-! ### Functions -/

theorem lowerFunction_eq_ok {params body : List Instr} {st₁ st₂ : LoweringState}
    (hparams : ((LoweringContext.of p platform f).params f.params).run (.initial f constants) =
      .ok (params, st₁))
    (hbody : ((LoweringContext.of p platform f).body f.body).run st₁ = .ok (body, st₂)) :
    lowerFunction p platform f constants = .ok (⟨f.name, f.isGlobal, params ++ body, st₂.pseudos,
      resultRegisters f.returnType, st₂.callArguments⟩, st₂.constants) := by
  simp only [lowerFunction, StateT.run_bind, hparams]
  show Except.bind (.bind (((LoweringContext.of p platform f).body f.body).run st₁) _) _ = _
  rw [hbody]
  rfl

theorem exists_of_lowerFunction {q : Procedure}
    (h : lowerFunction p platform f constants = .ok (q, constants')) :
    ∃ params body st₁ st₂,
      ((LoweringContext.of p platform f).params f.params).run (.initial f constants) =
        .ok (params, st₁) ∧
      ((LoweringContext.of p platform f).body f.body).run st₁ = .ok (body, st₂) ∧
      q = ⟨f.name, f.isGlobal, params ++ body, st₂.pseudos, resultRegisters f.returnType,
        st₂.callArguments⟩ := by
  cases hparams :
    ((LoweringContext.of p platform f).params f.params).run (.initial f constants) with
  | error err =>
    simp only [lowerFunction, StateT.run_bind, hparams] at h
    cases h
  | ok first =>
    cases hbody : ((LoweringContext.of p platform f).body f.body).run first.2 with
    | error err =>
      simp only [lowerFunction, StateT.run_bind, hparams] at h
      replace h : Except.bind (.bind
        (((LoweringContext.of p platform f).body f.body).run first.2) _) _ =
          .ok (q, constants') := h
      rw [hbody] at h
      cases h
    | ok result =>
      rw [lowerFunction_eq_ok hparams hbody] at h
      cases h
      exact ⟨first.1, result.1, first.2, result.2, rfl, hbody, rfl⟩

/-- All instructions of a lowered function have the forms of lowered ones. -/
theorem isLowered_of_lowerFunction {q : Procedure}
    (hq : lowerFunction p platform f constants = .ok (q, constants'))
    (htype : ∀ i ∈ f.body, i.typeDefect? returns arity? = none) :
    ∀ i ∈ q.body, i.IsLowered true true fun _ => True := by
  obtain ⟨params, body, st₁, st₂, hparams, hbody, rfl⟩ := exists_of_lowerFunction hq
  have hinstr : ∀ i ∈ f.body, Lower.Yields ((LoweringContext.of p platform f).instr i)
      fun code => ∀ j ∈ code, j.IsLowered true true fun _ => True := fun i hi =>
    (LoweringContext.lowers_instr true true (fun _ => rfl) (fun _ => rfl) (fun _ _ _ _ => rfl)
      (htype i hi)).mono fun code hcode => hcode (fun _ _ => trivial) fun _ _ => trivial
  have hback := (LoweringContext.keeps_body_forall_mem hinstr .ret).of_run hbody
  have hfront := (LoweringContext.lowers_params true true fun _ _ _ => rfl).of_run hparams
  exact forall_mem_append.mpr ⟨fun i hi => hfront i hi _, hback⟩

end Amd64

end ThreeAddress
