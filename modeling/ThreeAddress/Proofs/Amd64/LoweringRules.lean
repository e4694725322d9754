import ThreeAddress.Amd64.Lowering.Function
import ThreeAddress.Proofs.Traversals
import ThreeAddress.Proofs.Verification.Accepted

/-!
# Rules for lowered code

Many facts about lowered code say the same of each of its instructions: that it has some form, or
that it accesses its operands in some way.  Such a fact is given by rules.  There is one rule for
each form of instruction, which says what has to be known of the operands.  The code of every
three-address instruction then obeys the rules, as verification has seen to the types of its
operands.
-/

namespace ThreeAddress.Amd64

open List Width LoweringContext ArgumentPlace

variable {op : BinaryOp}

/-! ### What lowering gives -/

/-- A step of lowering keeps what is known of the state, and whatever it gives has some property. -/
def Lower.Keeps (I : LoweringState → Prop) {α : Type} (x : Lower α) (P : α → Prop) : Prop :=
  ∀ ⦃st a st'⦄, I st → x.run st = .ok (a, st') → I st' ∧ P a

/-- Whatever a step of lowering gives has some property. -/
abbrev Lower.Yields {α : Type} (x : Lower α) (P : α → Prop) : Prop := Keeps (fun _ => True) x P

/-- The state after a temporary was taken. -/
def LoweringState.drawn (st : LoweringState) (w : Width) : LoweringState :=
  { st with
    temporaries := st.temporaries.next.2
    pseudos := st.pseudos.insert st.temporaries.next.1 ⟨w, false⟩ }

/-- The state after a variable was met. -/
def LoweringContext.noted (ctx : LoweringContext) (st : LoweringState) (v : Variable) :
    LoweringState :=
  { st with
    pseudos := st.pseudos.insertIfNew v.name ⟨.ofType v.type, ctx.aliased.contains v.name⟩ }

namespace Lower.Keeps

variable {I : LoweringState → Prop} {α β : Type} {x : Lower α} {f : α → Lower β} {P Q' : α → Prop}
  {Q : β → Prop}

theorem pure {a : α} (h : P a) : Keeps I (Pure.pure a) P := by
  intro st b st' hst hrun
  cases hrun
  exact ⟨hst, h⟩

theorem throw {err : LoweringError} : Keeps I (throw err : Lower α) P := by
  intro st b st' _ hrun
  cases hrun

theorem bind (hx : Keeps I x P) (hf : ∀ a, P a → Keeps I (f a) Q) : Keeps I (x >>= f) Q := by
  intro st b st' hst hrun
  rw [StateT.run_bind] at hrun
  cases hfirst : x.run st with
  | error err =>
    rw [hfirst] at hrun
    cases hrun
  | ok first =>
    rw [hfirst] at hrun
    obtain ⟨hst₁, ha⟩ := hx hst hfirst
    exact hf first.1 ha hst₁ hrun

theorem mono (hx : Keeps I x P) (h : ∀ a, P a → Q' a) : Keeps I x Q' := by
  intro st a st' hst hrun
  obtain ⟨hst', ha⟩ := hx hst hrun
  exact ⟨hst', h a ha⟩

theorem ite {c : Prop} [Decidable c] {y : Lower α} (hx : c → Keeps I x P) (hy : ¬c → Keeps I y P) :
    Keeps I (if c then x else y) P := by
  split
  · exact hx (by assumption)
  · exact hy (by assumption)

theorem mapM {R : α → β → Prop} {xs : List α} (hf : ∀ a ∈ xs, Keeps I (f a) (R a)) :
    Keeps I (xs.mapM f) (List.Forall₂ R xs) := by
  induction xs with
  | nil => exact pure .nil
  | cons a rest ih =>
    obtain ⟨ha, hrest⟩ := forall_mem_cons.mp hf
    rw [mapM_cons]
    exact bind ha fun b hb => bind (ih hrest) fun bs hbs => pure (.cons hb hbs)

theorem mapM_forall_mem {xs : List α} (hf : ∀ a ∈ xs, Keeps I (f a) Q) :
    Keeps I (xs.mapM f) fun bs => ∀ b ∈ bs, Q b := by
  refine (mapM hf).mono fun bs hbs b hb => ?_
  obtain ⟨_, -, hQ⟩ := exists_of_forall₂_of_mem hbs hb
  exact hQ

theorem of_run (hx : Yields x P) {st st' : LoweringState} {a : α} (h : x.run st = .ok (a, st')) :
    P a := (hx trivial h).2

end Lower.Keeps

/-! ### Operands -/

namespace Operand

/-- Variables and temporaries, and doubles in memory. -/
def isVariable : Operand → Bool
  | pseudo _ | data _ => true
  | _ => false

/-- What a value of three-address code becomes. -/
def isValue : Operand → Bool
  | imm _ | pseudo _ | data _ => true
  | _ => false

theorem isValue_of_isVariable {o : Operand} (h : o.isVariable = true) : o.isValue = true := by
  cases o <;> first | rfl | cases h

end Operand

/-- The registers that lowered code names, beside the stack pointer: those of arguments and results,
and those that are asked for by divisions, shifts and accesses through a pointer. -/
def namedRegisters : List Register :=
  [.rax, .rcx, .rdx, .rsi, .rdi, .r8, .r9, .r11] ++ ArgumentPlace.doubleRegisters

theorem resultRegister_spec (t : ScalarType) :
    resultRegister t ∈ namedRegisters ∧ (resultRegister t).isSse = t.isDouble := by
  unfold resultRegister
  split
  · rename_i ht
    exact ⟨by decide, ht.symm⟩
  · rename_i ht
    exact ⟨by decide, (Bool.not_eq_true _ ▸ ht).symm⟩

theorem Width.ofType_eq_double {t : ScalarType} (h : ofType t = .double) : t.isDouble = true := by
  cases t <;> first | rfl | cases h

namespace LoweringContext

open Lower

variable {I : LoweringState → Prop} (ctx : LoweringContext)

theorem run_freshLabel (name : String) (st : LoweringState) : (ctx.freshLabel name).run st =
    match st.labels.next? name with
    | some (l, labels) => .ok (ctx.qualified l, { st with labels := labels })
    | none => .error .subscriptOverflow := by
  show StateT.run (match st.labels.next? name with
    | some (l, labels) => do
      set { st with labels := labels }
      return ctx.qualified l
    | none => throw .subscriptOverflow : Lower Label) st = _
  cases st.labels.next? name <;> rfl

theorem keeps_freshLabel (name : String)
    (hI : ∀ {st labels}, I st → I { st with labels := labels }) :
    Keeps I (ctx.freshLabel name) fun _ => True := by
  intro st l st' hst hrun
  rw [run_freshLabel] at hrun
  split at hrun
  · cases hrun
    exact ⟨hI hst, trivial⟩
  · cases hrun

/-- The operand of a variable. -/
def variableOperandOf (v : Variable) : Operand :=
  if v.name ∈ ctx.statics then .data (ctx.platform.symbol v.name) else .pseudo v.name

theorem variableOperandOf_cases (v : Variable) :
    ctx.variableOperandOf v = .data (ctx.platform.symbol v.name) ∨
      ctx.variableOperandOf v = .pseudo v.name :=
  ite_eq_or_eq ..

theorem isValue_variableOperandOf (v : Variable) : (ctx.variableOperandOf v).isValue = true := by
  rcases ctx.variableOperandOf_cases v with h | h <;> rw [h] <;> rfl

theorem keeps_variableOperand (v : Variable)
    (hI : v.name ∉ ctx.statics → ∀ {st}, I st → I (ctx.noted st v)) :
    Keeps I (ctx.variableOperand v) (· = ctx.variableOperandOf v) := by
  refine .ite (fun h => .pure (if_pos h).symm) fun h => ?_
  rintro st o st' hst ⟨⟩
  exact ⟨hI h hst, (if_neg h).symm⟩

end LoweringContext

theorem wordOf_emod (c : Const) : 0 ≤ wordOf c % 256 ∧ wordOf c % 256 < 256 := by omega

/-! ### Forms -/

/-- What lowered code may contain. -/
structure Forms where
  /-- The widths that operands may have. -/
  allows : Width → Prop
  /-- The operands for values of a type. -/
  has : ScalarType → Operand → Prop
  /-- The operands that may be accessed with a width. -/
  fits : Width → Operand → Prop
  /-- The operands whose address is taken. -/
  addressable : Operand → Prop
  /-- Whether a part of an operand may be accessed. -/
  narrows : Prop
  /-- Whether registers may be read that were set before. -/
  registers : Prop
  /-- Whether there may be calls, which use the stack. -/
  calls : Prop

namespace Forms

variable (F : Forms) (w : Width) (t : ScalarType) (o : Operand)

def Writes : Prop := o.isVariable = true ∧ F.fits w o

def Reads : Prop := o.isValue = true ∧ F.fits w o

def IsVariable : Prop := o.isVariable = true ∧ F.has t o

def IsValue : Prop := o.isValue = true ∧ F.has t o

variable {F w t o}

theorem Writes.reads (h : F.Writes w o) : F.Reads w o := ⟨Operand.isValue_of_isVariable h.1, h.2⟩

theorem IsVariable.isValue (h : F.IsVariable t o) : F.IsValue t o :=
  ⟨Operand.isValue_of_isVariable h.1, h.2⟩

end Forms

/-- The forms of lowered instructions.  Jumps go to the given labels. -/
inductive Instr.HasForm (F : Forms) (targets : Label → Prop) : Instr → Prop
  | copy {w : Width} {d s : Operand} (hd : F.Writes w d) (hs : F.Reads w s) :
      HasForm F targets ⟨.mov, w, [d, s]⟩
  /-- A wider value is read with the width of the result. -/
  | truncate {w : Width} {d s : Operand} {t : ScalarType} (h : F.narrows) (hd : F.Writes w d)
      (hs : F.IsValue t s) (ht : t.isDouble = false) (hsize : w.size < t.size) :
      HasForm F targets ⟨.mov, w, [d, s]⟩
  /-- A value is brought to a register. -/
  | toRegister {w : Width} {r : Register} {s : Operand} (hnamed : r ∈ namedRegisters)
      (hr : r.isSse = true → F.allows .double) (hs : F.Reads w s) :
      HasForm F targets ⟨.mov, w, [.reg r, s]⟩
  /-- A variable gets what is in a register. -/
  | ofRegister {w : Width} {d : Operand} {r : Register} (h : F.registers) (hd : F.Writes w d)
      (hnamed : r ∈ namedRegisters) (hr : r.isSse = true → F.allows .double) :
      HasForm F targets ⟨.mov, w, [d, .reg r]⟩
  /-- A parameter is taken from the stack. -/
  | ofStack {w : Width} {d : Operand} {n : Nat} (hd : F.Writes w d) :
      HasForm F targets ⟨.mov, w, [d, .memory .rbp (stackArgumentOffset n)]⟩
  | load {w : Width} {d : Operand} (h : F.registers) (hd : F.Writes w d) :
      HasForm F targets ⟨.mov, w, [d, .memory .r11 0]⟩
  | store {w : Width} {s : Operand} (h : F.registers) (hs : F.Reads w s) :
      HasForm F targets ⟨.mov, w, [.memory .r11 0, s]⟩
  | combine {op : Opcode} {w : Width} {d s : Operand}
      (hop : op ∈ [.add, .sub, .imul, .and, .or, .xor] ∨ op = .div ∧ w = .double)
      (hd : F.Writes w d) (hs : F.Reads w s) : HasForm F targets ⟨op, w, [d, s]⟩
  | modify {op : Opcode} {w : Width} {d : Operand} (hop : op ∈ [.neg, .not])
      (hd : F.Writes w d) : HasForm F targets ⟨op, w, [d]⟩
  | shift {op : Opcode} {w : Width} {d : Operand} {n : Int} (hop : op ∈ [.sal, .sar, .shr])
      (hn : 0 ≤ n ∧ n < 256) (hd : F.Writes w d) : HasForm F targets ⟨op, w, [d, .imm n]⟩
  | shiftByRegister {op : Opcode} {w : Width} {d : Operand} (h : F.registers)
      (hop : op ∈ [.sal, .sar, .shr]) (hd : F.Writes w d) :
      HasForm F targets ⟨op, w, [d, .reg .rcx]⟩
  | compare {w : Width} {a b : Operand} (ha : F.Reads w a) (hb : F.Reads w b) :
      HasForm F targets ⟨.cmp, w, [a, b]⟩
  | compareDoubles {a b : Operand} (ha : F.Reads .double a) (hb : F.Reads .double b) :
      HasForm F targets ⟨.comisd, .double, [a, b]⟩
  | setByte {c : Condition} {d : Operand} (h : F.narrows) (hd : F.IsVariable .int d) :
      HasForm F targets ⟨.setcc c, .byte, [d]⟩
  | extend {op : Opcode} {v w : Width} {d s : Operand} (hop : op = .movsx v ∨ op = .movzx v)
      (hd : F.Writes w d) (hs : F.Reads v s) : HasForm F targets ⟨op, w, [d, s]⟩
  | toDouble {v : Width} {d s : Operand} (hd : F.Writes .double d) (hs : F.Reads v s) :
      HasForm F targets ⟨.cvtsi2sd v, .double, [d, s]⟩
  | toInteger {w : Width} {d s : Operand} (hd : F.Writes w d) (hs : F.Reads .double s) :
      HasForm F targets ⟨.cvttsd2si, w, [d, s]⟩
  /-- The upper half of a dividend is cleared. -/
  | clearUpper : HasForm F targets ⟨.xor, .long, [.reg .rdx, .reg .rdx]⟩
  /-- The upper half of a dividend gets the sign. -/
  | signUpper {w : Width} (h : F.registers) (hw : w ≠ .double) : HasForm F targets ⟨.cdq, w, []⟩
  | divide {op : Opcode} {w : Width} {s : Operand} (h : F.registers) (hop : op ∈ [.idiv, .div])
      (hw : w ≠ .double) (hs : F.Reads w s) : HasForm F targets ⟨op, w, [s]⟩
  | address {d s : Operand} (hd : F.Writes .quad d) (hs : F.addressable s) :
      HasForm F targets ⟨.lea, .quad, [d, s]⟩
  | jump {l : Label} (hl : targets l) : HasForm F targets ⟨.jmp, .quad, [.label l]⟩
  | branch {c : Condition} {l : Label} (hl : targets l) :
      HasForm F targets ⟨.jcc c, .quad, [.label l]⟩
  /-- Labels are needed for doubles only. -/
  | label {l : Label} (h : F.allows .double) : HasForm F targets (.label l)
  | ret : HasForm F targets (.bare .ret [])
  /-- Only what has eight bytes is pushed from memory. -/
  | push {w : Width} {s : Operand} (h : F.calls) (hs : F.Reads w s)
      (hsize : (∃ symbol, s = .data symbol) → w.size = 8) : HasForm F targets ⟨.push, .quad, [s]⟩
  | pushRegister (h : F.calls) : HasForm F targets ⟨.push, .quad, [.reg .rax]⟩
  | call {symbol : String} (h : F.calls) : HasForm F targets ⟨.call, .quad, [.callee symbol]⟩
  | moveStack {op : Opcode} {n : Nat} (hop : op ∈ [.add, .sub]) (h : F.calls) :
      HasForm F targets ⟨op, .quad, [.reg .rsp, .imm n]⟩

/-- Code whose instructions have these forms, and whose jumps stay within it. -/
def Forms.Code (F : Forms) (code : List Instr) : Prop :=
  ∀ ⦃targets : Label → Prop⦄, (∀ l, Instr.label l ∈ code → targets l) →
    ∀ i ∈ code, i.HasForm F targets

namespace Forms.Code

variable {F : Forms} {i : Instr} {code code' : List Instr}

theorem nil : F.Code [] := fun _ _ _ h => nomatch h

theorem cons (hi : ∀ {targets}, i.HasForm F targets) (h : F.Code code) : F.Code (i :: code) := by
  intro targets htargets
  exact forall_mem_cons.mpr ⟨hi, h fun l hl => htargets l (.tail _ hl)⟩

theorem append (h : F.Code code) (h' : F.Code code') : F.Code (code ++ code') := by
  intro targets htargets
  refine forall_mem_append.mpr ⟨h fun l hl => ?_, h' fun l hl => ?_⟩
  · exact htargets l (mem_append_left _ hl)
  · exact htargets l (mem_append_right _ hl)

theorem flatten {codes : List (List Instr)} (h : ∀ code ∈ codes, F.Code code) :
    F.Code codes.flatten := by
  induction codes with
  | nil => exact nil
  | cons code rest ih =>
    obtain ⟨hcode, hrest⟩ := forall_mem_cons.mp h
    exact hcode.append (ih hrest)

end Forms.Code

/-! ### Rules for operands -/

/-- What has to be known of operands, so that code has these forms. -/
structure FormRules (ctx : LoweringContext) extends Forms where
  /-- What is known of the state. -/
  state : LoweringState → Prop
  /-- The values and variables of the three-address code. -/
  accepts : Value → Prop
  allows_of_ne : ∀ {w}, w ≠ .double → allows w
  allows_of_accepts : ∀ {x}, accepts x → allows (.ofType x.type)
  allows_of_fits : ∀ {w o}, fits w o → allows w
  fits_of_has : ∀ {t o}, has t o → fits (.ofType t) o
  fits_of_size : ∀ {v w o}, fits v o → allows w → w.size = v.size → (w = .double → v = .double) →
    fits w o
  /-- No immediate is a double. -/
  fits_of_ne : ∀ {w o}, allows w → (∀ symbol, o ≠ .data symbol) → (w = .double → ∀ n, o ≠ .imm n) →
    fits w o
  has_of_ne : ∀ {t o}, allows (.ofType t) → (∀ symbol, o ≠ .data symbol) →
    (t = .double → ∀ n, o ≠ .imm n) → has t o
  has_variable : ∀ {v}, accepts (.var v) → has v.type (.data (ctx.platform.symbol v.name))
  intern : ∀ {st x n}, allows .double → state st →
    state { st with constants := (st.constants.intern x n).2 } ∧
      has .double (.data (st.constants.intern x n).1)
  state_drawn : ∀ {st w}, state st → state (st.drawn w)
  state_noted : ∀ {st v}, accepts (.var v) → v.name ∉ ctx.statics → state st →
    state (ctx.noted st v)
  state_labels : ∀ {st labels}, state st → state { st with labels := labels }
  state_arguments : ∀ {st known}, state st → state { st with callArguments := known }

section

variable {ctx : LoweringContext} {R : FormRules ctx} {w : Width} {t : ScalarType} {o : Operand}

namespace Forms

theorem Writes.allows (h : R.Writes w o) : R.allows w := R.allows_of_fits h.2

theorem Reads.allows (h : R.Reads w o) : R.allows w := R.allows_of_fits h.2

theorem IsVariable.writes (h : R.IsVariable t o) : R.Writes (.ofType t) o :=
  ⟨h.1, R.fits_of_has h.2⟩

theorem IsValue.reads (h : R.IsValue t o) : R.Reads (.ofType t) o := ⟨h.1, R.fits_of_has h.2⟩

end Forms

namespace FormRules

variable (R) {x : Value} {v : Variable}

theorem writes_pseudo (hw : R.allows w) (y : String) : R.Writes w (.pseudo y) :=
  ⟨rfl, R.fits_of_ne hw nofun fun _ => nofun⟩

theorem reads_imm (hw : w ≠ .double) (n : Int) : R.Reads w (.imm n) :=
  ⟨rfl, R.fits_of_ne (R.allows_of_ne hw) nofun fun h => absurd h hw⟩

theorem allows_double {r : Register} (ht : R.allows (.ofType t)) (hr : r.isSse = t.isDouble)
    (h : r.isSse = true) : R.allows .double := by
  rwa [(t.isDouble_iff).mp (hr ▸ h)] at ht

open Lower

theorem keeps_temporary (w : Width) :
    Keeps R.state (Lower.temporary w) fun o => ∃ y, o = .pseudo y := by
  rintro st o st' hst ⟨⟩
  exact ⟨R.state_drawn hst, _, rfl⟩

theorem keeps_noteArguments (symbol : String) (registers : List Register) :
    Keeps R.state (Lower.noteArguments symbol registers) fun _ => True := by
  rintro st o st' hst ⟨⟩
  exact ⟨R.state_arguments hst, trivial⟩

theorem keeps_freshLabel (name : String) : Keeps R.state (ctx.freshLabel name) fun _ => True :=
  ctx.keeps_freshLabel name R.state_labels

theorem isVariable (hv : R.accepts (.var v)) : R.IsVariable v.type (ctx.variableOperandOf v) := by
  rcases ctx.variableOperandOf_cases v with h | h <;> rw [h]
  · exact ⟨rfl, R.has_variable hv⟩
  · exact ⟨rfl, R.has_of_ne (R.allows_of_accepts hv) nofun fun _ => nofun⟩

theorem keeps_destination (hv : R.accepts (.var v)) :
    Keeps R.state (ctx.variableOperand v) (· = ctx.variableOperandOf v) :=
  ctx.keeps_variableOperand v fun h => R.state_noted hv h

theorem keeps_variable (hv : R.accepts (.var v)) :
    Keeps R.state (ctx.variableOperand v) (R.IsVariable v.type) :=
  (R.keeps_destination hv).mono fun _ h => h ▸ R.isVariable hv

theorem keeps_doubleConstant (h : R.allows .double) (c : Binary64) (n : Nat) :
    Keeps R.state (doubleConstant c n) (R.IsVariable .double) := by
  rintro st o st' hst ⟨⟩
  obtain ⟨hpool, hhas⟩ := R.intern h hst
  exact ⟨hpool, rfl, hhas⟩

theorem keeps_operand (hx : R.accepts x) : Keeps R.state (ctx.operand x) (R.IsValue x.type) := by
  cases x with
  | var v => exact (R.keeps_variable hx).mono fun _ h => h.isValue
  | const c =>
    have hallows := R.allows_of_accepts hx
    obtain ⟨t, bits⟩ := c
    cases t with
    | double => exact (R.keeps_doubleConstant hallows _ 8).mono fun _ h => h.isValue
    | _ => exact .pure ⟨rfl, R.has_of_ne hallows nofun nofun⟩

end FormRules

end

/-! ### Truth values -/

/-- The variable that an instruction sets to a truth value. -/
def truthValue? : ThreeAddress.Instr → Option Variable
  | .unary dst .not _ => some dst
  | .binary dst op _ _ => if op.isComparison then some dst else none
  | _ => none

theorem written?_of_truthValue? {i : ThreeAddress.Instr} {dst : Variable}
    (h : truthValue? i = some dst) : i.written? = some dst := by
  unfold truthValue? at h
  split at h
  · exact h
  · split at h
    · exact h
    · cases h
  · cases h

/-- How a truth value is computed: a comparison, a first value of the result, a label that is jumped
to if the first value is final, and the condition of the other value. -/
structure TruthTest where
  compare : Instr
  op_mem : compare.op ∈ [.cmp, .comisd]
  first : Int
  first_eq : first = 0 ∨ first = 1
  skip : Option Label
  cond : Condition

namespace TruthTest

variable (test : TruthTest) (d : Operand)

/-- The instructions that write all bytes of the result. -/
def writes : List Instr :=
  ⟨.mov, .long, [d, .imm test.first]⟩ :: test.skip.toList.map (⟨.jcc .p, .quad, [.label ·]⟩)

/-- The instruction that writes the lowest byte of the result. -/
def sets : Instr := ⟨.setcc test.cond, .byte, [d]⟩

/-- The instructions but for the one that writes the lowest byte only. -/
def others : List Instr := test.compare :: test.writes d ++ test.skip.toList.map .label

/-- All instructions. -/
def code : List Instr :=
  (test.compare :: test.writes d) ++ test.sets d :: test.skip.toList.map .label

variable {test d}

theorem mem_code {i : Instr} : i ∈ test.code d ↔ i = test.sets d ∨ i ∈ test.others d := by
  simp only [code, others, mem_append, mem_cons]
  tauto

end TruthTest

/-- The code of a truth value, with a comparison of these forms. -/
inductive IsTruth (F : Forms) (d : Operand) : List Instr → Prop
  | mk (test : TruthTest) (hcompare : ∀ targets, test.compare.HasForm F targets)
      (hskip : test.skip.isSome = true → F.allows .double) : IsTruth F d (test.code d)

theorem TruthTest.hasForm {test : TruthTest} {F : Forms} {d : Operand} {targets : Label → Prop}
    (hcompare : test.compare.HasForm F targets) (hskip : test.skip.isSome = true → F.allows .double)
    (hd : F.Writes .long d) (himm : F.Reads .long (.imm test.first))
    (htargets : ∀ l ∈ test.skip, targets l) : ∀ i ∈ test.others d, i.HasForm F targets := by
  obtain ⟨compare, _, first, _, skip, cond⟩ := test
  cases skip with
  | none => simpa [others, writes] using ⟨hcompare, .copy hd himm⟩
  | some l =>
    simpa [others, writes] using
      ⟨hcompare, .copy hd himm, .branch (htargets l rfl), .label (hskip rfl)⟩

namespace FormRules

open Lower

variable {ctx : LoweringContext} (R : FormRules ctx) {dst : Variable} {lhs rhs src x : Value}
  {d l r : Operand} {returns : Option ScalarType} {arity? : String → Option Nat}

theorem allows_long : R.allows .long := R.allows_of_ne nofun

theorem allows_quad : R.allows .quad := R.allows_of_ne nofun

variable {R}

theorem code_truth {code : List Instr} (hnarrows : R.narrows) (hd : R.IsVariable .int d)
    (h : IsTruth R.toForms d code) : R.Code code := by
  obtain ⟨test, hcompare, hskip⟩ := h
  intro targets htargets i hi
  rcases TruthTest.mem_code.mp hi with rfl | hi
  · exact .setByte hnarrows hd
  · refine TruthTest.hasForm (hcompare targets) hskip hd.writes
      (R.reads_imm (w := .long) nofun _) (fun l hl => htargets l ?_) i hi
    simp [TruthTest.code, Option.mem_def.mp hl]

theorem keeps_doubleEquality {equal : Bool} (hl : R.Reads .double l) (hr : R.Reads .double r) :
    Keeps R.state (ctx.doubleEquality d l r equal) (IsTruth R.toForms d) := by
  refine .bind (R.keeps_freshLabel "nan") fun done _ => .pure (.mk
    ⟨_, by simp, _, ?_, some done, _⟩ (fun _ => .compareDoubles hl hr) fun _ => hl.allows)
  cases equal with
  | true => exact .inl rfl
  | false => exact .inr rfl

theorem keeps_doubleComparison (hl : R.Reads .double l) (hr : R.Reads .double r) :
    Keeps R.state (ctx.doubleComparison op d l r) (IsTruth R.toForms d) := by
  have hordered {a b : Operand} (ha : R.Reads .double a) (hb : R.Reads .double b)
      (cond : Condition) :
      IsTruth R.toForms d (⟨.comisd, .double, [a, b]⟩ :: setByFlags d cond) :=
    .mk ⟨_, by simp, 0, .inl rfl, none, cond⟩ (fun _ => .compareDoubles ha hb) nofun
  unfold doubleComparison
  split
  · exact keeps_doubleEquality hl hr
  · exact .pure (hordered hr hl .a)
  · exact .pure (hordered hr hl .ae)
  · exact .pure (hordered hl hr .a)
  · exact .pure (hordered hl hr .ae)
  · exact keeps_doubleEquality hl hr

theorem keeps_not (hdst : R.accepts (.var dst)) (hsrc : R.accepts src) :
    Keeps R.state (ctx.unary dst .not src) (IsTruth R.toForms (ctx.variableOperandOf dst)) := by
  refine .bind (R.keeps_destination hdst) ?_
  rintro _ rfl
  refine .bind (R.keeps_operand hsrc) fun a ha => .ite (fun hdouble => ?_) fun hinteger => .pure ?_
  · rw [(src.type.isDouble_iff).mp hdouble] at ha
    exact .bind (R.keeps_doubleConstant ha.reads.allows _ _) fun zero hzero =>
      keeps_doubleEquality ha.reads hzero.isValue.reads
  · exact .mk ⟨_, by simp, 0, .inl rfl, none, _⟩ (fun _ => .compare ha.reads
      (R.reads_imm (fun h => hinteger (ofType_eq_double h)) 0)) nofun

theorem keeps_comparison (op : BinaryOp) (hdst : R.accepts (.var dst)) (hlhs : R.accepts lhs)
    (hrhs : R.accepts rhs) (hr : rhs.type = lhs.type) :
    Keeps R.state (ctx.comparison dst op lhs rhs)
      (IsTruth R.toForms (ctx.variableOperandOf dst)) := by
  refine .bind (R.keeps_destination hdst) ?_
  rintro _ rfl
  refine .bind (R.keeps_operand hlhs) fun a ha => .bind (R.keeps_operand hrhs) fun b hb => ?_
  rw [hr] at hb
  refine .ite (fun hdouble => ?_) fun _ => .pure ?_
  · rw [(lhs.type.isDouble_iff).mp hdouble] at ha hb
    exact keeps_doubleComparison ha.reads hb.reads
  · exact .mk ⟨_, by simp, 0, .inl rfl, none, _⟩ (fun _ => .compare ha.reads hb.reads) nofun

theorem keeps_truth {i : ThreeAddress.Instr} (hi : truthValue? i = some dst)
    (hdst : R.accepts (.var dst)) (hreads : ∀ x ∈ i.reads, R.accepts x)
    (htype : i.typeDefect? returns arity? = none) :
    Keeps R.state (ctx.instr i) (IsTruth R.toForms (ctx.variableOperandOf dst)) ∧
      dst.type = .int := by
  unfold truthValue? at hi
  split at hi
  · cases hi
    exact ⟨keeps_not hdst (hreads _ (.head _)), type_of_typeDefect? htype⟩
  · rename_i op lhs rhs
    split at hi
    · rename_i hop
      cases hi
      obtain ⟨hright, hresult⟩ := types_of_binaryDefect? htype
      have hshift : ¬op.isShift = true := by
        cases op <;> simp_all [BinaryOp.isShift, BinaryOp.isComparison]
      have hcode := keeps_comparison op hdst (hreads lhs (.head _))
        (hreads rhs (.tail _ (.head _))) (hright.resolve_left hshift)
      refine ⟨?_, hresult.trans (if_pos hop)⟩
      cases op <;> first | exact hcode | cases hop
    · cases hi
  · cases hi

/-! ### Operators -/

theorem keeps_unary {op : UnaryOp} (hop : op ≠ .not) (hdst : R.accepts (.var dst))
    (hsrc : R.accepts src) (htype : dst.type = if op = .not then .int else src.type) :
    Keeps R.state (ctx.unary dst op src) R.Code := by
  refine .bind (R.keeps_variable hdst) fun d hd => .bind (R.keeps_operand hsrc) fun a ha => ?_
  rw [htype, if_neg hop] at hd
  cases op with
  | not => exact absurd rfl hop
  | negate =>
    refine .ite (fun hdouble => ?_) fun _ => .pure ?_
    · rw [(src.type.isDouble_iff).mp hdouble] at hd ha ⊢
      refine .bind (R.keeps_doubleConstant ha.reads.allows _ _) fun zero hzero => .pure ?_
      exact .cons (.copy hd.writes ha.reads)
        (.cons (.combine (.inl (by decide)) hd.writes hzero.isValue.reads) .nil)
    · exact .cons (.copy hd.writes ha.reads)
        (.cons (.modify (by decide) hd.writes) .nil)
  | complement =>
    exact .pure (.cons (.copy hd.writes ha.reads)
      (.cons (.modify (by decide) hd.writes) .nil))

theorem keeps_twoOperand {op : Opcode}
    (hop : op ∈ [.add, .sub, .imul, .and, .or, .xor] ∨ op = .div ∧ lhs.type.isDouble = true)
    (hdst : R.accepts (.var dst)) (hlhs : R.accepts lhs) (hrhs : R.accepts rhs)
    (hd : dst.type = lhs.type) (hr : rhs.type = lhs.type) :
    Keeps R.state (ctx.twoOperand dst op lhs rhs) R.Code := by
  have hop : op ∈ [.add, .sub, .imul, .and, .or, .xor] ∨ op = .div ∧ ofType lhs.type = .double := by
    refine hop.imp id fun ⟨hdiv, h⟩ => ⟨hdiv, ?_⟩
    rw [(lhs.type.isDouble_iff).mp h]
    rfl
  refine .bind (R.keeps_variable hdst) fun d hd' => .bind (R.keeps_operand hlhs) fun a ha => ?_
  refine .bind (R.keeps_operand hrhs) fun b hb => ?_
  rw [hd] at hd'
  rw [hr] at hb
  -- The result is built in the destination or in a temporary.
  have hdone (t : Operand) (ht : R.Writes (.ofType lhs.type) t) : R.Code
      ([⟨.mov, .ofType lhs.type, [t, a]⟩, ⟨op, .ofType lhs.type, [t, b]⟩] ++
        if t = d then [] else [⟨.mov, .ofType lhs.type, [d, t]⟩]) := by
    refine .append (.cons (.copy ht ha.reads)
      (.cons (.combine hop ht hb.reads) .nil)) ?_
    split
    · exact .nil
    · exact .cons (.copy hd'.writes ht.reads) .nil
  refine .ite (fun _ => ?_) fun _ => ?_
  · refine .bind (R.keeps_temporary _) ?_
    rintro _ ⟨y, rfl⟩
    exact .pure (hdone _ (R.writes_pseudo ha.reads.allows y))
  · exact .bind (.pure hd'.writes) fun t ht =>
      .pure (hdone t ht)

theorem keeps_widenByte (hx : R.accepts x) (hbyte : Width.ofType x.type = .byte) :
    Keeps R.state (ctx.widenByte x) fun y => R.Reads .long y.1 ∧ R.Code y.2 := by
  cases x with
  | const c => exact .pure ⟨R.reads_imm (w := .long) nofun _, .nil⟩
  | var v =>
    refine .bind (R.keeps_temporary .long) ?_
    rintro _ ⟨wide, rfl⟩
    have hwide := R.writes_pseudo R.allows_long wide
    refine .bind (R.keeps_variable hx) fun a ha => .pure ⟨hwide.reads, ?_⟩
    have ha := ha.isValue.reads
    rw [show ofType v.type = .byte from hbyte] at ha
    refine .cons (.extend ?_ hwide ha) .nil
    cases v.type.isSigned <;> simp

theorem keeps_byteProduct (hdst : R.accepts (.var dst)) (hlhs : R.accepts lhs)
    (hrhs : R.accepts rhs) (hd : dst.type = lhs.type) (hr : rhs.type = lhs.type)
    (hbyte : Width.ofType lhs.type = .byte) :
    Keeps R.state (ctx.byteProduct dst lhs rhs) R.Code := by
  refine .bind (keeps_widenByte hlhs hbyte) fun a ⟨ha, hwidenL⟩ => ?_
  refine .bind (keeps_widenByte hrhs (hr ▸ hbyte)) fun b ⟨hb, hwidenR⟩ => ?_
  refine .bind (R.keeps_temporary _) ?_
  rintro _ ⟨product, rfl⟩
  have hproduct := R.writes_pseudo R.allows_long product
  refine .bind (R.keeps_variable hdst) fun d hd' => .pure ?_
  have hd' := hd'.writes
  rw [hd, hbyte] at hd'
  exact (hwidenL.append hwidenR).append (.cons (.copy hproduct ha)
    (.cons (.combine (.inl (by decide)) hproduct hb)
      (.cons (.copy hd' (R.writes_pseudo hd'.allows product).reads) .nil)))

theorem keeps_divisionOperand {isByte : Bool} (hx : R.accepts x)
    (hbyte : isByte = true → Width.ofType x.type = .byte) :
    Keeps R.state (ctx.divisionOperand isByte x) fun y =>
      R.Reads (if isByte then .long else .ofType x.type) y.1 ∧ R.Code y.2 := by
  refine .ite (fun h => ?_) fun h => ?_
  · rw [if_pos h]
    exact keeps_widenByte hx (hbyte h)
  · rw [if_neg h]
    exact .bind (R.keeps_operand hx) fun a ha => .pure ⟨ha.reads, .nil⟩

/-! ### Conversions -/

theorem keeps_uintToDouble (hd : R.Writes .double d) (hsrc : R.accepts src)
    (hinteger : src.type.isInteger = true) : Keeps R.state (ctx.uintToDouble d src) R.Code := by
  unfold uintToDouble
  split
  · rename_i hbyte
    refine .bind (keeps_widenByte hsrc hbyte) fun a ⟨ha, hwiden⟩ => .pure ?_
    exact hwiden.append (.cons (.toDouble hd ha) .nil)
  · rename_i hlong
    cases src with
    | const c =>
      exact .pure (.cons (.toDouble hd (R.reads_imm (w := .quad) nofun _)) .nil)
    | var v =>
      refine .bind (R.keeps_temporary _) ?_
      rintro _ ⟨wide, rfl⟩
      have hwide := R.writes_pseudo R.allows_quad wide
      refine .bind (R.keeps_variable hsrc) fun a ha => .pure ?_
      have ha := ha.isValue.reads
      rw [show ofType v.type = .long from hlong] at ha
      exact .cons (.extend (.inr rfl) hwide ha)
        (.cons (.toDouble hd hwide.reads) .nil)
  · have hquad : ofType src.type = .quad := by
      cases ht : src.type <;> simp_all [ofType, ScalarType.isInteger]
    refine .bind (R.keeps_operand hsrc) fun a ha => ?_
    refine .bind (R.keeps_freshLabel _) fun big _ => ?_
    refine .bind (R.keeps_freshLabel _) fun done _ => .bind (R.keeps_temporary _) ?_
    rintro _ ⟨halved, rfl⟩
    refine .bind (R.keeps_temporary _) ?_
    rintro _ ⟨lowBit, rfl⟩
    refine .pure fun targets htargets => ?_
    have ha := ha.reads
    rw [hquad] at ha
    have hhalved := R.writes_pseudo R.allows_quad halved
    have hlow := R.writes_pseudo R.allows_quad lowBit
    have himm (n : Int) := R.reads_imm (w := .quad) nofun n
    have hbig : targets big := htargets big (by simp)
    have hdone : targets done := htargets done (by simp)
    simp only [forall_mem_cons]
    exact ⟨.compare ha (himm 0), .branch hbig, .toDouble hd ha, .jump hdone,
      .label hd.allows, .copy hlow ha, .copy hhalved hlow.reads,
        .shift (by decide) (by decide) hhalved,
      .combine (.inl (by decide)) hlow (himm 1),
      .combine (.inl (by decide)) hhalved hlow.reads, .toDouble hd hhalved.reads,
      .combine (.inl (by decide)) hd hd.reads, .label hd.allows, fun _ h => nomatch h⟩

theorem keeps_doubleToUInt {w : Width} (hd : R.Writes w d) (hsrc : R.accepts src)
    (hdouble : src.type = .double) (hw : w ≠ .double) :
    Keeps R.state (ctx.doubleToUInt d w src) R.Code := by
  refine .bind (R.keeps_operand hsrc) fun a ha => ?_
  rw [hdouble] at ha
  have ha : R.Reads .double a := ha.reads
  have hwider (wider : Width) (hwider : wider ≠ .double) : Keeps R.state (do
      let wide ← temporary wider
      return [⟨.cvttsd2si, wider, [wide, a]⟩, ⟨.mov, w, [d, wide]⟩]) R.Code := by
    refine .bind (R.keeps_temporary _) ?_
    rintro _ ⟨wide, rfl⟩
    exact .pure (.cons (.toInteger (R.writes_pseudo (R.allows_of_ne hwider) wide) ha)
      (.cons (.copy hd (R.writes_pseudo hd.allows wide).reads) .nil))
  cases w with
  | byte => exact hwider .long nofun
  | long => exact hwider .quad nofun
  | quad =>
    refine .bind (R.keeps_doubleConstant ha.allows _ _) fun limit hlimit => ?_
    have hlimit : R.Reads .double limit := hlimit.isValue.reads
    refine .bind (R.keeps_freshLabel _) fun big _ => ?_
    refine .bind (R.keeps_freshLabel _) fun done _ => .bind (R.keeps_temporary _) ?_
    rintro _ ⟨offset, rfl⟩
    refine .pure fun targets htargets => ?_
    have hoffset := R.writes_pseudo ha.allows offset
    have hbig : targets big := htargets big (by simp)
    have hdone : targets done := htargets done (by simp)
    simp only [forall_mem_cons]
    exact ⟨.compareDoubles ha hlimit, .branch hbig, .toInteger hd ha, .jump hdone,
      .label ha.allows, .copy hoffset ha, .combine (.inl (by decide)) hoffset hlimit,
      .toInteger hd hoffset.reads,
      .combine (.inl (by decide)) hd (R.reads_imm (w := .quad) nofun _), .label ha.allows,
      fun _ h => nomatch h⟩
  | double => exact absurd rfl hw

theorem keeps_convert {conversion : Conversion}
    (hnarrows : conversion = .truncate → (∃ v, src = .var v) → R.narrows)
    (hvalid : conversion.isValid src.type dst.type = true) (hdst : R.accepts (.var dst))
    (hsrc : R.accepts src) : Keeps R.state (ctx.convert dst conversion src) R.Code := by
  refine .bind (R.keeps_variable hdst) fun d hd => ?_
  cases conversion with
  | signExtend =>
    exact .bind (R.keeps_operand hsrc) fun a ha =>
      .pure (.cons (.extend (.inl rfl) hd.writes ha.reads) .nil)
  | zeroExtend =>
    exact .bind (R.keeps_operand hsrc) fun a ha =>
      .pure (.cons (.extend (.inr rfl) hd.writes ha.reads) .nil)
  | truncate =>
    simp only [Conversion.isValid, Bool.and_eq_true, Bool.not_eq_true', decide_eq_true_eq] at hvalid
    obtain ⟨⟨hsource, hresult⟩, hsize⟩ := hvalid
    cases src with
    | const c =>
      have hw : ofType dst.type ≠ .double := fun h => by
        rw [ofType_eq_double h] at hresult
        cases hresult
      exact .bind (.pure (R.reads_imm hw _))
        fun a ha => .pure (.cons (.copy hd.writes ha) .nil)
    | var v =>
      refine .bind (R.keeps_variable hsrc) fun a ha =>
        .pure (.cons (.truncate (hnarrows rfl ⟨v, rfl⟩) hd.writes ha.isValue hsource ?_)
          .nil)
      rwa [size_ofType]
  | intToDouble =>
    obtain ⟨-, hdouble⟩ := Bool.and_eq_true_iff.mp hvalid
    rw [(dst.type.isDouble_iff).mp hdouble] at hd
    have hd : R.Writes .double d := hd.writes
    refine .ite (fun hbyte => ?_) fun _ => ?_
    · refine .bind (keeps_widenByte hsrc hbyte) fun a ⟨ha, hwiden⟩ => .pure ?_
      exact hwiden.append (.cons (.toDouble hd ha) .nil)
    · exact .bind (R.keeps_operand hsrc) fun a ha =>
        .pure (.cons (.toDouble hd ha.reads) .nil)
  | uintToDouble =>
    obtain ⟨hinteger, hdouble⟩ := Bool.and_eq_true_iff.mp hvalid
    rw [(dst.type.isDouble_iff).mp hdouble] at hd
    exact keeps_uintToDouble hd.writes hsrc hinteger
  | doubleToInt =>
    obtain ⟨hdouble, -⟩ := Bool.and_eq_true_iff.mp hvalid
    refine .bind (R.keeps_operand hsrc) fun a ha => ?_
    rw [(src.type.isDouble_iff).mp hdouble] at ha
    have ha : R.Reads .double a := ha.reads
    refine .ite (fun hbyte => .bind (R.keeps_temporary _) ?_) fun _ => .pure ?_
    · rintro _ ⟨wide, rfl⟩
      have hd := hd.writes
      rw [hbyte] at hd
      exact .pure (.cons (.toInteger (R.writes_pseudo R.allows_long wide) ha)
        (.cons (.copy hd (R.writes_pseudo hd.allows wide).reads) .nil))
    · exact .cons (.toInteger hd.writes ha) .nil
  | doubleToUInt =>
    obtain ⟨hdouble, hinteger⟩ := Bool.and_eq_true_iff.mp hvalid
    refine keeps_doubleToUInt hd.writes hsrc ((src.type.isDouble_iff).mp hdouble) fun hw => ?_
    rw [(dst.type.isDouble_iff).mp (ofType_eq_double hw)] at hinteger
    cases hinteger

/-- The code of an operator that is no comparison has a property if it follows from the rules, and
if the code of divisions and shifts has it. -/
theorem keeps_binary_of {Q : List Instr → Prop} (hQ : ∀ code, R.Code code → Q code)
    (hop : op.isComparison = false) (hdst : R.accepts (.var dst)) (hlhs : R.accepts lhs)
    (hrhs : R.accepts rhs) (htype : binaryDefect? dst.type op lhs.type rhs.type = none)
    (hdivision : ∀ {result : Register}, result ∈ [.rax, .rdx] → lhs.type.isDouble = false →
      dst.type = lhs.type → rhs.type = lhs.type → Keeps R.state (ctx.division dst result lhs rhs) Q)
    (hshift : ∀ {isLeft : Bool}, dst.type = lhs.type →
      Keeps R.state (ctx.shift dst isLeft lhs rhs) Q) :
    Keeps R.state (ctx.binary dst op lhs rhs) Q := by
  obtain ⟨hright, hresult⟩ := types_of_binaryDefect? htype
  have hcombine {code : Opcode}
      (hcode : code ∈ [.add, .sub, .imul, .and, .or, .xor] ∨ code = .div ∧ lhs.type.isDouble = true)
      (hshift : op.isShift = false) :=
    (keeps_twoOperand hcode hdst hlhs hrhs (by simpa [hop] using hresult)
      (hright.resolve_left (by simp [hshift]))).mono hQ
  cases op with
  | add | subtract | bitAnd | bitOr | bitXor => exact hcombine (.inl (by decide)) rfl
  | multiply =>
    refine .ite (fun hbyte => ?_) fun _ => hcombine (.inl (by decide)) rfl
    exact (keeps_byteProduct hdst hlhs hrhs hresult (hright.resolve_left nofun) hbyte).mono hQ
  | divide =>
    refine .ite (fun h => hcombine (.inr ⟨rfl, h⟩) rfl) fun h => ?_
    exact hdivision (by decide) (by simpa using h) hresult (hright.resolve_left nofun)
  | remainder =>
    refine .ite (fun _ => .throw) fun h => ?_
    exact hdivision (by decide) (by simpa using h) hresult (hright.resolve_left nofun)
  | shiftLeft | shiftRight => exact hshift hresult
  | _ => cases hop

/-! ### Control flow -/

theorem keeps_ret {value : Option Value} (hvalue : ∀ x ∈ value, R.accepts x) :
    Keeps R.state (ctx.ret value) R.Code := by
  cases value with
  | none => exact .pure (.cons .ret .nil)
  | some x =>
    obtain ⟨hnamed, hsse⟩ := resultRegister_spec x.type
    exact .bind (R.keeps_operand (hvalue x rfl)) fun a ha => .pure
      (.cons (.toRegister hnamed (R.allows_double ha.reads.allows hsse) ha.reads)
        (.cons .ret .nil))

theorem keeps_conditionalJump {target : Label} {ifZero : Bool} (hx : R.accepts x) :
    Keeps R.state (ctx.conditionalJump x target ifZero) fun code => ∀ ⦃targets : Label → Prop⦄,
      (∀ l, Instr.label l ∈ code → targets l) → targets (ctx.qualified target) →
        ∀ i ∈ code, i.HasForm R.toForms targets := by
  refine .bind (R.keeps_operand hx) fun a ha => .ite (fun hdouble => ?_) fun hinteger => .pure ?_
  · rw [(x.type.isDouble_iff).mp hdouble] at ha
    have ha : R.Reads .double a := ha.reads
    refine .bind (R.keeps_doubleConstant ha.allows _ _) fun zero hzero => ?_
    have hzero : R.Reads .double zero := hzero.isValue.reads
    refine .ite (fun _ => ?_) fun _ => .pure ?_
    · refine .bind (R.keeps_freshLabel _) fun ordered _ => .pure fun targets htargets hl => ?_
      simp only [forall_mem_cons]
      exact ⟨.compareDoubles ha hzero, .branch (htargets ordered (by simp)), .branch hl,
        .label ha.allows, fun _ h => nomatch h⟩
    · intro targets htargets hl
      simp only [forall_mem_cons]
      exact ⟨.compareDoubles ha hzero, .branch hl, .branch hl, fun _ h => nomatch h⟩
  · intro targets htargets hl
    simp only [forall_mem_cons]
    exact ⟨.compare ha.reads (R.reads_imm (fun h => hinteger (ofType_eq_double h)) 0),
      .branch hl, fun _ h => nomatch h⟩

end FormRules

theorem ArgumentPlace.mem_of_mem_assign {integers doubles : List Register} {k : Nat}
    {types : List ScalarType} {t : ScalarType} {r : Register}
    (h : (t, reg r) ∈ types.zip (assign integers doubles k types)) :
    r ∈ if t.isDouble then doubles else integers := by
  fun_induction assign integers doubles k types with
  | case1 => simp at h
  | case2 integers k t' rest ht r' doubles ih =>
    rcases mem_cons.mp h with h | h
    · cases h
      simp [ht]
    · have hr := ih h
      split at hr <;> simp_all
  | case3 integers k t' rest ht ih | case5 doubles k t' rest ht ih =>
    rcases mem_cons.mp h with h | h
    · cases h
    · exact ih h
  | case4 doubles k t' rest ht r' integers ih =>
    rcases mem_cons.mp h with h | h
    · cases h
      simp [ht]
    · have hr := ih h
      split at hr <;> simp_all

theorem ArgumentPlace.register_of_mem_zip {α : Type} {f : α → ScalarType} {xs : List α} {x : α}
    {r : Register} (h : (x, reg r) ∈ xs.zip (ofTypes (xs.map f))) :
    r ∈ namedRegisters ∧ r.isSse = (f x).isDouble := by
  have hzip : (f x, reg r) ∈ (xs.map f).zip (ofTypes (xs.map f)) := by
    rw [zip_map_left]
    exact mem_map.mpr ⟨_, h, rfl⟩
  have hmem := mem_of_mem_assign hzip
  have hintegers : ∀ r ∈ integerRegisters, r ∈ namedRegisters ∧ r.isSse = false := by decide
  have hdoubles : ∀ r ∈ doubleRegisters, r ∈ namedRegisters ∧ r.isSse = true := by decide
  cases ht : (f x).isDouble with
  | true => exact hdoubles r (by simpa [ht] using hmem)
  | false => exact hintegers r (by simpa [ht] using hmem)

/-! ### Shifts and calls -/

def shiftOpcode (isLeft signed : Bool) : Opcode :=
  if isLeft then .sal else if signed then .sar else .shr

theorem shiftOpcode_mem (isLeft signed : Bool) :
    shiftOpcode isLeft signed ∈ [.sal, .sar, .shr] := by
  revert isLeft signed
  decide

namespace LoweringContext

variable {ctx : LoweringContext}

/-- The count of a shift, with the instruction that loads it. -/
def shiftAmount (ctx : LoweringContext) : Value → Lower (Operand × List Instr)
  | .const c => return (.imm (wordOf c % 256), [])
  | .var v => do
    let r ← ctx.variableOperand v
    return (.reg .rcx, [⟨.mov, .ofType v.type, [.reg .rcx, r]⟩])

theorem shift_eq (dst : Variable) (isLeft : Bool) (lhs rhs : Value) :
    ctx.shift dst isLeft lhs rhs = do
      let (amount, load) ← ctx.shiftAmount rhs
      let d ← ctx.variableOperand dst
      let l ← ctx.operand lhs
      return load ++ [⟨.mov, .ofType lhs.type, [d, l]⟩,
        ⟨shiftOpcode isLeft lhs.type.isSigned, .ofType lhs.type, [d, amount]⟩] := by
  cases rhs with
  | const c => rfl
  | var v =>
    rw [shiftAmount, bind_assoc]
    rfl

end LoweringContext

section

variable {α : Type} {xs : List α} {x : α} {r : Register} {places : List ArgumentPlace}

def onStack (xs : List α) (places : List ArgumentPlace) : List α :=
  (xs.zip places).filterMap fun (x, place) =>
    match place with
    | .stack _ => some x
    | .reg _ => none

def inRegisters (xs : List α) (places : List ArgumentPlace) : List (α × Register) :=
  (xs.zip places).filterMap fun (x, place) => place.reg?.map (x, ·)

theorem mem_of_mem_onStack (h : x ∈ onStack xs places) : x ∈ xs := by
  obtain ⟨⟨y, place⟩, hmem, hy⟩ := mem_filterMap.mp h
  cases place with
  | reg r => cases hy
  | stack n =>
    cases hy
    exact (of_mem_zip hmem).1

theorem mem_zip_of_mem_inRegisters (h : (x, r) ∈ inRegisters xs places) :
    (x, .reg r) ∈ xs.zip places := by
  obtain ⟨⟨y, place⟩, hmem, hy⟩ := mem_filterMap.mp h
  cases place with
  | stack n => cases hy
  | reg q =>
    cases hy
    exact hmem

end

/-- The gap that keeps the stack aligned if some words are pushed, in bytes. -/
def padding (n : Nat) : Nat := if n % 2 = 1 then 8 else 0

theorem padding_eq (n : Nat) : padding n = 8 * (n % 2) := by
  unfold padding
  split <;> omega

/-- The code that makes a gap above some words on the stack. -/
def gapCode (n : Nat) : List Instr :=
  if padding n = 0 then [] else [⟨.sub, .quad, [.reg .rsp, .imm (padding n)]⟩]

/-- The code that removes some words and the gap from the stack. -/
def releaseCode (n : Nat) : List Instr :=
  if 8 * n + padding n = 0 then []
  else [⟨.add, .quad, [.reg .rsp, .imm (8 * n + padding n : Nat)]⟩]

section

variable {F : Forms} {code : List Instr}

/-- The forms of code that pushes a value. -/
inductive IsPush (F : Forms) : List Instr → Prop
  | direct {w : Width} {s : Operand} (hs : F.Reads w s)
      (hsize : (∃ symbol, s = .data symbol) → w.size = 8) : IsPush F [⟨.push, .quad, [s]⟩]
  | throughRegister {w : Width} {s : Operand} (hs : F.Reads w s) :
      IsPush F [⟨.mov, w, [.reg .rax, s]⟩, ⟨.push, .quad, [.reg .rax]⟩]

/-- The form of an instruction that moves an argument into its register. -/
def IsMove (F : Forms) (i : Instr) : Prop :=
  ∃ w r s, i = ⟨.mov, w, [.reg r, s]⟩ ∧ r ∈ namedRegisters ∧ (r.isSse = true → F.allows .double) ∧
    F.Reads w s

/-- The form of the code of a call: a gap and arguments on the stack, arguments in registers, the
call, and what brings the stack pointer back and assigns the result. -/
inductive IsCall (F : Forms) : List Instr → Prop
  | mk {n : Nat} {pushes : List (List Instr)} {moves result : List Instr} {symbol : String}
      (hlength : n = pushes.length) (hpushes : ∀ code ∈ pushes, IsPush F code)
      (hmoves : ∀ i ∈ moves, IsMove F i)
      (hresult : ∀ i ∈ result, ∃ w d r, i = ⟨.mov, w, [d, .reg r]⟩ ∧ F.Writes w d ∧
        r ∈ namedRegisters ∧ (r.isSse = true → F.allows .double)) :
      IsCall F (gapCode n ++ pushes.flatten ++ moves ++ [⟨.call, .quad, [.callee symbol]⟩] ++
        releaseCode n ++ result)

theorem IsPush.obeys (h : IsPush F code) (hcalls : F.calls) : F.Code code := by
  cases h with
  | direct hs hsize => exact .cons (.push hcalls hs hsize) .nil
  | throughRegister hs =>
    exact .cons (.toRegister (by decide) nofun hs)
      (.cons (.pushRegister hcalls) .nil)

theorem IsCall.obeys (h : IsCall F code) (hregisters : F.registers) (hcalls : F.calls) :
    F.Code code := by
  obtain ⟨-, hpushes, hmoves, hresult⟩ := h
  have hstack {c : Prop} [Decidable c] {op : Opcode} {n : Nat} (hop : op ∈ [.add, .sub]) :
      F.Code (if c then [] else [⟨op, .quad, [.reg .rsp, .imm n]⟩]) := by
    split
    · exact .nil
    · exact .cons (.moveStack hop hcalls) .nil
  refine (((((hstack (by decide)).append ?_).append ?_).append ?_).append
    (hstack (by decide))).append ?_
  · exact .flatten fun code hcode => (hpushes code hcode).obeys hcalls
  · intro targets _ i hi
    obtain ⟨w, r, s, rfl, hnamed, hr, hs⟩ := hmoves i hi
    exact .toRegister hnamed hr hs
  · exact .cons (.call hcalls) .nil
  · intro targets _ i hi
    obtain ⟨w, d, r, rfl, hd, hnamed, hr⟩ := hresult i hi
    exact .ofRegister hregisters hd hnamed hr

end

namespace FormRules

open Lower

variable {ctx : LoweringContext} {R : FormRules ctx} {dst : Variable} {lhs rhs : Value}

section

variable (hregisters : R.registers) (hdst : R.accepts (.var dst)) (hlhs : R.accepts lhs)
  (hrhs : R.accepts rhs)

include hregisters hdst hlhs hrhs

theorem keeps_division {result : Register} (hresult : result ∈ [.rax, .rdx])
    (hl : lhs.type.isDouble = false) (hr : rhs.type = lhs.type) :
    Keeps R.state (ctx.division dst result lhs rhs) R.Code := by
  have hbyte (h : (ofType lhs.type == .byte) = true) : ofType lhs.type = .byte :=
    eq_of_beq h
  have hw : (if ofType lhs.type == .byte then .long else ofType lhs.type) ≠ .double := by
    split
    · decide
    · intro h
      rw [ofType_eq_double h] at hl
      cases hl
  refine .bind (keeps_divisionOperand hlhs hbyte) fun a ⟨ha, hwidenL⟩ => ?_
  refine .bind (keeps_divisionOperand hrhs (hr ▸ hbyte)) fun b ⟨hb, hwidenR⟩ => ?_
  rw [hr] at hb
  refine .bind (R.keeps_variable hdst) fun d hd => .pure ?_
  have hregister : result ∈ namedRegisters ∧ result.isSse = false := by
    revert hresult result
    decide
  refine (((hwidenL.append hwidenR).append (.cons ?_ .nil)).append ?_).append
    (.cons (.ofRegister hregisters hd.writes hregister.1 ?_) .nil)
  · exact .toRegister (by decide) nofun ha
  · split
    · exact .cons (.signUpper hregisters hw)
        (.cons (.divide hregisters (by decide) hw hb) .nil)
    · exact .cons .clearUpper
        (.cons (.divide hregisters (by decide) hw hb) .nil)
  · rw [hregister.2]
    exact nofun

theorem keeps_shift {isLeft : Bool} (hd : dst.type = lhs.type) :
    Keeps R.state (ctx.shift dst isLeft lhs rhs) R.Code := by
  have hamount : Keeps R.state (ctx.shiftAmount rhs) fun amount => R.Code amount.2 ∧
      ∀ {targets op w d}, op ∈ [.sal, .sar, .shr] → R.Writes w d →
        Instr.HasForm R.toForms targets ⟨op, w, [d, amount.1]⟩ := by
    cases rhs with
    | const c => exact .pure ⟨.nil, fun hop => .shift hop (wordOf_emod c)⟩
    | var v =>
      refine .bind (R.keeps_variable hrhs) fun a ha => .pure ⟨?_, .shiftByRegister hregisters⟩
      exact .cons (.toRegister (by decide) nofun ha.isValue.reads) .nil
  rw [shift_eq]
  refine .bind hamount fun amount ⟨hload, hshift⟩ => .bind (R.keeps_variable hdst) fun d hd' =>
    .bind (R.keeps_operand hlhs) fun a ha => .pure ?_
  rw [hd] at hd'
  exact hload.append (.cons (.copy hd'.writes ha.reads)
    (.cons (hshift (shiftOpcode_mem ..) hd'.writes) .nil))

theorem keeps_binary (hop : op.isComparison = false)
    (htype : binaryDefect? dst.type op lhs.type rhs.type = none) :
    Keeps R.state (ctx.binary dst op lhs rhs) R.Code :=
  keeps_binary_of (fun _ h => h) hop hdst hlhs hrhs htype
    (fun hresult hl _ hr => keeps_division hregisters hdst hlhs hrhs hresult hl hr)
    fun hd => keeps_shift hregisters hdst hlhs hrhs hd

end

theorem keeps_push {x : Value} (hx : R.accepts x) :
    Keeps R.state (ctx.push x) (IsPush R.toForms) := by
  refine .bind (R.keeps_operand hx) fun s hs =>
    .ite (fun hdirect => .pure (.direct hs.reads ?_)) fun _ => .pure (.throughRegister hs.reads)
  rintro ⟨symbol, rfl⟩
  exact eq_of_beq hdirect

theorem keeps_call {dst : Option Variable} {callee : String} {args : List Value}
    (hdst : ∀ v ∈ dst, R.accepts (.var v)) (hargs : ∀ x ∈ args, R.accepts x) :
    Keeps R.state (ctx.call dst callee args) (IsCall R.toForms) := by
  have hpush : ∀ x ∈ (onStack args (ofTypes (args.map Value.type))).reverse,
      Keeps R.state (ctx.push x) (IsPush R.toForms) := fun x hx =>
    keeps_push (hargs x (mem_of_mem_onStack (mem_reverse.mp hx)))
  refine .bind (.mapM hpush) fun pushes hpushes => ?_
  have hlength := length_reverse.symm.trans hpushes.length_eq
  have hpushes : ∀ code ∈ pushes, IsPush R.toForms code := by
    intro code hcode
    obtain ⟨_, -, hpush⟩ := exists_of_forall₂_of_mem hpushes hcode
    exact hpush
  have hmove : ∀ x ∈ inRegisters args (ofTypes (args.map Value.type)),
      Keeps R.state (do let s ← ctx.operand x.1; pure ⟨.mov, .ofType x.1.type, [.reg x.2, s]⟩)
        (IsMove R.toForms) := fun x hx => by
    have hzip := mem_zip_of_mem_inRegisters hx
    obtain ⟨hnamed, hsse⟩ := register_of_mem_zip hzip
    exact .bind (R.keeps_operand (hargs x.1 (of_mem_zip hzip).1)) fun s hs => .pure
      ⟨_, _, _, rfl, hnamed, R.allows_double hs.reads.allows hsse, hs.reads⟩
  refine .bind (.mapM_forall_mem hmove) fun moves hmoves => ?_
  refine .bind (R.keeps_noteArguments _ _) fun _ _ => ?_
  cases dst with
  | none => exact .pure (.mk hlength hpushes hmoves fun _ h => nomatch h)
  | some v =>
    obtain ⟨hnamed, hsse⟩ := resultRegister_spec v.type
    refine .bind (R.keeps_variable (hdst v rfl)) fun d hd => .pure (.mk hlength hpushes hmoves ?_)
    exact forall_mem_singleton.mpr
      ⟨_, _, _, rfl, hd.writes, hnamed, R.allows_double hd.writes.allows hsse⟩

/-! ### Instructions and parameters -/

/-- Whether the code of an instruction sets registers and reads them. -/
def usesRegisters : ThreeAddress.Instr → Bool
  | .load .. | .store .. | .call .. => true
  | .binary _ op _ _ => !op.isComparison
  | _ => false

/-- The code of an instruction obeys the rules.  Labels are kept as they are. -/
theorem keeps_instr {i : ThreeAddress.Instr} {returns : Option ScalarType}
    {arity? : String → Option Nat} (hregisters : usesRegisters i = true → R.registers)
    (hlabel : i.label?.isSome = true → R.allows .double)
    (hcalls : ∀ dst callee args, i = .call dst callee args → R.calls)
    (hnarrows : (truthValue? i).isSome = true ∨ (∃ dst v, i = .convert dst .truncate (.var v)) →
      R.narrows)
    (haddress : ∀ v, i.addressed? = some (.var v) → R.addressable (ctx.variableOperandOf v))
    (haddressed : ∀ x ∈ i.addressed?, R.accepts x) (hwritten : ∀ v ∈ i.written?, R.accepts (.var v))
    (hreads : ∀ x ∈ i.reads, R.accepts x) (htype : i.typeDefect? returns arity? = none) :
    Keeps R.state (ctx.instr i) fun code => ∀ ⦃targets : Label → Prop⦄,
      (∀ l, Instr.label l ∈ code → targets l) →
      (∀ l, i.target? = some l → targets (ctx.qualified l)) →
        ∀ j ∈ code, j.HasForm R.toForms targets := by
  have hstays {x : Lower (List Instr)} (h : Keeps R.state x R.Code) :
      Keeps R.state x fun code => ∀ ⦃targets : Label → Prop⦄,
        (∀ l, .label l ∈ code → targets l) →
        (∀ l, i.target? = some l → targets (ctx.qualified l)) →
          ∀ j ∈ code, j.HasForm R.toForms targets :=
    h.mono fun code hcode targets htargets _ => hcode htargets
  cases htruth : truthValue? i with
  | some dst =>
    have hdst := hwritten dst (written?_of_truthValue? htruth)
    obtain ⟨hcode, hint⟩ := keeps_truth htruth hdst hreads htype
    exact hstays (hcode.mono fun _ => code_truth (hnarrows (.inl (by simp [htruth])))
      (hint ▸ R.isVariable hdst))
  | none =>
  cases i with
  | label l => exact .pure fun _ _ _ => forall_mem_singleton.mpr (.label (hlabel rfl))
  | call dst callee args =>
    exact hstays ((keeps_call hwritten hreads).mono fun _ h =>
      h.obeys (hregisters rfl) (hcalls dst callee args rfl))
  | ret value =>
    refine hstays (keeps_ret fun x hx => hreads x ?_)
    cases hx
    exact .head _
  | unary dst op src =>
    refine hstays (keeps_unary ?_ (hwritten dst rfl) (hreads src (.head _))
      (type_of_typeDefect? htype))
    rintro rfl
    cases htruth
  | binary dst op lhs rhs =>
    have hop : op.isComparison = false := by simpa [truthValue?] using htruth
    exact hstays (keeps_binary (hregisters (by simp [usesRegisters, hop])) (hwritten dst rfl)
      (hreads lhs (.head _)) (hreads rhs (.tail _ (.head _))) hop htype)
  | convert dst conversion src =>
    refine hstays (keeps_convert ?_ (isValid_of_typeDefect? htype) (hwritten dst rfl)
      (hreads src (.head _)))
    rintro rfl ⟨v, rfl⟩
    exact hnarrows (.inr ⟨dst, v, rfl⟩)
  | copy dst src =>
    have hcopies : src.type.copiesTo dst.type = true := by
      simpa [Instr.typeDefect?] using htype
    have hsize : dst.type.size = src.type.size := eq_of_beq (Bool.and_eq_true_iff.mp hcopies).1
    refine hstays (.bind (R.keeps_variable (hwritten dst rfl)) fun d hd =>
      .bind (R.keeps_operand (hreads src (.head _))) fun a ha =>
        .pure (.cons (.copy hd.writes ⟨ha.1, ?_⟩) .nil))
    refine R.fits_of_size ha.reads.2 hd.writes.allows ?_ fun hw => ?_
    · rw [size_ofType, size_ofType, hsize]
    · have hdouble := eq_of_beq (Bool.and_eq_true_iff.mp hcopies).2
      rw [ofType_eq_double hw] at hdouble
      rw [(src.type.isDouble_iff).mp hdouble.symm]
      rfl
  | addressOf dst src =>
    cases src with
    | const c => cases htype
    | var v =>
      refine hstays (.bind (R.keeps_variable (hwritten dst rfl)) fun d hd =>
        .bind (R.keeps_destination (haddressed _ rfl)) ?_)
      rintro _ rfl
      refine .pure (.cons (.address ?_ (haddress v rfl)) .nil)
      have hpointer : dst.type = .pointer := eq_of_mismatch? htype
      rw [hpointer] at hd
      exact hd.writes
  | load dst ptr =>
    refine hstays (.bind (R.keeps_operand (hreads ptr (.head _))) fun a ha => ?_)
    rw [eq_of_mismatch? htype] at ha
    exact .bind (R.keeps_variable (hwritten dst rfl)) fun d hd =>
      .pure (.cons (.toRegister (by decide) (by rintro ⟨⟩) ha.reads)
        (.cons (.load (hregisters rfl) hd.writes) .nil))
  | store ptr src =>
    refine hstays (.bind (R.keeps_operand (hreads ptr (.head _))) fun a ha => ?_)
    rw [eq_of_mismatch? htype] at ha
    exact .bind (R.keeps_operand (hreads src (.tail _ (.head _)))) fun b hb =>
      .pure (.cons (.toRegister (by decide) (by rintro ⟨⟩) ha.reads)
        (.cons (.store (hregisters rfl) hb.reads) .nil))
  | jump target =>
    refine .pure fun targets _ htarget => ?_
    exact forall_mem_singleton.mpr (.jump (htarget target rfl))
  | jumpIfZero cond target | jumpIfNotZero cond target =>
    refine (keeps_conditionalJump (hreads cond (.head _))).mono fun code hcode => ?_
    exact fun targets hl htarget => hcode hl (htarget target rfl)

theorem keeps_params {ps : List Variable} (hregisters : R.registers)
    (hps : ∀ v ∈ ps, R.accepts (.var v)) :
    Keeps R.state (ctx.params ps) fun code =>
    ∀ i ∈ code, ∀ targets, i.HasForm R.toForms targets := by
  refine .mapM_forall_mem ?_
  rintro ⟨v, place⟩ hx
  refine .bind (R.keeps_variable (hps v (of_mem_zip hx).1)) fun d hd => .pure fun _ => ?_
  cases place with
  | stack n => exact .ofStack hd.writes
  | reg r =>
    obtain ⟨hnamed, hsse⟩ := register_of_mem_zip hx
    exact .ofRegister hregisters hd.writes hnamed (R.allows_double hd.writes.allows hsse)

end FormRules

end ThreeAddress.Amd64
