import ThreeAddress.Amd64.Convention
import ThreeAddress.Amd64.Lowering.Conversion
import ThreeAddress.Optimise.Aliasing

/-!
# Lowering of functions

Every instruction becomes a sequence of machine instructions over pseudo registers.  A variable
becomes the pseudo register of its name, unless it has static storage.
-/

namespace ThreeAddress.Amd64

namespace LoweringContext

variable (ctx : LoweringContext)

/-- Copies the parameters from where they were passed to their pseudo registers. -/
def params (ps : List Variable) : Lower (List Instr) :=
  (ps.zip (ArgumentPlace.ofTypes (ps.map (·.type)))).mapM fun (p, place) => do
    let source := match place with
      | .reg r => Operand.reg r
      | .stack n => .memory .rbp (stackArgumentOffset n)
    let d ← ctx.variableOperand p
    return ⟨.mov, .ofType p.type, [d, source]⟩

/-- Leaves the function; `ret` stands for everything that has to happen at its end. -/
def ret : Option Value → Lower (List Instr)
  | none => return [.bare .ret []]
  | some v => do
    let s ← ctx.operand v
    return [⟨.mov, .ofType v.type, [.reg (resultRegister v.type), s]⟩, .bare .ret []]

/-- Jumps if a value is zero, or if it is not.  A NaN is not zero but compares as equal to it. -/
def conditionalJump (v : Value) (target : Label) (ifZero : Bool) : Lower (List Instr) := do
  let target := Operand.label (ctx.qualified target)
  let s ← ctx.operand v
  if v.type.isDouble then
    let zero ← Lower.doubleConstant .zero 8
    let compare : Instr := ⟨.comisd, .double, [s, zero]⟩
    if ifZero then
      let ordered ← ctx.freshLabel "nan"
      return [compare, ⟨.jcc .p, .quad, [.label ordered]⟩, ⟨.jcc .e, .quad, [target]⟩,
        .label ordered]
    else return [compare, ⟨.jcc .p, .quad, [target]⟩, ⟨.jcc .ne, .quad, [target]⟩]
  else
    let cond := if ifZero then Condition.e else .ne
    return [⟨.cmp, .ofType v.type, [s, .imm 0]⟩, ⟨.jcc cond, .quad, [target]⟩]

/-- Pushes an argument.  A value narrower than the stack is first brought into a register, since
pushing it from memory would read beyond it. -/
def push (v : Value) : Lower (List Instr) := do
  let w := Width.ofType v.type
  let s ← ctx.operand v
  let direct := match s with
    | .imm _ | .reg _ => true
    | _ => w.size == 8
  if direct then return [⟨.push, .quad, [s]⟩]
  else return [⟨.mov, w, [.reg .rax, s]⟩, ⟨.push, .quad, [.reg .rax]⟩]

/-- Calls a function.  Arguments on the stack are pushed from the last to the first, above a gap
that keeps the stack aligned if their number is odd. -/
def call (dst : Option Variable) (callee : String) (args : List Value) : Lower (List Instr) := do
  let placed := args.zip (ArgumentPlace.ofTypes (args.map Value.type))
  let onStack := placed.filterMap fun (v, place) =>
    match place with
    | .stack _ => some v
    | .reg _ => none
  let inRegisters := placed.filterMap fun (v, place) => place.reg?.map (v, ·)
  let padding : Nat := if onStack.length % 2 = 1 then 8 else 0
  let pad : List Instr :=
    if padding = 0 then [] else [⟨.sub, .quad, [.reg .rsp, .imm padding]⟩]
  let pushes ← onStack.reverse.mapM ctx.push
  let moves ← inRegisters.mapM fun (v, r) => do
    let s ← ctx.operand v
    return (⟨.mov, .ofType v.type, [.reg r, s]⟩ : Instr)
  let symbol := ctx.calleeSymbol callee
  Lower.noteArguments symbol (inRegisters.map Prod.snd)
  let pushed := 8 * onStack.length + padding
  let unpad : List Instr :=
    if pushed = 0 then [] else [⟨.add, .quad, [.reg .rsp, .imm pushed]⟩]
  let result ← match dst with
    | none => pure []
    | some v => do
      let d ← ctx.variableOperand v
      pure [(⟨.mov, .ofType v.type, [d, .reg (resultRegister v.type)]⟩ : Instr)]
  return pad ++ pushes.flatten ++ moves ++ [⟨.call, .quad, [.callee symbol]⟩] ++ unpad ++ result

def instr : ThreeAddress.Instr → Lower (List Instr)
  | .ret value => ctx.ret value
  | .unary dst op src => ctx.unary dst op src
  | .binary dst op lhs rhs => ctx.binary dst op lhs rhs
  | .copy dst src => do
    let d ← ctx.variableOperand dst
    let s ← ctx.operand src
    return [⟨.mov, .ofType dst.type, [d, s]⟩]
  | .addressOf dst src => do
    let d ← ctx.variableOperand dst
    let s ← ctx.operand src
    return [⟨.lea, .quad, [d, s]⟩]
  | .load dst ptr => do
    let p ← ctx.operand ptr
    let d ← ctx.variableOperand dst
    return [⟨.mov, .quad, [.reg .r11, p]⟩, ⟨.mov, .ofType dst.type, [d, .memory .r11 0]⟩]
  | .store ptr src => do
    let p ← ctx.operand ptr
    let s ← ctx.operand src
    return [⟨.mov, .quad, [.reg .r11, p]⟩, ⟨.mov, .ofType src.type, [.memory .r11 0, s]⟩]
  | .jump target => return [⟨.jmp, .quad, [.label (ctx.qualified target)]⟩]
  | .jumpIfZero cond target => ctx.conditionalJump cond target true
  | .jumpIfNotZero cond target => ctx.conditionalJump cond target false
  | .label l => return [.label (ctx.qualified l)]
  | .call dst callee args => ctx.call dst callee args
  | .convert dst conversion src => ctx.convert dst conversion src

/-- The machine instructions of a body; running off its end returns without a value. -/
def body (code : Listing ThreeAddress.Instr) : Lower (List Instr) := do
  let lowered ← code.mapM ctx.instr
  let final ← match code.getLast? with
    | some (.ret _) => pure []
    | _ => ctx.ret none
  return lowered.flatten ++ final

end LoweringContext

/-- The context in which a function of a program is lowered. -/
def LoweringContext.of (p : Program) (platform : Platform) (f : Function) : LoweringContext where
  platform := platform
  function := f.name
  statics := Std.ExtTreeSet.ofList (p.statics.map (·.name)) compare
  functions := Std.ExtTreeSet.ofList (p.functions.map (·.name)) compare
  aliased := addressTaken f.body

/-- The state in which the lowering of a function starts.  Only the constants are shared by the
functions of a program. -/
def LoweringState.initial (f : Function) (constants : ConstantPool) : LoweringState where
  pseudos := ∅
  labels := .ofListing f.body
  temporaries := .fresh
  constants := constants
  callArguments := ∅

/-- Lowers a function.  Its double constants are added to the pool. -/
def lowerFunction (p : Program) (platform : Platform) (f : Function) (constants : ConstantPool) :
    Except LoweringError (Procedure × ConstantPool) := do
  let ctx := LoweringContext.of p platform f
  let code : Lower (List Instr) := do
    let params ← ctx.params f.params
    let body ← ctx.body f.body
    return params ++ body
  let (body, s) ← code.run (.initial f constants)
  return ({
    name := f.name
    isGlobal := f.isGlobal
    body := body
    pseudos := s.pseudos
    results := resultRegisters f.returnType
    callArguments := s.callArguments }, s.constants)

end ThreeAddress.Amd64
