import ThreeAddress.Amd64.ConstantPool
import ThreeAddress.Amd64.Procedure
import ThreeAddress.Fresh.LabelSupply
import ThreeAddress.Fresh.NameSupply
import ThreeAddress.Program

/-!
# Names and operands in lowering

Lowering a function needs operands for its values, fresh temporaries and labels, and places for its
double constants.  This module has the state in which they are kept and the steps that extend it.
-/

namespace ThreeAddress.Amd64

/-- Why a function cannot be lowered.  Verified programs are not affected by the second. -/
inductive LoweringError where
  /-- The labels of some name are used up. -/
  | subscriptOverflow
  /-- There is no remainder of doubles. -/
  | remainderOfDoubles
  deriving DecidableEq, Repr

def LoweringError.message : LoweringError → String
  | subscriptOverflow => "attempt to add with overflow"
  | remainderOfDoubles =>
    "internal error: entered unreachable code: " ++ BinaryOp.remainder.symbol ++
      " is handled separately"

/-- What lowering needs to know about a function and the program around it. -/
structure LoweringContext where
  platform : Platform
  function : String
  statics : NameSet
  functions : NameSet
  /-- The variables that may be accessed through a pointer. -/
  aliased : NameSet

/-- The names in use, and what is known about them. -/
structure LoweringState where
  pseudos : Std.ExtTreeMap String PseudoInfo
  labels : LabelSupply
  temporaries : NameSupply
  constants : ConstantPool
  callArguments : Std.ExtTreeMap String (List Register)

/-- A computation in lowering. -/
abbrev Lower := StateT LoweringState (Except LoweringError)

namespace Lower

def temporary (w : Width) : Lower Operand := do
  let s ← get
  let (name, temporaries) := s.temporaries.next
  set { s with
    temporaries := temporaries
    pseudos := s.pseudos.insert name ⟨w, false⟩ }
  return .pseudo name

def doubleConstant (x : Binary64) (alignment : Nat) : Lower Operand := do
  let s ← get
  let (name, constants) := s.constants.intern x alignment
  set { s with constants := constants }
  return .data name

/-- Notes the registers in which a call passes arguments, after those of earlier calls. -/
def noteArguments (symbol : String) (registers : List Register) : Lower Unit :=
  modify fun s =>
    let known := registers.foldl
      (fun known r => if known.contains r then known else known ++ [r])
      (s.callArguments.getD symbol [])
    { s with callArguments := s.callArguments.insert symbol known }

end Lower

/-- An integer constant as an immediate: its bits, read as a signed number of its width. -/
def immediate (c : Const) : Operand := .imm c.bits.toInt

/-- The value of an integer constant as a signed word; a double counts as zero. -/
def wordOf (c : Const) : Int := if c.type.isDouble then 0 else c.word

namespace LoweringContext

variable (ctx : LoweringContext)

/-- The symbol of a called function.  On Linux a function from elsewhere is called through the
procedure linkage table. -/
def calleeSymbol (name : String) : String :=
  if ctx.platform = .linux ∧ name ∉ ctx.functions then name ++ "@PLT"
  else ctx.platform.symbol name

/-- The operand through which a variable is accessed.  The first access decides what is known about
the pseudo register. -/
def variableOperand (v : Variable) : Lower Operand := do
  if v.name ∈ ctx.statics then
    return .data (ctx.platform.symbol v.name)
  else
    modify fun s =>
      let info := ⟨.ofType v.type, ctx.aliased.contains v.name⟩
      { s with pseudos := s.pseudos.insertIfNew v.name info }
    return .pseudo v.name

/-- The operand through which a value is accessed. -/
def operand : Value → Lower Operand
  | .const c =>
    match c.toBinary64? with
    | some x => Lower.doubleConstant x 8
    | none => return immediate c
  | .var v => ctx.variableOperand v

/-- A label as it is known in the assembly file, where the labels of all functions live together. -/
def qualified (l : Label) : Label :=
  ⟨ctx.platform.localMark ++ ctx.function ++ "." ++ l.name, l.subscript⟩

def freshLabel (name : String) : Lower Label := do
  let s ← get
  match s.labels.next? name with
  | some (l, labels) =>
    set { s with labels := labels }
    return ctx.qualified l
  | none => throw .subscriptOverflow

end LoweringContext

end ThreeAddress.Amd64
