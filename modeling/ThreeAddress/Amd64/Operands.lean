import ThreeAddress.Amd64.Instr

/-!
# What instructions do with their operands

Which operands an instruction reads and writes, which registers it uses without naming them, and
which kinds of operand each position accepts.
-/

namespace ThreeAddress.Amd64

inductive Direction where
  | read
  | write
  | readWrite
  deriving DecidableEq, Repr

namespace Direction

def reads : Direction → Bool
  | read | readWrite => true
  | write => false

def writes : Direction → Bool
  | write | readWrite => true
  | read => false

end Direction

namespace Instr

/-- How the operands are used by position, whatever their number. -/
def positions (i : Instr) : List Direction :=
  match i.op, i.operands with
  | .mov, _ | .movsx _, _ | .movzx _, _ | .lea, _ | .cvttsd2si, _ | .cvtsi2sd _, _ | .pop, _ =>
    [.write, .read]
  -- The exclusive or of a register with itself does not depend on its value.
  | .xor, [a, b] => if a = b then [.write, .write] else [.readWrite, .read]
  | .xor, _ | .add, _ | .sub, _ | .imul, _ | .and, _ | .or, _ | .sal, _ | .sar, _ | .shr, _ =>
    [.readWrite, .read]
  -- A `set` instruction replaces only the lowest byte.
  | .neg, _ | .not, _ | .setcc _, _ => [.readWrite]
  | .cmp, operands | .comisd, operands | .idiv, operands | .div, operands | .push, operands
  | .call, operands | .ret, operands | .cdq, operands | .jmp, operands | .jcc _, operands
  | .label, operands => operands.map fun _ => .read

def directions (i : Instr) : List Direction := i.positions.take i.operands.length

/-- The registers read without being named; `arguments` are those a call passes values in. -/
def implicitReads (i : Instr) (arguments : List Register) : List Register :=
  match i.op with
  | .idiv | .div => [.rax, .rdx]
  | .cdq => [.rax]
  | .call => arguments
  | _ => []

def implicitWrites (i : Instr) : List Register :=
  match i.op with
  | .idiv | .div => [.rax, .rdx]
  | .cdq => [.rdx]
  | .call => Register.callerSaved
  | _ => []

end Instr

/-- The kinds of operand that a position accepts besides registers. -/
structure Accepts where
  imm : Bool
  memory : Bool
  deriving DecidableEq, Repr

namespace Accepts

def any : Accepts := ⟨true, true⟩

def regOrMemory : Accepts := ⟨false, true⟩

def regOnly : Accepts := ⟨false, false⟩

def regOrImm : Accepts := ⟨true, false⟩

end Accepts

def Instr.acceptsFirst (i : Instr) : Accepts :=
  match i.op, i.width with
  | .mov, _ => .regOrMemory
  | .movsx _, _ | .movzx _, _ | .lea, _ | .cvttsd2si, _ | .cvtsi2sd _, _ => .regOnly
  -- Arithmetic on doubles needs a register as destination.
  | .add, .double | .sub, .double | .imul, .double | .div, .double | .xor, .double
  | .cmp, .double => .regOnly
  | .comisd, _ | .imul, _ => .regOnly
  | .add, _ | .sub, _ | .and, _ | .or, _ | .xor, _ | .cmp, _ | .sal, _ | .sar, _ | .shr, _ =>
    .regOrMemory
  | .idiv, _ | .div, _ | .neg, _ | .not, _ | .setcc _, _ | .pop, _ => .regOrMemory
  | .push, _ | .call, _ | .ret, _ | .cdq, _ | .jmp, _ | .jcc _, _ | .label, _ => .any

def Instr.acceptsLater (i : Instr) : Accepts :=
  match i.op, i.width with
  | .mov, .double => .regOrMemory
  | .mov, _ => .any
  | .movsx _, _ | .movzx _, _ | .lea, _ | .cvttsd2si, _ | .cvtsi2sd _, _ | .comisd, _ =>
    .regOrMemory
  | .add, .double | .sub, .double | .imul, .double | .div, .double | .xor, .double
  | .cmp, .double => .regOrMemory
  | .add, _ | .sub, _ | .imul, _ | .and, _ | .or, _ | .xor, _ | .cmp, _ => .any
  | .sal, _ | .sar, _ | .shr, _ => .regOrImm
  | .idiv, _ | .div, _ | .neg, _ | .not, _ | .setcc _, _ | .pop, _ => .regOrMemory
  | .push, _ | .call, _ | .ret, _ | .cdq, _ | .jmp, _ | .jcc _, _ | .label, _ => .any

end ThreeAddress.Amd64
