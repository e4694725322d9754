import ThreeAddress.Amd64.Opcode
import ThreeAddress.FlowGraph.Basic
import ThreeAddress.Instr.Text

/-!
# Machine instructions

An instruction is an operation, the width it works at, and its operands with the destination first.
Until registers are allocated, operands may be pseudo registers.
-/

namespace ThreeAddress.Amd64

attribute [local instance (high)] instPowNat

inductive Operand where
  | imm (v : Int)
  | reg (r : Register)
  /-- A variable or temporary that is still to be given a register or stack slot. -/
  | pseudo (name : String)
  /-- Memory at a fixed distance from the address in a register. -/
  | memory (base : Register) (offset : Int)
  /-- Memory with static storage. -/
  | data (symbol : String)
  | label (l : Label)
  | callee (symbol : String)
  deriving DecidableEq, Repr

namespace Operand

def isMemory : Operand → Bool
  | memory _ _ | data _ => true
  | _ => false

def isReg : Operand → Bool
  | reg _ => true
  | _ => false

def pseudo? : Operand → Option String
  | pseudo name => some name
  | _ => none

def reg? : Operand → Option Register
  | reg r => some r
  | _ => none

/-- Whether the operand is an immediate that no signed 32-bit field can hold. -/
def isWideImm : Operand → Bool
  | imm v => v < -2 ^ (31 : Nat) || 2 ^ (31 : Nat) ≤ v
  | _ => false

def addressText (base : Register) (offset : Int) : String :=
  if offset = 0 then "[" ++ base.text ++ "]"
  else if offset < 0 then "[" ++ base.text ++ "-" ++ toString offset.natAbs ++ "]"
  else "[" ++ base.text ++ "+" ++ toString offset ++ "]"

/-- The text of an operand that is accessed with the given width.  The width of memory is announced
where it is not clear from the operation. -/
def text (w : Width) (announced : Bool) (o : Operand) : String :=
  let inMemory := fun (s : String) => if announced then w.pointerText ++ " " ++ s else s
  match o with
  | imm v => toString v
  | reg r => r.name w
  | pseudo name => name
  | memory base offset => inMemory (addressText base offset)
  | data symbol => inMemory (symbol ++ "[rip]")
  | label l => l.text
  | callee symbol => symbol

end Operand

structure Instr where
  op : Opcode
  width : Width
  operands : List Operand
  deriving DecidableEq, Repr

namespace Instr

/-- An instruction whose operands need no width. -/
def bare (op : Opcode) (operands : List Operand) : Instr := ⟨op, .quad, operands⟩

def label (l : Label) : Instr := bare .label [.label l]

def operandWidths (i : Instr) : List Width :=
  match i.op with
  | .movzx .long => [.long, .long]
  | .movsx source | .movzx source => [i.width, source]
  | .cvtsi2sd source => [.double, source]
  | .cvttsd2si => [i.width, .double]
  | .sal | .sar | .shr => [i.width, .byte]
  | .setcc _ => [.byte]
  | .push | .pop => [.quad]
  | _ => i.operands.map fun _ => i.width

/-- The destination and source of an instruction that copies between places of one width. -/
def move? (i : Instr) : Option (Operand × Operand) :=
  match i.op, i.operands with
  | .mov, [dst, src] => some (dst, src)
  | _, _ => none

def flow (i : Instr) : Flow Label :=
  match i.op, i.operands.head? with
  | .label, some (.label l) => .label l
  | .jmp, some (.label l) => .jump l
  | .jcc _, some (.label l) => .branch l
  | .ret, _ => .ret
  | _, _ => .next

def mapOperands (f : Operand → Operand) (i : Instr) : Instr :=
  { i with operands := i.operands.map f }

def padded (length : Nat) (s : String) : String :=
  s ++ String.ofList (List.replicate (length - s.length) ' ')

/-- The text of an instruction.  The address computed by `lea` has no width. -/
def text (i : Instr) : String :=
  match i.op, i.operands with
  | .label, [l] => l.text .quad false ++ ":"
  | _, [] => "    " ++ i.op.mnemonic i.width
  | _, operands =>
    let texts := (operands.zip i.operandWidths).map fun (o, w) => o.text w (i.op ≠ .lea)
    "    " ++ padded 7 (i.op.mnemonic i.width) ++ " " ++ ", ".intercalate texts

def remarked (i : Instr) (remark : String) : String := padded 32 i.text ++ "# " ++ remark

end Instr

end ThreeAddress.Amd64
