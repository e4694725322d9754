import ThreeAddress.Amd64.Operands
import ThreeAddress.Listing

/-!
# Encodable instructions

After allocation an instruction may have operands that the machine cannot encode, such as two in
memory.  Such operands are routed through scratch registers, which the allocator never hands out:
`r11` and `xmm15` for destinations, `r10` and `xmm14` for sources.
-/

namespace ThreeAddress.Amd64

def destinationScratch (w : Width) : Register := if w = .double then .xmm 15 else .r11

def sourceScratch (w : Width) : Register := if w = .double then .xmm 14 else .r10

namespace Instr

def isSelfMove (i : Instr) : Bool := i.move?.any fun (dst, src) => dst == src

/-- Whether an operand is of a kind that its position does not accept, given whether a wide
immediate is accepted there. -/
def refused (accepts : Accepts) (wideImm : Bool) (o : Operand) : Bool :=
  match o with
  | .imm _ => !accepts.imm || (o.isWideImm && !wideImm)
  | .memory _ _ | .data _ => !accepts.memory
  | _ => false

def isFirstIllegal (i : Instr) (first : Operand) : Bool := refused i.acceptsFirst false first

/-- Whether the second operand cannot be encoded.  Only a move into a register takes an immediate of
64 bits, and at most one operand may be in memory. -/
def isSecondIllegal (i : Instr) (first second : Operand) : Bool :=
  refused i.acceptsLater (i.op == .mov && first.isReg) second ||
    (second.isMemory && first.isMemory)

/-- The two instructions that push an SSE register, for which there is no single one. -/
def pushSse (r : Register) : List Instr :=
  [bare .sub [.reg .rsp, .imm 8], ⟨.mov, .double, [.memory .rsp 0, .reg r]⟩]

/-- The instructions before and after an instruction whose first operand is replaced by a scratch
register. -/
def aroundScratch (i : Instr) (d : Direction) (first scratch : Operand) :
    List Instr × List Instr :=
  (if d.reads then [⟨.mov, i.width, [scratch, first]⟩] else [],
    if d.writes then [⟨.mov, i.width, [first, scratch]⟩] else [])

/-- Makes the first operand encodable: the new operand, and the instructions before and after.  A
lone operand that is only read is a source. -/
def legaliseFirst (i : Instr) (d : Direction) (w : Width) (isLone : Bool) (first : Operand) :
    Operand × List Instr × List Instr :=
  if i.isFirstIllegal first then
    let r := if isLone && !d.writes then sourceScratch w else destinationScratch w
    (.reg r, i.aroundScratch d first (.reg r))
  else (first, [], [])

/-- Makes the second operand encodable: the new operand, and the instructions before. -/
def legaliseSecond (i : Instr) (w : Width) (first second : Operand) : Operand × List Instr :=
  if i.isSecondIllegal first second then
    let r := Operand.reg (sourceScratch w)
    (r, [⟨.mov, w, [r, second]⟩])
  else (second, [])

def legaliseOperands (i : Instr) : List Instr :=
  match i.operands, i.directions, i.operandWidths with
  | [first], d :: _, w :: _ =>
    let (first, before, after) := i.legaliseFirst d w true first
    before ++ [{ i with operands := [first] }] ++ after
  | first :: second :: rest, d :: _, w₁ :: w₂ :: _ =>
    let (first, before, after) := i.legaliseFirst d w₁ false first
    let (second, load) := i.legaliseSecond w₂ first second
    before ++ load ++ [{ i with operands := first :: second :: rest }] ++ after
  | _, _, _ => [i]

/-- Encodable instructions with the effect of the given one.  A copy of a place to itself needs
none. -/
def legalise (i : Instr) : List Instr :=
  if i.isSelfMove then []
  else
    match i.op, i.operands with
    | .push, [.reg r] => if r.isSse then pushSse r else i.legaliseOperands
    | _, _ => i.legaliseOperands

end Instr

def legaliseAll (body : Listing Instr) : Listing Instr := body.flatMap Instr.legalise

end ThreeAddress.Amd64
