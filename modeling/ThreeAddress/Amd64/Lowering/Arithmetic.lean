import ThreeAddress.Amd64.Lowering.Context

/-!
# Lowering of operators

The machine instructions for unary and binary operators.  A byte has no multiplication and division
of its own that would be convenient, so bytes are widened to 32 bits first.
-/

namespace ThreeAddress.Amd64

namespace LoweringContext

variable (ctx : LoweringContext)

/-- Sets `dst` to whether two doubles are equal, or unequal.  Doubles that cannot be compared are
unequal. -/
def doubleEquality (dst lhs rhs : Operand) (equal : Bool) : Lower (List Instr) := do
  let done ← ctx.freshLabel "nan"
  let (unordered, cond) := if equal then (0, Condition.e) else (1, .ne)
  return [
    ⟨.comisd, .double, [lhs, rhs]⟩,
    ⟨.mov, .long, [dst, .imm unordered]⟩,
    ⟨.jcc .p, .quad, [.label done]⟩,
    ⟨.setcc cond, .byte, [dst]⟩,
    .label done]

/-- The instructions that set `dst` to 0 or 1 by the flags of a comparison. -/
def setByFlags (dst : Operand) (cond : Condition) : List Instr :=
  [⟨.mov, .long, [dst, .imm 0]⟩, ⟨.setcc cond, .byte, [dst]⟩]

def unary (dst : Variable) (op : UnaryOp) (src : Value) : Lower (List Instr) := do
  let w := Width.ofType src.type
  let d ← ctx.variableOperand dst
  let s ← ctx.operand src
  match op with
  | .not =>
    if src.type.isDouble then
      let zero ← Lower.doubleConstant .zero 8
      ctx.doubleEquality d s zero true
    else return ⟨.cmp, w, [s, .imm 0]⟩ :: setByFlags d .e
  | .negate =>
    if src.type.isDouble then
      let negativeZero ← Lower.doubleConstant .negativeZero 16
      return [⟨.mov, w, [d, s]⟩, ⟨.xor, w, [d, negativeZero]⟩]
    else return [⟨.mov, w, [d, s]⟩, ⟨.neg, w, [d]⟩]
  | .complement => return [⟨.mov, w, [d, s]⟩, ⟨.not, w, [d]⟩]

def comparisonCondition (signed : Bool) : BinaryOp → Condition
  | .notEqual => .ne
  | .lessThan => if signed then .l else .b
  | .lessOrEqual => if signed then .le else .be
  | .greaterThan => if signed then .g else .a
  | .greaterOrEqual => if signed then .ge else .ae
  | _ => .e

/-- A comparison of doubles sets the flags as an unsigned comparison does, and reports operands that
cannot be compared as equal and less.  With the operands of `<` and `<=` exchanged, every ordered
comparison is false of them. -/
def doubleComparison (op : BinaryOp) (d l r : Operand) : Lower (List Instr) :=
  let ordered := fun (first second : Operand) (cond : Condition) =>
    ⟨.comisd, .double, [first, second]⟩ :: setByFlags d cond
  match op with
  | .notEqual => ctx.doubleEquality d l r false
  | .lessThan => return ordered r l .a
  | .lessOrEqual => return ordered r l .ae
  | .greaterThan => return ordered l r .a
  | .greaterOrEqual => return ordered l r .ae
  | _ => ctx.doubleEquality d l r true

def comparison (dst : Variable) (op : BinaryOp) (lhs rhs : Value) : Lower (List Instr) := do
  let d ← ctx.variableOperand dst
  let l ← ctx.operand lhs
  let r ← ctx.operand rhs
  if lhs.type.isDouble then ctx.doubleComparison op d l r
  else
    return ⟨.cmp, .ofType lhs.type, [l, r]⟩ ::
      setByFlags d (comparisonCondition lhs.type.isSigned op)

/-- A byte as a 32-bit operand, extended as its type dictates, with the instructions that extend
it. -/
def widenByte : Value → Lower (Operand × List Instr)
  | .const c => return (.imm (wordOf c), [])
  | .var v => do
    let wide ← Lower.temporary .long
    let s ← ctx.variableOperand v
    let op := if v.type.isSigned then Opcode.movsx .byte else .movzx .byte
    return (wide, [⟨op, .long, [wide, s]⟩])

/-- An operand of a division, with the instructions that prepare it. -/
def divisionOperand (isByte : Bool) (v : Value) : Lower (Operand × List Instr) := do
  if isByte then ctx.widenByte v
  else
    let s ← ctx.operand v
    return (s, [])

/-- Division leaves the quotient in `rax` and the remainder in `rdx`. -/
def division (dst : Variable) (result : Register) (lhs rhs : Value) : Lower (List Instr) := do
  let isByte := Width.ofType lhs.type == .byte
  let w := if isByte then .long else Width.ofType lhs.type
  let (l, widenL) ← ctx.divisionOperand isByte lhs
  let (r, widenR) ← ctx.divisionOperand isByte rhs
  let divide : List Instr :=
    if lhs.type.isSigned then [⟨.cdq, w, []⟩, ⟨.idiv, w, [r]⟩]
    else [⟨.xor, .long, [.reg .rdx, .reg .rdx]⟩, ⟨.div, w, [r]⟩]
  let d ← ctx.variableOperand dst
  return widenL ++ widenR ++ [⟨.mov, w, [.reg .rax, l]⟩] ++ divide ++
    [⟨.mov, .ofType dst.type, [d, .reg result]⟩]

/-- The count of a shift is an immediate or the lowest byte of `rcx`. -/
def shift (dst : Variable) (isLeft : Bool) (lhs rhs : Value) : Lower (List Instr) := do
  let w := Width.ofType lhs.type
  let op := if isLeft then Opcode.sal else if lhs.type.isSigned then .sar else .shr
  let (amount, load) : Operand × List Instr ← match rhs with
    | .const c => pure (.imm (wordOf c % 256), [])
    | .var v => do
      let r ← ctx.variableOperand v
      pure (.reg .rcx, [⟨.mov, .ofType v.type, [.reg .rcx, r]⟩])
  let d ← ctx.variableOperand dst
  let l ← ctx.operand lhs
  return load ++ [⟨.mov, w, [d, l]⟩, ⟨op, w, [d, amount]⟩]

/-- The lowest byte of a product does not depend on how the factors were extended. -/
def byteProduct (dst : Variable) (lhs rhs : Value) : Lower (List Instr) := do
  let (l, widenL) ← ctx.widenByte lhs
  let (r, widenR) ← ctx.widenByte rhs
  let product ← Lower.temporary .long
  let d ← ctx.variableOperand dst
  return widenL ++ widenR ++ [
    ⟨.mov, .long, [product, l]⟩,
    ⟨.imul, .long, [product, r]⟩,
    ⟨.mov, .byte, [d, product]⟩]

/-- An operation that combines its destination with another operand.  If the right operand is the
destination itself, the result is built in a temporary and moved from there.  A variable may have
the name of the temporary, and then the result is in place already. -/
def twoOperand (dst : Variable) (op : Opcode) (lhs rhs : Value) : Lower (List Instr) := do
  let w := Width.ofType lhs.type
  let d ← ctx.variableOperand dst
  let l ← ctx.operand lhs
  let r ← ctx.operand rhs
  let t ← if r = d then Lower.temporary w else pure d
  let final : List Instr := if t = d then [] else [⟨.mov, w, [d, t]⟩]
  return [⟨.mov, w, [t, l]⟩, ⟨op, w, [t, r]⟩] ++ final

def binary (dst : Variable) (op : BinaryOp) (lhs rhs : Value) : Lower (List Instr) :=
  match op with
  | .add => ctx.twoOperand dst .add lhs rhs
  | .subtract => ctx.twoOperand dst .sub lhs rhs
  | .bitAnd => ctx.twoOperand dst .and lhs rhs
  | .bitOr => ctx.twoOperand dst .or lhs rhs
  | .bitXor => ctx.twoOperand dst .xor lhs rhs
  | .multiply =>
    if Width.ofType lhs.type = .byte then ctx.byteProduct dst lhs rhs
    else ctx.twoOperand dst .imul lhs rhs
  | .divide =>
    if lhs.type.isDouble then ctx.twoOperand dst .div lhs rhs
    else ctx.division dst .rax lhs rhs
  | .remainder =>
    if lhs.type.isDouble then throw .remainderOfDoubles else ctx.division dst .rdx lhs rhs
  | .shiftLeft => ctx.shift dst true lhs rhs
  | .shiftRight => ctx.shift dst false lhs rhs
  | op => ctx.comparison dst op lhs rhs

end LoweringContext

end ThreeAddress.Amd64
