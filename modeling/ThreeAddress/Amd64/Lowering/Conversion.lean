import ThreeAddress.Amd64.Lowering.Arithmetic

/-!
# Lowering of conversions

The machine converts between doubles and signed integers only.  Unsigned integers go through a wider
signed type where there is one; for 64 bits, values in the upper half are brought into the signed
range first.
-/

namespace ThreeAddress.Amd64

attribute [local instance (high)] instPowNat

/-- The number `2 ^ 63`, where the range of signed 64-bit integers ends. -/
def signedLimit : Binary64 := .ofInt (2 ^ (63 : Nat))

/-- The least signed 64-bit integer. -/
def leastWord : Int := -2 ^ (63 : Nat)

namespace LoweringContext

/-- Converts an unsigned integer to a double.  A 64-bit value with its top bit set is halved before
the conversion and doubled after it; the bit that is shifted out is kept in the lowest place, so
that the result is rounded as if it had been converted at once. -/
def uintToDouble (ctx : LoweringContext) (d : Operand) (src : Value) : Lower (List Instr) := do
  match Width.ofType src.type with
  | .byte =>
    let (s, widen) ← ctx.widenByte src
    return widen ++ [⟨.cvtsi2sd .long, .double, [d, s]⟩]
  | .long =>
    match src with
    | .const c => return [⟨.cvtsi2sd .quad, .double, [d, .imm (wordOf c)]⟩]
    | .var v =>
      let wide ← Lower.temporary .quad
      let s ← ctx.variableOperand v
      return [⟨.movzx .long, .quad, [wide, s]⟩, ⟨.cvtsi2sd .quad, .double, [d, wide]⟩]
  | _ =>
    let s ← ctx.operand src
    let big ← ctx.freshLabel "u2d_big"
    let done ← ctx.freshLabel "u2d_end"
    let halved ← Lower.temporary .quad
    let lowBit ← Lower.temporary .quad
    return [
      ⟨.cmp, .quad, [s, .imm 0]⟩,
      ⟨.jcc .l, .quad, [.label big]⟩,
      ⟨.cvtsi2sd .quad, .double, [d, s]⟩,
      ⟨.jmp, .quad, [.label done]⟩,
      .label big,
      ⟨.mov, .quad, [lowBit, s]⟩,
      ⟨.mov, .quad, [halved, lowBit]⟩,
      ⟨.shr, .quad, [halved, .imm 1]⟩,
      ⟨.and, .quad, [lowBit, .imm 1]⟩,
      ⟨.or, .quad, [halved, lowBit]⟩,
      ⟨.cvtsi2sd .quad, .double, [d, halved]⟩,
      ⟨.add, .double, [d, d]⟩,
      .label done]

/-- Converts a double to an unsigned integer.  For 64 bits, values from `2 ^ 63` on are moved into
the signed range before the conversion and back after it. -/
def doubleToUInt (ctx : LoweringContext) (d : Operand) (w : Width) (src : Value) :
    Lower (List Instr) := do
  let s ← ctx.operand src
  let throughWider := fun (wider : Width) => do
    let wide ← Lower.temporary wider
    return [⟨.cvttsd2si, wider, [wide, s]⟩, ⟨.mov, w, [d, wide]⟩]
  match w with
  | .byte => throughWider .long
  | .long => throughWider .quad
  | _ =>
    let limit ← Lower.doubleConstant signedLimit 8
    let big ← ctx.freshLabel "d2u_big"
    let done ← ctx.freshLabel "d2u_end"
    let offset ← Lower.temporary .double
    return [
      ⟨.comisd, .double, [s, limit]⟩,
      ⟨.jcc .ae, .quad, [.label big]⟩,
      ⟨.cvttsd2si, .quad, [d, s]⟩,
      ⟨.jmp, .quad, [.label done]⟩,
      .label big,
      ⟨.mov, .double, [offset, s]⟩,
      ⟨.sub, .double, [offset, limit]⟩,
      ⟨.cvttsd2si, .quad, [d, offset]⟩,
      ⟨.add, .quad, [d, .imm leastWord]⟩,
      .label done]

def convert (ctx : LoweringContext) (dst : Variable) (conversion : Conversion) (src : Value) :
    Lower (List Instr) := do
  let source := Width.ofType src.type
  let w := Width.ofType dst.type
  let d ← ctx.variableOperand dst
  match conversion with
  | .signExtend => return [⟨.movsx source, w, [d, ← ctx.operand src]⟩]
  | .zeroExtend => return [⟨.movzx source, w, [d, ← ctx.operand src]⟩]
  | .truncate =>
    let s ← match src with
      | .const c => pure (immediate (.ofInt dst.type (c.toInt?.getD 0)))
      | .var v => ctx.variableOperand v
    return [⟨.mov, w, [d, s]⟩]
  | .intToDouble =>
    if source = .byte then
      let (s, widen) ← ctx.widenByte src
      return widen ++ [⟨.cvtsi2sd .long, .double, [d, s]⟩]
    else return [⟨.cvtsi2sd source, .double, [d, ← ctx.operand src]⟩]
  | .uintToDouble => ctx.uintToDouble d src
  | .doubleToInt =>
    let s ← ctx.operand src
    if w = .byte then
      let wide ← Lower.temporary .long
      return [⟨.cvttsd2si, .long, [wide, s]⟩, ⟨.mov, .byte, [d, wide]⟩]
    else return [⟨.cvttsd2si, w, [d, s]⟩]
  | .doubleToUInt => ctx.doubleToUInt d w src

end LoweringContext

end ThreeAddress.Amd64
