import ThreeAddress.Const.Arithmetic
import ThreeAddress.Listing

/-!
# Constant folding

Instructions on constants become copies of their value, and conditional jumps on constants become
jumps or disappear.  An instruction whose value is undefined is left alone.
-/

namespace ThreeAddress

/-- A copy of the value into the destination, if there is a value; else the instruction itself. -/
def Instr.orCopy (i : Instr) (dst : Variable) : Option Const → Instr
  | some c => .copy dst (.const c)
  | none => i

/-- What an instruction folds to; nothing remains of a jump that is never taken. -/
def Instr.fold (i : Instr) : Option Instr :=
  match i with
  | .unary dst op (.const c) => some (i.orCopy dst (c.unary? op))
  | .binary dst op (.const a) (.const b) => some (i.orCopy dst (Const.binary? op a b))
  | .convert dst conversion (.const c) =>
    some (i.orCopy dst (Const.convert? conversion c dst.type))
  | .copy dst (.const c) =>
    if c.type = dst.type then some i else some (i.orCopy dst (c.reinterpret? dst.type))
  | .jumpIfZero (.const c) target => if c.isZero then some (.jump target) else none
  | .jumpIfNotZero (.const c) target => if c.isZero then none else some (.jump target)
  | _ => some i

def foldConstants (body : Listing Instr) : Listing Instr := body.filterMap Instr.fold

end ThreeAddress
