import ThreeAddress.Binary64.Arithmetic
import ThreeAddress.Instr.Basic

/-!
# Arithmetic on constants

The value of an operator on constants, where it has one.  Integers are computed exactly and then
wrapped to their type; doubles follow binary64 arithmetic.  There is no value where an operation
is undefined at run time: division by zero, a quotient that does not fit, a shift by the width or
more, a double that is out of range.
-/

namespace ThreeAddress

attribute [local instance (high)] instPowNat

namespace Const

def unary? (op : UnaryOp) (c : Const) : Option Const :=
  match op, c.toBinary64?, c.toInt? with
  | .not, _, _ => some (ofBool c.isZero)
  | .negate, some x, _ => some (ofBinary64 x.neg)
  | .negate, none, some v => some (ofInt c.type (-v))
  | .complement, none, some v => some (ofInt c.type (-v - 1))
  | _, _, _ => none

/-- The value of a binary operator on integers, at the type of its left operand. -/
def binaryInt? (op : BinaryOp) (t : ScalarType) (a b : Int) : Option Const :=
  let wrap := ofInt t
  match op with
  | .add => some (wrap (a + b))
  | .subtract => some (wrap (a - b))
  | .multiply => some (wrap (a * b))
  | .divide => if b = 0 ∨ !fits t (a.tdiv b) then none else some (wrap (a.tdiv b))
  | .remainder => if b = 0 ∨ !fits t (a.tdiv b) then none else some (wrap (a.tmod b))
  | .bitAnd => some (bitwise (· &&& ·))
  | .bitOr => some (bitwise (· ||| ·))
  | .bitXor => some (bitwise (· ^^^ ·))
  | .shiftLeft => if b < 0 ∨ t.width ≤ b then none else some (wrap (a * 2 ^ b.toNat))
  | .shiftRight => if b < 0 ∨ t.width ≤ b then none else some (wrap (a / 2 ^ b.toNat))
  | .equal => some (ofBool (a == b))
  | .notEqual => some (ofBool (a != b))
  | .lessThan => some (ofBool (a < b))
  | .lessOrEqual => some (ofBool (a ≤ b))
  | .greaterThan => some (ofBool (b < a))
  | .greaterOrEqual => some (ofBool (b ≤ a))
where
  /-- Bitwise operators act on the low bits of both operands. -/
  bitwise (f : BitVec t.width → BitVec t.width → BitVec t.width) : Const :=
    ⟨t, f (BitVec.ofInt t.width a) (BitVec.ofInt t.width b)⟩

def binaryDouble? (op : BinaryOp) (x y : Binary64) : Option Const :=
  match op with
  | .add => some (ofBinary64 (x.add y))
  | .subtract => some (ofBinary64 (x.sub y))
  | .multiply => some (ofBinary64 (x.mul y))
  | .divide => some (ofBinary64 (x.div y))
  | .equal => some (ofBool (x.eq y))
  | .notEqual => some (ofBool (!x.eq y))
  | .lessThan => some (ofBool (x.lt y))
  | .lessOrEqual => some (ofBool (x.le y))
  | .greaterThan => some (ofBool (y.lt x))
  | .greaterOrEqual => some (ofBool (y.le x))
  | .remainder | .bitAnd | .bitOr | .bitXor | .shiftLeft | .shiftRight => none

/-- The value of a binary operator.  A double and an integer have no common operation. -/
def binary? (op : BinaryOp) (lhs rhs : Const) : Option Const :=
  match lhs.toBinary64?, rhs.toBinary64?, lhs.toInt?, rhs.toInt? with
  | some x, some y, _, _ => binaryDouble? op x y
  | _, _, some a, some b => binaryInt? op lhs.type a b
  | _, _, _, _ => none

def convert? (conversion : Conversion) (c : Const) (target : ScalarType) : Option Const :=
  match conversion with
  | .signExtend => c.toInt?.map fun _ => ofInt target c.bits.toInt
  | .zeroExtend => c.toInt?.map fun _ => ofInt target c.bits.toNat
  | .truncate => c.toInt?.map (ofInt target)
  | .intToDouble | .uintToDouble => c.toInt?.map fun v => ofBinary64 (Binary64.ofInt v)
  | .doubleToInt | .doubleToUInt =>
    (c.toBinary64?.bind Binary64.truncate?).bind fun v =>
      if fits target v then some (ofInt target v) else none

/-- The constant of another type with the same bits, between types of one size other than
double. -/
def reinterpret? (c : Const) (target : ScalarType) : Option Const :=
  if c.type.size = target.size ∧ !c.type.isDouble ∧ !target.isDouble then
    c.toInt?.map (ofInt target)
  else none

end Const

end ThreeAddress
