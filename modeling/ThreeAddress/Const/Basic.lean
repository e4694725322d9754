import ThreeAddress.Decimal.Text
import ThreeAddress.Binary64.Rounding
import ThreeAddress.ScalarType

/-!
# Typed constants

A constant is a scalar type and exactly as many bits as the type is wide, so equality of
constants is equality of type and bits: two zeros of different sign differ, and a NaN equals
itself.  `Const.toInt?` is the mathematical value of an integer or pointer constant.
-/

namespace ThreeAddress

structure Const where
  type : ScalarType
  bits : BitVec type.width
  deriving DecidableEq, Repr

namespace Const

/-- The constant of the given type that an integer wraps to: its low bits, or for a double the
nearest number. -/
def ofInt (t : ScalarType) (v : Int) : Const :=
  match t with
  | .double => ⟨.double, (Binary64.ofInt v).bits⟩
  | t => ⟨t, BitVec.ofInt t.width v⟩

def ofBinary64 (x : Binary64) : Const := ⟨.double, x.bits⟩

def ofBool (b : Bool) : Const := ofInt .int (if b then 1 else 0)

def zero (t : ScalarType) : Const := ⟨t, 0⟩

def toBinary64? : Const → Option Binary64
  | ⟨.double, bits⟩ => some (.ofBits bits)
  | _ => none

/-- The mathematical value of an integer or pointer constant. -/
def toInt? (c : Const) : Option Int :=
  if c.type = .double then none
  else some (if c.type.isSigned then c.bits.toInt else c.bits.toNat)

/-- The bits of the constant, sign- or zero-extended to 64 bits as its type dictates. -/
def extended (c : Const) : BitVec 64 :=
  if c.type.isSigned then c.bits.signExtend 64 else c.bits.setWidth 64

/-- The extended bits, read as a signed word. -/
def word (c : Const) : Int := c.extended.toInt

/-- Whether a conditional jump takes the constant for zero; both zero doubles are. -/
def isZero (c : Const) : Bool :=
  match c.toBinary64? with
  | some x => x.isZero
  | none => c.bits == 0

/-- Whether an integer is a value of the given type.  No integer is a value of type double. -/
def fits (t : ScalarType) (v : Int) : Bool := (ofInt t v).toInt? == some v

/-- The text of a constant: suffixes tell the integer types apart where the digits do not. -/
def text (c : Const) : String :=
  match c.type with
  | .char | .schar | .int => toString c.word
  | .uchar => toString c.bits.toNat ++ "u8"
  | .uint => toString c.bits.toNat ++ "u"
  | .long => toString c.word ++ "l"
  | .ulong => toString c.bits.toNat ++ "ul"
  | .pointer => "ptr(0x" ++ String.ofList (Nat.toDigits 16 c.bits.toNat) ++ ")"
  | .double => (Binary64.ofBits (c.bits.setWidth 64)).text

@[simp] theorem ofInt_type (t : ScalarType) (v : Int) : (ofInt t v).type = t := by
  cases t <;> rfl

@[simp] theorem zero_type (t : ScalarType) : (zero t).type = t := rfl

@[simp] theorem ofBinary64_type (x : Binary64) : (ofBinary64 x).type = .double := rfl

@[simp] theorem toBinary64?_ofBinary64 (x : Binary64) : (ofBinary64 x).toBinary64? = some x := rfl

end Const

end ThreeAddress
