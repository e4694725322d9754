/-!
# Scalar types

The nine types a value of three-address code can have, with their storage width and
signedness.  Pointers are unsigned 64-bit words that do not count as integers, and a double is
the only type whose bits are not read as an integer.
-/

namespace ThreeAddress

inductive ScalarType where
  | char
  | schar
  | uchar
  | int
  | uint
  | long
  | ulong
  | double
  | pointer
  deriving DecidableEq, Repr, Inhabited

namespace ScalarType

/-- Every scalar type, in the order in which the types are listed. -/
def all : List ScalarType :=
  [char, schar, uchar, int, uint, long, ulong, double, pointer]

def size : ScalarType → Nat
  | char | schar | uchar => 1
  | int | uint => 4
  | long | ulong | double | pointer => 8

def width (t : ScalarType) : Nat := 8 * t.size

/-- Whether the bits of a value are read in two's complement. -/
def isSigned : ScalarType → Bool
  | char | schar | int | long => true
  | _ => false

/-- Doubles and pointers are not integers. -/
def isInteger : ScalarType → Bool
  | double | pointer => false
  | _ => true

def isDouble (t : ScalarType) : Bool := t == double

def name : ScalarType → String
  | char => "char"
  | schar => "schar"
  | uchar => "uchar"
  | int => "int"
  | uint => "uint"
  | long => "long"
  | ulong => "ulong"
  | double => "double"
  | pointer => "ptr"

theorem isDouble_iff (t : ScalarType) : t.isDouble = true ↔ t = double := by
  cases t <;> decide

theorem width_pos (t : ScalarType) : 0 < t.width := by
  cases t <;> decide

theorem width_le (t : ScalarType) : t.width ≤ 64 := by
  cases t <;> decide

end ScalarType

end ThreeAddress
