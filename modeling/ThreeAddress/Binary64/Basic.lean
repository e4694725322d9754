/-!
# Binary64 numbers

An IEEE 754 binary64 datum is kept as its 64 bits, so two data are equal exactly when their
bits are.  `Binary64.unpack` reads the bits as a sign, a natural significand and a power of
two; the numeric order is read off the bits without unpacking.
-/

namespace ThreeAddress

attribute [local instance (high)] instPowNat

structure Binary64 where
  ofBits ::
  /-- Sign bit, eleven exponent bits, fifty-two fraction bits. -/
  bits : BitVec 64
  deriving DecidableEq, Repr, Inhabited

namespace Binary64

/-- What the bits of a datum stand for.  A finite number is `± significand * 2 ^ exponent`. -/
inductive Unpacked where
  | nan
  | infinite (negative : Bool)
  | finite (negative : Bool) (significand : Nat) (exponent : Int)
  deriving DecidableEq, Repr

/-- The sign bit. -/
def isNegative (x : Binary64) : Bool := x.bits.msb

/-- The bits below the sign bit, which order the magnitudes. -/
def magnitude (x : Binary64) : Nat := x.bits.toNat % 2 ^ (63 : Nat)

/-- The magnitude of an infinity; every greater one belongs to a NaN. -/
def infiniteMagnitude : Nat := 0x7ff * 2 ^ (52 : Nat)

def ofMagnitude (negative : Bool) (magnitude : Nat) : Binary64 :=
  ofBits (BitVec.ofNat 64 (magnitude + if negative then 2 ^ (63 : Nat) else 0))

def zero : Binary64 := ofBits 0#64

def negativeZero : Binary64 := ofMagnitude true 0

def infinity (negative : Bool) : Binary64 := ofMagnitude negative infiniteMagnitude

def isNaN (x : Binary64) : Bool := infiniteMagnitude < x.magnitude

/-- Both zeros count as zero. -/
def isZero (x : Binary64) : Bool := x.magnitude == 0

/-- The smallest positive number is `2 ^ leastExponent`. -/
def leastExponent : Int := -1074

/-- The number the bits denote.  A zero exponent field marks a subnormal number, which has no
implicit leading bit. -/
def unpack (x : Binary64) : Unpacked :=
  let field : Nat := x.magnitude / 2 ^ (52 : Nat)
  let fraction : Nat := x.magnitude % 2 ^ (52 : Nat)
  if x.isNaN then .nan
  else if x.magnitude = infiniteMagnitude then .infinite x.isNegative
  else if field = 0 then .finite x.isNegative fraction leastExponent
  else .finite x.isNegative (2 ^ (52 : Nat) + fraction) (leastExponent + field - 1)

/-- Flips the sign bit, also of a NaN. -/
def neg (x : Binary64) : Binary64 := ofBits (x.bits ^^^ BitVec.ofNat 64 (2 ^ (63 : Nat)))

/-! ### Comparison -/

/-- The place of a datum that is not a NaN in the numeric order; both zeros are at `0`. -/
def rank (x : Binary64) : Int :=
  if x.isNegative then -(x.magnitude : Int) else x.magnitude

/-- Two data can be compared unless one of them is a NaN. -/
def ordered (x y : Binary64) : Bool := !x.isNaN && !y.isNaN

def eq (x y : Binary64) : Bool := ordered x y && x.rank == y.rank

def lt (x y : Binary64) : Bool := ordered x y && decide (x.rank < y.rank)

def le (x y : Binary64) : Bool := ordered x y && decide (x.rank ≤ y.rank)

end Binary64

end ThreeAddress
