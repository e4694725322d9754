import ThreeAddress.Binary64.Rounding

/-!
# Binary64 arithmetic

Addition, subtraction, multiplication and division: the exact result, rounded once.  A NaN
operand is passed on as a quiet NaN, the first one if both are; an operation on numbers that
has no result yields `Binary64.indefinite`.
-/

namespace ThreeAddress

attribute [local instance (high)] instPowNat

namespace Binary64

/-- The NaN produced by an operation such as `0 / 0`: negative and quiet, with an empty
payload. -/
def indefinite : Binary64 := ofBits 0xfff8000000000000#64

/-- The quiet form of a NaN keeps its sign and payload. -/
def quiet (x : Binary64) : Binary64 := ofBits (x.bits ||| BitVec.ofNat 64 (2 ^ (51 : Nat)))

/-- The NaN that an operation on `x` and `y` passes on, if one of them is a NaN. -/
def propagatedNaN? (x y : Binary64) : Option Binary64 :=
  if x.isNaN then some x.quiet
  else if y.isNaN then some y.quiet
  else none

/-- The integer `± m`. -/
def signedNat (negative : Bool) (m : Nat) : Int := if negative then -(m : Int) else m

/-- The sum of two numbers that are not NaNs.  Finite summands are brought to the smaller of
their exponents.  An exact zero is negative only if both summands are. -/
def addUnpacked : Unpacked → Unpacked → Binary64
  | .finite n₁ m₁ e₁, .finite n₂ m₂ e₂ =>
    let e := min e₁ e₂
    let sum := signedNat n₁ (m₁ * 2 ^ (e₁ - e).toNat) + signedNat n₂ (m₂ * 2 ^ (e₂ - e).toNat)
    if sum = 0 then ofMagnitude (n₁ && n₂) 0
    else ofDyadic (sum < 0) sum.natAbs e
  | .infinite n₁, .infinite n₂ => if n₁ = n₂ then infinity n₁ else indefinite
  | .infinite n, _ => infinity n
  | _, .infinite n => infinity n
  | _, _ => indefinite

def add (x y : Binary64) : Binary64 :=
  (propagatedNaN? x y).getD (addUnpacked x.unpack y.unpack)

def Unpacked.neg : Unpacked → Unpacked
  | .nan => .nan
  | .infinite n => .infinite (!n)
  | .finite n m e => .finite (!n) m e

def sub (x y : Binary64) : Binary64 :=
  (propagatedNaN? x y).getD (addUnpacked x.unpack y.unpack.neg)

/-- The product of two numbers that are not NaNs. -/
def mulUnpacked : Unpacked → Unpacked → Binary64
  | .finite n₁ m₁ e₁, .finite n₂ m₂ e₂ => ofDyadic (n₁ != n₂) (m₁ * m₂) (e₁ + e₂)
  | .infinite n₁, .infinite n₂ => infinity (n₁ != n₂)
  | .infinite n₁, .finite n₂ m _ => if m = 0 then indefinite else infinity (n₁ != n₂)
  | .finite n₁ m _, .infinite n₂ => if m = 0 then indefinite else infinity (n₁ != n₂)
  | _, _ => indefinite

def mul (x y : Binary64) : Binary64 :=
  (propagatedNaN? x y).getD (mulUnpacked x.unpack y.unpack)

/-- The datum nearest to `± (m₁ / m₂) * 2 ^ e`, for `m₂ ≠ 0`.  The quotient is taken to more bits
than a significand has, and one more bit records whether the division left a rest; that bit
never changes which neighbour is nearest except by breaking a tie. -/
def ofQuotient (negative : Bool) (m₁ m₂ : Nat) (e : Int) : Binary64 :=
  let scale := m₂.log2 + 56
  let quotient := m₁ * 2 ^ scale / m₂
  let rest := m₁ * 2 ^ scale % m₂
  ofDyadic negative (2 * quotient + if rest = 0 then 0 else 1) (e - scale - 1)

/-- The quotient of two numbers that are not NaNs. -/
def divUnpacked : Unpacked → Unpacked → Binary64
  | .finite n₁ m₁ e₁, .finite n₂ m₂ e₂ =>
    if m₂ = 0 then (if m₁ = 0 then indefinite else infinity (n₁ != n₂))
    else ofQuotient (n₁ != n₂) m₁ m₂ (e₁ - e₂)
  | .infinite _, .infinite _ => indefinite
  | .infinite n₁, .finite n₂ _ _ => infinity (n₁ != n₂)
  | .finite n₁ _ _, .infinite n₂ => ofMagnitude (n₁ != n₂) 0
  | _, _ => indefinite

def div (x y : Binary64) : Binary64 :=
  (propagatedNaN? x y).getD (divUnpacked x.unpack y.unpack)

end Binary64

end ThreeAddress
