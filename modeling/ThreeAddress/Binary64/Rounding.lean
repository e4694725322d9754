import ThreeAddress.Binary64.Basic

/-!
# Rounding to binary64

Every operation on doubles computes an exact dyadic number `m * 2 ^ e` and rounds it once, to
the nearest representable number and to the one with an even significand if two are equally
near.
-/

namespace ThreeAddress

attribute [local instance (high)] instPowNat

/-- The integer nearest to `m / 2 ^ k`; a half goes to the even neighbour. -/
def roundShift (m k : Nat) : Nat :=
  let quotient := m / 2 ^ k
  let rest := m % 2 ^ k
  if 2 * rest < 2 ^ k then quotient
  else if 2 ^ k < 2 * rest then quotient + 1
  else quotient + quotient % 2

namespace Binary64

/-- The power of two that a datum near `m * 2 ^ e` is a multiple of: fifty-three significant
bits, unless that falls below the least exponent. -/
def gridExponent (m : Nat) (e : Int) : Int :=
  max (e + m.log2 - 52) leastExponent

/-- The datum nearest to `± m * 2 ^ e`.  The significand and the exponent field are added, so a
significand that rounds up to `2 ^ 53` carries into the exponent. -/
def ofDyadic (negative : Bool) (m : Nat) (e : Int) : Binary64 :=
  if m = 0 then ofMagnitude negative 0
  else
    let grid := gridExponent m e
    let significand :=
      if grid ≤ e then m * 2 ^ (e - grid).toNat else roundShift m (grid - e).toNat
    let magnitude := (grid - leastExponent).toNat * 2 ^ (52 : Nat) + significand
    ofMagnitude negative (min magnitude infiniteMagnitude)

/-- The datum nearest to an integer. -/
def ofInt (v : Int) : Binary64 := ofDyadic (v < 0) v.natAbs 0

/-- A finite number without its fraction, as an integer.  There is none for NaN and infinity. -/
def truncate? (x : Binary64) : Option Int :=
  match x.unpack with
  | .finite negative m e =>
    let whole := if 0 ≤ e then m * 2 ^ e.toNat else m / 2 ^ (-e).toNat
    some (if negative then -(whole : Int) else whole)
  | _ => none

end Binary64

end ThreeAddress
