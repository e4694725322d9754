import ThreeAddress.Binary64.Basic

/-!
# Shortest decimals

The decimal with the fewest significant digits among those that read back as a given binary64
number.  The numbers that read back as `m * 2 ^ e` form an interval around it, whose ends
belong to it exactly when `m` is even.  For one, two, … digits the two neighbours of the number
on that decimal grid are tested against the interval, in exact arithmetic; the first grid with
a hit wins, and of two hits the nearer.
-/

namespace ThreeAddress

attribute [local instance (high)] instPowNat

/-- The number `digits * 10 ^ exponent`. -/
structure Decimal where
  digits : Nat
  exponent : Int
  deriving DecidableEq, Repr

namespace Decimal

/-- A positive number with the interval of numbers that round to it, as numerators over one
denominator. -/
structure Neighbourhood where
  low : Nat
  value : Nat
  high : Nat
  denominator : Nat
  /-- Whether the ends of the interval round to the number too. -/
  closed : Bool

/-- The interval of numbers that round to `m * 2 ^ e`.  Below a power of two the next number is
only half as far away, unless the exponent is already the least one. -/
def neighbourhood (m : Nat) (e : Int) : Neighbourhood :=
  let scaleUp := 2 ^ e.toNat
  let below := if m = 2 ^ (52 : Nat) && decide (Binary64.leastExponent < e) then 1 else 2
  { low := (4 * m - below) * scaleUp
    value := 4 * m * scaleUp
    high := (4 * m + 2) * scaleUp
    denominator := 4 * 2 ^ (-e).toNat
    closed := m % 2 == 0 }

/-- Whether `d * 10 ^ k` lies in the interval. -/
def Neighbourhood.contains (n : Neighbourhood) (d : Nat) (k : Int) : Bool :=
  let point := d * 10 ^ k.toNat * n.denominator
  let unit := 10 ^ (-k).toNat
  if n.closed then n.low * unit ≤ point && point ≤ n.high * unit
  else n.low * unit < point && point < n.high * unit

/-- The grid point of `10 ^ k` that reads back and is nearest to the number, if there is one.
Of two equally near points the greater is taken. -/
def Neighbourhood.onGrid? (n : Neighbourhood) (k : Int) : Option Nat :=
  let numerator := n.value * 10 ^ (-k).toNat
  let denominator := n.denominator * 10 ^ k.toNat
  let floor := numerator / denominator
  let rest := numerator % denominator
  match n.contains floor k, n.contains (floor + 1) k with
  | true, true => some (if 2 * rest < denominator then floor else floor + 1)
  | true, false => some floor
  | false, true => some (floor + 1)
  | false, false => none

/-- The least power of ten above the number, found by counting up from an estimate that is
never too large. -/
def Neighbourhood.magnitude (n : Neighbourhood) : Nat → Int → Int
  | 0, k => k
  | fuel + 1, k =>
    if n.value * 10 ^ (-k).toNat < n.denominator * 10 ^ k.toNat then k
    else n.magnitude fuel (k + 1)

/-- Divides out factors of ten. -/
def stripZeros : Nat → Decimal → Decimal
  | 0, d => d
  | fuel + 1, d =>
    if d.digits % 10 = 0 then stripZeros fuel ⟨d.digits / 10, d.exponent + 1⟩ else d

/-- Tries the grids `10 ^ k`, `10 ^ (k - 1)`, … and takes the first hit. -/
def Neighbourhood.search (n : Neighbourhood) : Nat → Int → Decimal
  | 0, k => ⟨n.value * 10 ^ (-k).toNat / (n.denominator * 10 ^ k.toNat), k⟩
  | fuel + 1, k =>
    match n.onGrid? k with
    | some d => ⟨d, k⟩
    | none => n.search fuel (k - 1)

/-- The shortest decimal that reads back as the positive number `m * 2 ^ e`.  Seventeen digits
always suffice. -/
def shortest (m : Nat) (e : Int) : Decimal :=
  let n := neighbourhood m e
  -- The number lies between `2 ^ x` and `2 ^ (x + 1)` for `x = e + log2 m`, and a power of two
  -- has close to `0.30102` decimal digits per bit.
  let estimate := (e + m.log2) * 30102 / 100000 - 1
  let k := n.magnitude 8 estimate
  stripZeros 17 (n.search 17 (k - 1))

end Decimal

end ThreeAddress
