import ThreeAddress.Decimal.Shortest

/-!
# Writing doubles

The text of a binary64 number: its shortest decimal, written positionally for moderate sizes
and with an exponent for very large and very small numbers.  A positional text always has a
fraction, so that a double is never mistaken for an integer.
-/

namespace ThreeAddress

namespace Decimal

/-- How numbers are written.  A number whose decimal point stands after `p` digits is written
positionally when `lowPoint < p ≤ highPoint`. -/
structure Style where
  lowPoint : Int
  highPoint : Int
  /-- Ends a positional text that has no fraction of its own. -/
  wholeEnding : String
  exponentMark : String
  nan : String
  infinity : String
  zero : String

def digitsOf (n : Nat) : List Char := Nat.toDigits 10 n

/-- The number of digits before the decimal point; negative if zeros follow the point. -/
def point (d : Decimal) : Int := d.exponent + (digitsOf d.digits).length

/-- Digits with the decimal point in its place, and no exponent. -/
def positional (n : Style) (d : Decimal) : String :=
  let ds := digitsOf d.digits
  let p := d.point
  if p ≤ 0 then "0." ++ String.ofList (List.replicate (-p).toNat '0' ++ ds)
  else if ds.length ≤ p.toNat then
    String.ofList (ds ++ List.replicate (p.toNat - ds.length) '0') ++ n.wholeEnding
  else String.ofList (ds.take p.toNat) ++ "." ++ String.ofList (ds.drop p.toNat)

/-- One digit before the point, and a power of ten. -/
def scientific (n : Style) (d : Decimal) : String :=
  let ds := digitsOf d.digits
  let fraction := match ds.drop 1 with
    | [] => ""
    | rest => "." ++ String.ofList rest
  String.ofList (ds.take 1) ++ fraction ++ n.exponentMark ++ toString (d.point - 1)

def write (n : Style) (d : Decimal) : String :=
  if n.lowPoint < d.point ∧ d.point ≤ n.highPoint then positional n d else scientific n d

end Decimal

namespace Binary64

/-- Numbers from `0.0001` up to, but not including, `1e16` are written positionally. -/
def style : Decimal.Style where
  lowPoint := -4
  highPoint := 16
  wholeEnding := ".0"
  exponentMark := "e"
  nan := "NaN"
  infinity := "inf"
  zero := "0.0"

def text (x : Binary64) : String :=
  let sign := fun (negative : Bool) (s : String) => if negative then "-" ++ s else s
  match x.unpack with
  | .nan => style.nan
  | .infinite n => sign n style.infinity
  | .finite n 0 _ => sign n style.zero
  | .finite n m e => sign n (Decimal.write style (Decimal.shortest m e))

end Binary64

end ThreeAddress
