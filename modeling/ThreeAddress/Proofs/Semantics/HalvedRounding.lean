import Mathlib.Algebra.Group.Nat.Defs
import Mathlib.Data.Nat.Log
import ThreeAddress.Binary64.Arithmetic

/-!
# Rounding through a halved number

A number that is too large for a conversion can be halved first and doubled after it.  The bit that
the halving shifts out must not get lost, because it may decide which way is rounded.  It is kept in
the lowest bit, where it only says that there was something.
-/

namespace ThreeAddress

variable {n : Nat}

/-- Half of a number, with the bit that is shifted out in the lowest place. -/
def halved (n : Nat) : Nat := n / 2 ||| n % 2

theorem halved_eq (n : Nat) : halved n = if n % 2 = 0 then n / 2 else 2 * (n / 4) + 1 := by
  unfold halved
  rcases Nat.mod_two_eq_zero_or_one n with h | h
  · rw [h, Nat.or_zero, if_pos rfl]
  · rw [h, if_neg (by decide)]
    have hdiv : (n / 2 ||| 1) / 2 = n / 2 / 2 := by
      rw [Nat.or_div_two, Nat.or_zero]
    have hmod : (n / 2 ||| 1) % 2 = 1 := by
      rw [Nat.or_mod_two_eq_one]
      exact .inr rfl
    omega

/-- A number in the upper half of the unsigned range and its half are rounded to the same
significand. -/
theorem roundShift_halved (n : Nat) : roundShift (halved n) 10 = roundShift n 11 := by
  have hquotient : halved n / 2 ^ 10 = n / 2 ^ 11 := by
    rw [halved_eq]
    split <;> omega
  -- The rest of an odd number is never a half, and keeping a bit does not make it one.
  have hbelow : 2 * (halved n % 2 ^ 10) < 2 ^ 10 ↔ 2 * (n % 2 ^ 11) < 2 ^ 11 := by
    rw [halved_eq]
    split <;> omega
  have habove : 2 ^ 10 < 2 * (halved n % 2 ^ 10) ↔ 2 ^ 11 < 2 * (n % 2 ^ 11) := by
    rw [halved_eq]
    split <;> omega
  simp only [roundShift, hquotient, hbelow, habove]

/-- A number is rounded down or up, and to an even quotient from the middle. -/
theorem roundShift_cases (n k : Nat) : (roundShift n k = n / 2 ^ k ∧ 2 * (n % 2 ^ k) ≤ 2 ^ k ∨
      roundShift n k = n / 2 ^ k + 1 ∧ 2 ^ k ≤ 2 * (n % 2 ^ k)) ∧
    (2 * (n % 2 ^ k) = 2 ^ k → roundShift n k % 2 = 0) := by
  simp only [roundShift]
  split
  · omega
  · split
    · omega
    · rcases Nat.mod_two_eq_zero_or_one (n / 2 ^ k) with h | h <;> omega

/-- A significand may be rounded up to the next power of two. -/
theorem roundShift_bounds {k : Nat} (hlower : 2 ^ (52 + k) ≤ n) (hupper : n < 2 ^ (53 + k)) :
    2 ^ 52 ≤ n / 2 ^ k ∧ 2 ^ 52 ≤ roundShift n k ∧ roundShift n k ≤ 2 ^ 53 := by
  have hge : 2 ^ 52 ≤ n / 2 ^ k := by
    rwa [Nat.le_div_iff_mul_le (Nat.two_pow_pos k), ← Nat.pow_add]
  have hlt : n / 2 ^ k < 2 ^ 53 := by
    rwa [Nat.div_lt_iff_lt_mul (Nat.two_pow_pos k), ← Nat.pow_add]
  rcases (roundShift_cases n k).1 with ⟨h, -⟩ | ⟨h, -⟩ <;> omega

namespace Binary64

theorem magnitude_ofMagnitude (h : n < 2 ^ 63) : (ofMagnitude false n).magnitude = n := by
  simp only [magnitude, ofMagnitude, Bool.false_eq_true, if_false, Nat.add_zero, BitVec.toNat_ofNat]
  omega

theorem isNegative_ofMagnitude (h : n < 2 ^ 63) : (ofMagnitude false n).isNegative = false := by
  simp only [isNegative, ofMagnitude, Bool.false_eq_true, if_false, Nat.add_zero,
    BitVec.msb_eq_decide, BitVec.toNat_ofNat, decide_eq_false_iff_not]
  omega

theorem unpack_ofMagnitude {field fraction : Nat} (hpos : 0 < field) (hfield : field < 2047)
    (hfraction : fraction < 2 ^ 52) :
    (ofMagnitude false (field * 2 ^ 52 + fraction)).unpack =
      .finite false (2 ^ 52 + fraction) (leastExponent + field - 1) := by
  have hmagnitude := magnitude_ofMagnitude (show field * 2 ^ 52 + fraction < 2 ^ 63 by omega)
  have hsign := isNegative_ofMagnitude (show field * 2 ^ 52 + fraction < 2 ^ 63 by omega)
  have hnan : (ofMagnitude false (field * 2 ^ 52 + fraction)).isNaN = false := by
    rw [isNaN, decide_eq_false_iff_not, infiniteMagnitude]
    omega
  have hdiv : (field * 2 ^ 52 + fraction) / 2 ^ 52 = field := by omega
  have hmod : (field * 2 ^ 52 + fraction) % 2 ^ 52 = fraction := by omega
  simp only [unpack, hnan, hmagnitude, hsign, hdiv, hmod, Bool.false_eq_true, if_false]
  rw [if_neg (by rw [infiniteMagnitude]; omega), if_neg (by omega)]

theorem ofDyadic_of_le {m k : Nat} {e : Int} (hk : 0 < k) (hlower : 2 ^ (52 + k) ≤ m)
    (hupper : m < 2 ^ (53 + k)) (he : leastExponent ≤ e + k) :
    ofDyadic false m e = ofMagnitude false
      (min ((e + k - leastExponent).toNat * 2 ^ 52 + roundShift m k) infiniteMagnitude) := by
  have hm : m ≠ 0 := by
    have := Nat.two_pow_pos (52 + k)
    omega
  have hlog : m.log2 = 52 + k := (Nat.log2_eq_iff hm).mpr ⟨hlower, by rwa [Nat.add_right_comm]⟩
  have hgrid : gridExponent m e = e + k := by
    rw [gridExponent]
    omega
  simp only [ofDyadic, hgrid]
  rw [if_neg hm, if_neg (by omega), show (e + k - e).toNat = k by omega]

/-- Doubling a normal number adds one to its exponent. -/
theorem add_ofMagnitude_self (field fraction : Nat) (hpos : 0 < field) (hfield : field < 2046)
    (hfraction : fraction < 2 ^ 52) :
    add (ofMagnitude false (field * 2 ^ 52 + fraction))
        (ofMagnitude false (field * 2 ^ 52 + fraction)) =
      ofMagnitude false ((field + 1) * 2 ^ 52 + fraction) := by
  have hnan : (ofMagnitude false (field * 2 ^ 52 + fraction)).isNaN = false := by
    rw [isNaN, magnitude_ofMagnitude (by omega), decide_eq_false_iff_not, infiniteMagnitude]
    omega
  have hsum : signedNat false ((2 ^ 52 + fraction) * 2 ^ 0) +
      signedNat false ((2 ^ 52 + fraction) * 2 ^ 0) = ((2 * (2 ^ 52 + fraction) : Nat)) := by
    simp only [signedNat, Bool.false_eq_true, if_false]
    omega
  have hround : roundShift (2 * (2 ^ 52 + fraction)) 1 = 2 ^ 52 + fraction := by
    simp only [roundShift]
    split <;> omega
  rw [add, propagatedNaN?, hnan, if_neg (by decide), if_neg (by decide), Option.getD_none,
    unpack_ofMagnitude hpos (by omega) hfraction]
  simp only [addUnpacked, Int.min_self, Int.sub_self, Int.toNat_zero]
  rw [hsum, if_neg (by omega), decide_eq_false (by omega), Int.natAbs_natCast,
    ofDyadic_of_le (k := 1) (by decide) (by omega) (by omega) (by omega)]
  congr 1
  rw [infiniteMagnitude]
  omega

theorem ofInt_of_le {k : Nat} (hk : 0 < k) (hlower : 2 ^ (52 + k) ≤ n) (hupper : n < 2 ^ (53 + k)) :
    ofInt n = ofMagnitude false (min ((k + 1074) * 2 ^ 52 + roundShift n k) infiniteMagnitude) := by
  rw [ofInt, decide_eq_false (by omega), Int.natAbs_natCast,
    ofDyadic_of_le hk hlower hupper (by rw [leastExponent]; omega)]
  congr 4
  rw [leastExponent]
  omega

/-- An integer in the upper half of the unsigned range can be halved, converted and doubled. -/
theorem add_ofInt_halved (hlower : 2 ^ 63 ≤ n) (hupper : n < 2 ^ 64) :
    add (ofInt (halved n)) (ofInt (halved n)) = ofInt n := by
  have hhalved : 2 ^ 62 ≤ halved n ∧ halved n < 2 ^ 63 := by
    rw [halved_eq]
    split <;> omega
  -- A significand that is rounded up to the next power of two carries into the exponent.
  have hsignificand := (roundShift_bounds (k := 11) hlower hupper).2
  rw [ofInt_of_le (k := 11) (by decide) hlower hupper,
    ofInt_of_le (k := 10) (by decide) hhalved.1 hhalved.2, roundShift_halved]
  generalize roundShift n 11 = s at hsignificand
  rw [infiniteMagnitude, Nat.min_eq_left (by omega), Nat.min_eq_left (by omega)]
  by_cases hs : s < 2 ^ 53
  · have hsum := add_ofMagnitude_self 1085 (s - 2 ^ 52) (by decide) (by decide) (by omega)
    rwa [show 1085 * 2 ^ 52 + (s - 2 ^ 52) = (10 + 1074) * 2 ^ 52 + s by omega,
      show (1085 + 1) * 2 ^ 52 + (s - 2 ^ 52) = (11 + 1074) * 2 ^ 52 + s by omega] at hsum
  · have hmax : s = 2 ^ 53 := by omega
    subst hmax
    exact add_ofMagnitude_self 1086 0 (by decide) (by decide) (by decide)

end Binary64

end ThreeAddress
