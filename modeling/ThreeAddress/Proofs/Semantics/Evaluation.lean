import Mathlib.Data.BitVec
import ThreeAddress.Const.Arithmetic
import ThreeAddress.Verification.Check

/-!
# Run-time arithmetic

What the operators do at run time: two's complement arithmetic on the bits of integers and
pointers, binary64 arithmetic on doubles.  An operation that is undefined has no result.

The optimiser computes with constants in another way, exactly and with a wrap-around at the end.
-/

namespace ThreeAddress

open ScalarType Option

variable {d : Const}
variable {a b : Const} {conversion : Conversion}

/-! ### Operators -/

/-- The low bits of a constant, at another type.  A constant of this type is not changed. -/
def Const.as (c : Const) (t : ScalarType) : Const := ⟨t, c.bits.setWidth t.width⟩

def UnaryOp.eval (op : UnaryOp) (c : Const) : Option Const :=
  match op with
  | .not => some (.ofBool c.isZero)
  | .negate =>
    match c.toBinary64? with
    | some x => some (.ofBinary64 x.neg)
    | none => some ⟨c.type, -c.bits⟩
  | .complement => if c.type.isDouble then none else some ⟨c.type, ~~~c.bits⟩

/-- A quotient is undefined if the divisor is zero, or if it is the one signed quotient that is out
of range. -/
def isUndefinedQuotient (signed : Bool) {w : Nat} (x y : BitVec w) : Bool :=
  y == 0#w || (signed && x == BitVec.intMin w && y == -1#w)

/-- The operators that are neither comparisons nor shifts, on bits. -/
def BinaryOp.evalBits (op : BinaryOp) (signed : Bool) {w : Nat} (x y : BitVec w) :
    Option (BitVec w) :=
  match op with
  | .add => some (x + y)
  | .subtract => some (x - y)
  | .multiply => some (x * y)
  | .divide =>
    if isUndefinedQuotient signed x y then none
    else some (if signed then x.sdiv y else x.udiv y)
  | .remainder =>
    if isUndefinedQuotient signed x y then none
    else some (if signed then x.srem y else x.umod y)
  | .bitAnd => some (x &&& y)
  | .bitOr => some (x ||| y)
  | .bitXor => some (x ^^^ y)
  | _ => none

def BinaryOp.compareBits (op : BinaryOp) (signed : Bool) {w : Nat} (x y : BitVec w) : Bool :=
  match op with
  | .equal => x == y
  | .notEqual => x != y
  | .lessThan => if signed then x.slt y else x.ult y
  | .lessOrEqual => if signed then x.sle y else x.ule y
  | .greaterThan => if signed then y.slt x else y.ult x
  | .greaterOrEqual => if signed then y.sle x else y.ule x
  | _ => false

/-- The shifts, on bits.  A signed value is shifted to the right with copies of its sign. -/
def BinaryOp.shiftBits (op : BinaryOp) (signed : Bool) {w : Nat} (x : BitVec w) (n : Nat) :
    BitVec w :=
  match op with
  | .shiftLeft => x <<< n
  | _ => if signed then x.sshiftRight n else x >>> n

/-- A binary operator on integers and pointers.  It acts at the type of its left operand.  A shift
is undefined unless its count is at least zero and less than the width. -/
def BinaryOp.evalInteger (op : BinaryOp) (a b : Const) : Option Const :=
  if op.isShift then
    b.toInt?.bind fun n =>
      if n < 0 ∨ a.type.width ≤ n then none
      else some ⟨a.type, op.shiftBits a.type.isSigned a.bits n.toNat⟩
  else if op.isComparison then
    some (.ofBool (op.compareBits a.type.isSigned a.bits (b.bits.setWidth a.type.width)))
  else (op.evalBits a.type.isSigned a.bits (b.bits.setWidth a.type.width)).map (Const.mk a.type)

def BinaryOp.eval (op : BinaryOp) (a b : Const) : Option Const :=
  match a.toBinary64?, b.toBinary64? with
  | some x, some y => Const.binaryDouble? op x y
  | none, none => op.evalInteger a b
  | _, _ => none

/-- A conversion at run time.  A double that is converted to an integer must be in its range. -/
def Conversion.eval (conversion : Conversion) (c : Const) (t : ScalarType) : Option Const :=
  match conversion with
  | .signExtend => some ⟨t, c.bits.signExtend t.width⟩
  | .zeroExtend | .truncate => some (c.as t)
  | .intToDouble | .uintToDouble => c.toInt?.map fun v => .ofBinary64 (Binary64.ofInt v)
  | .doubleToInt | .doubleToUInt =>
    (c.toBinary64?.bind Binary64.truncate?).bind fun v =>
      if Const.fits t v then some ⟨t, BitVec.ofInt t.width v⟩ else none

namespace Const

variable {c : Const} {t : ScalarType}

/-! ### Values and bits -/

@[simp] theorem as_type (c : Const) (t : ScalarType) : (c.as t).type = t := rfl

@[simp] theorem as_self (c : Const) : c.as c.type = c := by
  simp [as]

theorem as_eq_self (h : c.type = t) : c.as t = c := by
  subst h
  exact c.as_self

theorem as_as_self (c : Const) (t : ScalarType) : (c.as t).as t = c.as t := as_eq_self rfl

theorem toBinary64?_eq_none_iff : c.toBinary64? = none ↔ c.type ≠ .double := by
  obtain ⟨t, bits⟩ := c
  cases t <;> simp [toBinary64?]

theorem toBinary64?_of_double (h : c.type = .double) : ∃ x, c.toBinary64? = some x := by
  obtain ⟨t, bits⟩ := c
  obtain rfl : t = .double := h
  exact ⟨_, rfl⟩

theorem ofInt_eq (h : t ≠ .double) (v : Int) : ofInt t v = ⟨t, BitVec.ofInt t.width v⟩ := by
  cases t <;> first | rfl | exact absurd rfl h

/-- The value of a constant that is not a double. -/
def value (c : Const) : Int := if c.type.isSigned then c.bits.toInt else c.bits.toNat

theorem toInt?_eq (h : c.type ≠ .double) : c.toInt? = some c.value := by
  simp [toInt?, h, value]

@[simp] theorem ofInt_value (c : Const) : BitVec.ofInt c.type.width c.value = c.bits := by
  unfold value
  cases c.type.isSigned <;> simp

theorem ofInt_value_of_le {w : Nat} (h : w ≤ c.type.width) :
    BitVec.ofInt w c.value = c.bits.setWidth w := by
  unfold value
  cases c.type.isSigned with
  | true => exact BitVec.signExtend_eq_setWidth_of_le c.bits h
  | false =>
    rw [if_neg (by simp), BitVec.ofInt_natCast, BitVec.ofNat_toNat]

theorem value_signed (h : c.type.isSigned = true) : c.value = c.bits.toInt := by
  simp [value, h]

theorem value_unsigned (h : c.type.isSigned = false) : c.value = c.bits.toNat := by
  simp [value, h]

theorem fits_iff (h : t ≠ .double) (v : Int) :
    fits t v = true ↔ (⟨t, BitVec.ofInt t.width v⟩ : Const).value = v := by
  rw [fits, ofInt_eq h, toInt?_eq h, beq_iff_eq, some.injEq]

theorem value_inj {x y : BitVec t.width} :
    (⟨t, x⟩ : Const).value = (⟨t, y⟩ : Const).value ↔ x = y := by
  constructor
  · intro h
    have := congrArg (BitVec.ofInt t.width) h
    rwa [ofInt_value ⟨t, x⟩, ofInt_value ⟨t, y⟩] at this
  · rintro rfl
    rfl

/-! ### Quotients -/

section

variable {t : ScalarType} {x y : BitVec t.width}

theorem value_eq_zero_iff : (⟨t, y⟩ : Const).value = 0 ↔ y = 0#t.width := by
  have hzero : (⟨t, 0#t.width⟩ : Const).value = 0 := by simp [value]
  rw [← hzero]
  exact value_inj

theorem ofInt_tdiv : BitVec.ofInt t.width ((⟨t, x⟩ : Const).value.tdiv (⟨t, y⟩ : Const).value) =
      if t.isSigned then x.sdiv y else x.udiv y := by
  cases hs : t.isSigned with
  | true =>
    rw [value_signed hs, value_signed hs, if_pos rfl, ← BitVec.toInt_inj, BitVec.toInt_ofInt,
      BitVec.toInt_sdiv]
  | false =>
    rw [value_unsigned hs, value_unsigned hs]
    refine BitVec.eq_of_toNat_eq ?_
    exact Nat.mod_eq_of_lt (lt_of_le_of_lt (Nat.div_le_self _ _) x.isLt)

theorem ofInt_tmod : BitVec.ofInt t.width ((⟨t, x⟩ : Const).value.tmod (⟨t, y⟩ : Const).value) =
      if t.isSigned then x.srem y else x.umod y := by
  cases hs : t.isSigned with
  | true =>
    rw [value_signed hs, value_signed hs, ← BitVec.toInt_srem, BitVec.ofInt_toInt, if_pos rfl]
  | false =>
    rw [value_unsigned hs, value_unsigned hs]
    refine BitVec.eq_of_toNat_eq ?_
    exact Nat.mod_eq_of_lt (lt_of_le_of_lt (Nat.mod_le _ _) x.isLt)

theorem undefined_quotient_iff (ht : t ≠ .double) : ((⟨t, y⟩ : Const).value = 0 ∨
      (!fits t ((⟨t, x⟩ : Const).value.tdiv (⟨t, y⟩ : Const).value)) = true) ↔
      isUndefinedQuotient t.isSigned x y = true := by
  by_cases hy : y = 0#t.width
  · simp [isUndefinedQuotient, hy, value_eq_zero_iff]
  have hvalue : (⟨t, y⟩ : Const).value ≠ 0 := fun h => hy (value_eq_zero_iff.mp h)
  rw [or_iff_right hvalue, Bool.not_eq_true', ← Bool.not_eq_true, fits_iff ht]
  rw [ofInt_tdiv]
  cases hs : t.isSigned with
  | false =>
    -- An unsigned quotient is not larger than what is divided.
    simp only [isUndefinedQuotient, hy, beq_iff_eq, Bool.false_and, Bool.or_false, if_false,
      Bool.false_eq_true, iff_false, not_not]
    rw [value_unsigned hs, value_unsigned hs, value_unsigned hs]
    exact Int.natCast_ediv _ _
  | true =>
    simp only [if_true, isUndefinedQuotient, beq_eq_false_iff_ne.mpr hy, Bool.false_or,
      Bool.true_and, Bool.and_eq_true, beq_iff_eq]
    rw [value_signed hs, value_signed hs, value_signed hs]
    constructor
    · intro hne
      by_contra hboth
      exact hne (BitVec.toInt_sdiv_of_ne_or_ne x y (not_and_or.mp hboth))
    · rintro ⟨rfl, rfl⟩ heq
      -- The quotient would be the least value with its sign changed, which no bits hold.
      have hlt := BitVec.toInt_lt (x := (BitVec.intMin t.width).sdiv (-1#t.width))
      have hmin : (BitVec.intMin t.width).toInt = -2 ^ (t.width - 1) := by
        cases t <;> decide
      have hneg : (-1#t.width).toInt = -1 := by
        rw [BitVec.neg_one_eq_allOnes, BitVec.toInt_allOnes, if_pos t.width_pos]
      rw [heq, hmin, hneg, Int.tdiv_neg, Int.tdiv_one, Int.neg_neg] at hlt
      exact lt_irrefl _ hlt

/-! ### Shifts and comparisons -/

theorem ofInt_shiftLeft (n : Nat) :
    BitVec.ofInt t.width ((⟨t, x⟩ : Const).value * 2 ^ n) = x <<< n := by
  have hpow : BitVec.ofInt t.width (2 ^ n) = .twoPow t.width n := by
    refine BitVec.eq_of_toNat_eq ?_
    rw [BitVec.toNat_twoPow]
    norm_cast
  rw [BitVec.ofInt_mul, ofInt_value ⟨t, x⟩, hpow, BitVec.shiftLeft_eq_mul_twoPow]

theorem ofInt_shiftRight (n : Nat) : BitVec.ofInt t.width ((⟨t, x⟩ : Const).value / 2 ^ n) =
      if t.isSigned then x.sshiftRight n else x >>> n := by
  cases hs : t.isSigned with
  | true =>
    have hpow : x.toInt / 2 ^ n = (x.sshiftRight n).toInt := by
      rw [BitVec.toInt_sshiftRight, Int.shiftRight_eq_div_pow]
      norm_cast
    rw [value_signed hs, hpow, BitVec.ofInt_toInt, if_pos rfl]
  | false =>
    rw [value_unsigned hs, if_neg (by simp)]
    refine BitVec.eq_of_toNat_eq ?_
    rw [BitVec.toNat_ushiftRight, Nat.shiftRight_eq_div_pow]
    exact Nat.mod_eq_of_lt (lt_of_le_of_lt (Nat.div_le_self _ _) x.isLt)

theorem value_lt_iff : (⟨t, x⟩ : Const).value < (⟨t, y⟩ : Const).value ↔
      (if t.isSigned then x.slt y else x.ult y) = true := by
  cases hs : t.isSigned with
  | true => rw [value_signed hs, value_signed hs, if_pos rfl, BitVec.slt_iff_toInt_lt]
  | false =>
    rw [value_unsigned hs, value_unsigned hs, if_neg (by simp), BitVec.ult_iff_toNat_lt]
    exact Int.ofNat_lt

theorem value_le_iff : (⟨t, x⟩ : Const).value ≤ (⟨t, y⟩ : Const).value ↔
      (if t.isSigned then x.sle y else x.ule y) = true := by
  cases hs : t.isSigned with
  | true => rw [value_signed hs, value_signed hs, if_pos rfl, BitVec.sle_iff_toInt_le]
  | false =>
    rw [value_unsigned hs, value_unsigned hs, if_neg (by simp), BitVec.ule_iff_toNat_le]
    exact Int.ofNat_le

end

/-! ### Constants are computed as they are at run time -/

theorem unary?_eq_eval (op : UnaryOp) (c : Const) : c.unary? op = op.eval c := by
  cases op with
  | not => rfl
  | negate =>
    unfold unary? UnaryOp.eval
    cases hd : c.toBinary64? with
    | some x => rfl
    | none =>
      have ht := toBinary64?_eq_none_iff.mp hd
      rw [toInt?_eq ht]
      simp only [ofInt_eq ht, BitVec.ofInt_neg, ofInt_value]
  | complement =>
    unfold unary? UnaryOp.eval
    cases hd : c.toBinary64? with
    | some x =>
      have ht : c.type = .double := by
        by_contra hne
        rw [toBinary64?_eq_none_iff.mpr hne] at hd
        cases hd
      simp [isDouble, ht]
    | none =>
      have ht := toBinary64?_eq_none_iff.mp hd
      have hbits : .ofInt c.type.width (-c.value - 1) = ~~~c.bits := by
        rw [Int.sub_eq_add_neg, BitVec.ofInt_add, BitVec.ofInt_neg, ofInt_value,
          BitVec.not_eq_neg_add, BitVec.sub_eq_add_neg, BitVec.ofInt_neg, BitVec.ofInt_ofNat]
      rw [toInt?_eq ht]
      simp [ofInt_eq ht, hbits, isDouble, ht]

section

variable {t : ScalarType} {x y : BitVec t.width} {op : BinaryOp}

theorem binaryInt?_shift (ht : t ≠ .double) (hop : op.isShift = true) (n : Int) :
    binaryInt? op t (⟨t, x⟩ : Const).value n =
      if n < 0 ∨ t.width ≤ n then none
      else some ⟨t, op.shiftBits t.isSigned x n.toNat⟩ := by
  cases op with
  | shiftLeft => simp only [binaryInt?, BinaryOp.shiftBits, ofInt_eq ht, ofInt_shiftLeft]
  | shiftRight => simp only [binaryInt?, BinaryOp.shiftBits, ofInt_eq ht, ofInt_shiftRight]
  | _ => cases hop

theorem binaryInt?_comparison (hop : op.isComparison = true) :
    binaryInt? op t (⟨t, x⟩ : Const).value (⟨t, y⟩ : Const).value =
      some (.ofBool (op.compareBits t.isSigned x y)) := by
  have heq : ((⟨t, x⟩ : Const).value == (⟨t, y⟩ : Const).value) = (x == y) := by
    rw [Bool.eq_iff_iff, beq_iff_eq, beq_iff_eq]
    exact value_inj
  cases op with
  | equal => simp only [binaryInt?, BinaryOp.compareBits, heq]
  | notEqual => simp only [binaryInt?, BinaryOp.compareBits, bne, heq]
  | lessThan | greaterThan =>
    simp only [binaryInt?, BinaryOp.compareBits, value_lt_iff, Bool.decide_eq_true]
  | lessOrEqual | greaterOrEqual =>
    simp only [binaryInt?, BinaryOp.compareBits, value_le_iff, Bool.decide_eq_true]
  | _ => cases hop

theorem binaryInt?_arithmetic (ht : t ≠ .double) (hshift : op.isShift = false)
    (hcomparison : op.isComparison = false) :
    binaryInt? op t (⟨t, x⟩ : Const).value (⟨t, y⟩ : Const).value =
      (op.evalBits t.isSigned x y).map (Const.mk t) := by
  have hx := ofInt_value ⟨t, x⟩
  have hy := ofInt_value ⟨t, y⟩
  cases op with
  | add | multiply =>
    simp only [binaryInt?, BinaryOp.evalBits, ofInt_eq ht, BitVec.ofInt_add, BitVec.ofInt_mul, hx,
      hy, map_some]
  | subtract =>
    simp only [binaryInt?, BinaryOp.evalBits, ofInt_eq ht, Int.sub_eq_add_neg, BitVec.ofInt_add,
      BitVec.ofInt_neg, hx, hy, map_some, BitVec.sub_eq_add_neg]
  | bitAnd | bitOr | bitXor =>
    simp only [binaryInt?, binaryInt?.bitwise, BinaryOp.evalBits, hx, hy, map_some]
  | divide =>
    simp only [binaryInt?, BinaryOp.evalBits, undefined_quotient_iff ht, ofInt_eq ht, ofInt_tdiv]
    split <;> simp
  | remainder =>
    simp only [binaryInt?, BinaryOp.evalBits, undefined_quotient_iff ht, ofInt_eq ht, ofInt_tmod]
    split <;> simp
  | shiftLeft | shiftRight => cases hshift
  | _ => cases hcomparison

end

theorem binaryInt?_eq_evalInteger {op : BinaryOp} (ha : a.type ≠ .double) (hb : b.type ≠ .double)
    (htypes : op.isShift = true ∨ b.type = a.type) :
    binaryInt? op a.type a.value b.value = op.evalInteger a b := by
  unfold BinaryOp.evalInteger
  obtain ⟨t, x⟩ := a
  cases hshift : op.isShift with
  | true =>
    rw [toInt?_eq hb]
    exact binaryInt?_shift ha hshift b.value
  | false =>
    obtain ⟨u, y⟩ := b
    obtain rfl : u = t := htypes.resolve_left (by simp [hshift])
    rw [BitVec.setWidth_eq]
    cases hcomparison : op.isComparison with
    | true => exact binaryInt?_comparison hcomparison
    | false => exact binaryInt?_arithmetic ha hshift hcomparison

/-- Folding of a binary operator on operands that pass verification. -/
theorem binary?_eq_eval {op : BinaryOp} (htypes : op.isShift = true ∨ b.type = a.type) :
    binary? op a b = op.eval a b := by
  unfold binary? BinaryOp.eval
  by_cases ha : a.type = .double
  · obtain ⟨x, hx⟩ := toBinary64?_of_double ha
    by_cases hb : b.type = .double
    · obtain ⟨y, hy⟩ := toBinary64?_of_double hb
      rw [hx, hy]
    · rw [hx, toBinary64?_eq_none_iff.mpr hb]
      simp [toInt?, ha]
  · rw [toBinary64?_eq_none_iff.mpr ha, toInt?_eq ha]
    by_cases hb : b.type = .double
    · obtain ⟨y, hy⟩ := toBinary64?_of_double hb
      rw [hy]
      simp [toInt?, hb]
    · rw [toBinary64?_eq_none_iff.mpr hb, toInt?_eq hb]
      exact binaryInt?_eq_evalInteger ha hb htypes

/-- Folding of a conversion that passes verification. -/
theorem convert?_eq_eval (hvalid : conversion.isValid c.type t = true) :
    convert? conversion c t = conversion.eval c t := by
  cases conversion with
  | signExtend =>
    simp only [Conversion.isValid, Bool.and_eq_true, Bool.not_eq_true', isDouble,
      beq_eq_false_iff_ne] at hvalid
    rw [convert?, toInt?_eq hvalid.1.1, ofInt_eq hvalid.1.2]
    rfl
  | zeroExtend =>
    simp only [Conversion.isValid, Bool.and_eq_true, Bool.not_eq_true', isDouble,
      beq_eq_false_iff_ne] at hvalid
    rw [convert?, toInt?_eq hvalid.1.1, map_some, ofInt_eq hvalid.1.2, Conversion.eval, as,
      BitVec.ofInt_natCast, BitVec.ofNat_toNat]
  | truncate =>
    simp only [Conversion.isValid, Bool.and_eq_true, Bool.not_eq_true', isDouble,
      beq_eq_false_iff_ne, decide_eq_true_eq] at hvalid
    have hwidth : t.width ≤ c.type.width := by
      unfold width
      omega
    rw [convert?, toInt?_eq hvalid.1.1, map_some, ofInt_eq hvalid.1.2, Conversion.eval, as,
      ofInt_value_of_le hwidth]
  | intToDouble | uintToDouble => rfl
  | _ =>
    simp only [Conversion.isValid, Bool.and_eq_true, isDouble] at hvalid
    have ht : t ≠ .double := by
      rintro rfl
      cases hvalid.2
    simp only [convert?, Conversion.eval, ofInt_eq ht]

theorem reinterpret?_eq_some (h : c.reinterpret? t = some d) : d = c.as t := by
  unfold reinterpret? at h
  split at h
  · rename_i hsizes
    simp only [Bool.not_eq_true', isDouble, beq_eq_false_iff_ne] at hsizes
    have hwidth : t.width ≤ c.type.width := by
      unfold width
      omega
    rw [toInt?_eq hsizes.2.1, map_some, ofInt_eq hsizes.2.2, some.injEq] at h
    rw [← h, as, ofInt_value_of_le hwidth]
  · cases h

end Const

/-! ### Types of results -/

theorem UnaryOp.type_of_eval {op : UnaryOp} {c : Const} (h : op.eval c = some d) :
    d.type = if op = .not then .int else c.type := by
  cases op with
  | not =>
    cases h
    rfl
  | negate =>
    simp only [eval] at h
    cases hd : c.toBinary64? with
    | none =>
      rw [hd] at h
      cases h
      rfl
    | some x =>
      have ht : c.type = .double := by
        by_contra hne
        rw [Const.toBinary64?_eq_none_iff.mpr hne] at hd
        cases hd
      rw [hd] at h
      cases h
      simp [ht]
  | complement =>
    simp only [eval] at h
    split at h <;> cases h
    rfl

theorem BinaryOp.type_of_eval {op : BinaryOp} (h : op.eval a b = some d) :
    d.type = if op.isComparison then .int else a.type := by
  unfold eval at h
  split at h
  · rename_i x y hx hy
    have ht : a.type = .double := by
      by_contra hne
      rw [Const.toBinary64?_eq_none_iff.mpr hne] at hx
      cases hx
    cases op <;> cases h <;> simp [isComparison, ht, Const.ofBool]
  · unfold evalInteger at h
    split at h
    · rename_i hshift
      obtain ⟨n, -, hn⟩ := bind_eq_some_iff.mp h
      split at hn <;> cases hn
      cases op <;> first | rfl | cases hshift
    · split at h
      · rename_i hcomparison
        cases h
        simp [hcomparison, Const.ofBool]
      · rename_i hcomparison
        obtain ⟨bits, -, rfl⟩ := map_eq_some_iff.mp h
        simp [hcomparison]
  · cases h

theorem Conversion.type_of_eval {c : Const} {t : ScalarType}
    (hvalid : conversion.isValid c.type t = true) (h : conversion.eval c t = some d) :
    d.type = t := by
  cases conversion with
  | signExtend | zeroExtend | truncate =>
    cases h
    rfl
  | intToDouble | uintToDouble =>
    simp only [isValid, Bool.and_eq_true, isDouble_iff] at hvalid
    obtain ⟨v, -, rfl⟩ := map_eq_some_iff.mp h
    simp [hvalid.2]
  | _ =>
    obtain ⟨v, -, hv⟩ := bind_eq_some_iff.mp h
    split at hv <;> cases hv
    rfl

end ThreeAddress
