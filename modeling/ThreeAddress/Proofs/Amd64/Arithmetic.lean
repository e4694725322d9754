import ThreeAddress.Proofs.Amd64.LoweringRules
import ThreeAddress.Proofs.Amd64.Sketches

/-!
# Arithmetic of the machine

The machine computes on the lowest bits of words and sets flags, where three-address code has an
operator for every result.  Here is what the results have to do with each other.
-/

namespace ThreeAddress.Amd64

open Flags Width

/-! ### Words and bits -/

section

variable {n : Nat} {w : Width} {β : Type}

theorem Width.apply_ofWord (hw : w.bits = n) (F : (k : Nat) → BitVec k → β) (x : BitVec n) :
    F w.bits (w.ofWord (x.setWidth 64)) = F n x := by
  subst hw
  rw [ofWord, BitVec.setWidth_setWidth_of_le _ w.bits_le, BitVec.setWidth_eq]

theorem Width.apply_ofWord₂ (hw : w.bits = n) (F : (k : Nat) → BitVec k → BitVec k → β)
    (x y : BitVec n) :
    F w.bits (w.ofWord (x.setWidth 64)) (w.ofWord (y.setWidth 64)) = F n x y := by
  subst hw
  rw [ofWord, ofWord, BitVec.setWidth_setWidth_of_le _ w.bits_le,
    BitVec.setWidth_setWidth_of_le _ w.bits_le, BitVec.setWidth_eq, BitVec.setWidth_eq]

end

theorem ofWord_setWidth {t : ScalarType} (x : BitVec t.width) :
    Const.ofWord t (x.setWidth 64) = ⟨t, x⟩ := Const.ofWord_raw ⟨t, x⟩

theorem raw_eq_setWidth {a b : Const} (hab : b.type = a.type) :
    b.raw = (b.bits.setWidth a.type.width).setWidth 64 := by
  rw [← hab, BitVec.setWidth_eq]
  rfl

theorem ofWord_apply₂ {a b : Const} (hab : b.type = a.type)
    (F : (k : Nat) → BitVec k → BitVec k → BitVec k) :
    Const.ofWord a.type ((F _ ((Width.ofType a.type).ofWord a.raw)
      ((Width.ofType a.type).ofWord b.raw)).setWidth 64) =
        ⟨a.type, F a.type.width a.bits (b.bits.setWidth a.type.width)⟩ := by
  rw [raw_eq_setWidth hab, ← ofWord_setWidth]
  exact congrArg (Const.ofWord a.type) (apply_ofWord₂ (bits_ofType a.type)
    (fun k x y => (F k x y).setWidth 64) a.bits _)

/-! ### Two operands -/

def Opcode.onBits (op : Opcode) (n : Nat) (x y : BitVec n) : BitVec n :=
  match op with
  | .add => x + y
  | .sub => x - y
  | .and => x &&& y
  | .or => x ||| y
  | .xor => x ^^^ y
  | _ => x * y

def Opcode.onConsts (op : Opcode) (a b : Const) : Const :=
  ⟨a.type, op.onBits a.type.width a.bits (b.bits.setWidth a.type.width)⟩

theorem Hardware.combine_fst (h : Hardware) (op : Opcode) {w : Width} (hw : w ≠ .double)
    (x y : Word) (old : Flags) :
    (h.combine op w x y old).1 = (op.onBits w.bits (w.ofWord x) (w.ofWord y)).setWidth 64 := by
  cases w with
  | double => exact absurd rfl hw
  | _ => cases op <;> rfl

/-! ### Comparisons -/

section

variable {n : Nat} (x y : BitVec n)

theorem msb_sub_ne_ssubOverflow : ((x - y).msb != x.ssubOverflow y) = x.slt y := by
  cases n with
  | zero =>
    obtain rfl : x = y := Subsingleton.elim _ _
    revert x
    decide
  | succ n =>
    have hpow : (2 : Int) ^ (n + 1) = 2 * 2 ^ n := by rw [Int.pow_succ, Int.mul_comm]
    have hx := BitVec.two_mul_toInt_lt (x := x)
    have hx' := BitVec.le_two_mul_toInt (x := x)
    have hy := BitVec.two_mul_toInt_lt (x := y)
    have hy' := BitVec.le_two_mul_toInt (x := y)
    rw [Bool.eq_iff_iff, bne_iff_ne, BitVec.slt_iff_toInt_lt, BitVec.msb_eq_toInt, BitVec.toInt_sub,
      BitVec.ssubOverflow, Int.bmod_def, Nat.cast_pow, Nat.cast_ofNat, hpow, Nat.add_sub_cancel]
    generalize (2 : Int) ^ n = N at *
    generalize x.toInt = X at *
    generalize y.toInt = Y at *
    -- The exact difference is off by the whole range at most.
    have hmod : 0 ≤ X - Y ∧ (X - Y) % (2 * N) = X - Y ∨ X - Y < 0 ∧
      (X - Y) % (2 * N) = X - Y + 2 * N := by
      by_cases hneg : X - Y < 0
      · refine .inr ⟨hneg, ?_⟩
        rw [← Int.add_emod_right, Int.emod_eq_of_lt (by omega) (by omega)]
      · exact .inl ⟨by omega, Int.emod_eq_of_lt (by omega) (by omega)⟩
    rw [ne_eq, Bool.eq_iff_iff, Bool.or_eq_true, decide_eq_true_eq, decide_eq_true_eq,
      decide_eq_true_eq]
    split <;> omega

theorem holds_e_ofSub : Condition.e.holds (.ofSub x y) = (x == y) := by
  show (x - y == 0#n) = (x == y)
  rw [Bool.eq_iff_iff, beq_iff_eq, beq_iff_eq]
  exact sub_eq_zero

theorem holds_l_ofSub : Condition.l.holds (.ofSub x y) = x.slt y := msb_sub_ne_ssubOverflow x y

theorem sle_eq_or_slt : x.sle y = (x == y || x.slt y) := by
  rw [Bool.eq_iff_iff, Bool.or_eq_true, beq_iff_eq, BitVec.sle_iff_toInt_le,
    BitVec.slt_iff_toInt_lt, ← BitVec.toInt_inj]
  exact le_iff_eq_or_lt

theorem ule_eq_or_ult : x.ule y = (x == y || x.ult y) := by
  rw [Bool.eq_iff_iff, Bool.or_eq_true, beq_iff_eq, BitVec.ule_iff_toNat_le,
    BitVec.ult_iff_toNat_lt, ← BitVec.toNat_inj]
  exact le_iff_eq_or_lt

theorem slt_eq_not_sle : y.slt x = !x.sle y := by
  rw [Bool.eq_iff_iff, Bool.not_eq_true', ← Bool.not_eq_true, BitVec.sle_iff_toInt_le,
    BitVec.slt_iff_toInt_lt]
  exact Int.not_le.symm

theorem ult_eq_not_ule : y.ult x = !x.ule y := by
  rw [Bool.eq_iff_iff, Bool.not_eq_true', ← Bool.not_eq_true, BitVec.ule_iff_toNat_le,
    BitVec.ult_iff_toNat_lt]
  exact Nat.not_le.symm

/-- The condition of a comparison holds after the operands were subtracted if they compare so. -/
theorem comparisonCondition_holds {op : BinaryOp} (hop : op.isComparison = true) (signed : Bool) :
    (LoweringContext.comparisonCondition signed op).holds (.ofSub x y) =
      op.compareBits signed x y := by
  have he : (ofSub x y).zero = (x == y) := holds_e_ofSub x y
  have hl : ((ofSub x y).sign != (ofSub x y).overflow) = x.slt y := holds_l_ofSub x y
  have hge : ((ofSub x y).sign == (ofSub x y).overflow) = !x.slt y := by
    rw [← hl, bne, Bool.not_not]
  have hb : (ofSub x y).carry = x.ult y := rfl
  cases op with
  | equal => exact he
  | notEqual => exact congrArg not he
  | lessThan =>
    cases signed with
    | true => exact hl
    | false => exact hb
  | lessOrEqual =>
    cases signed with
    | true =>
      show ((ofSub x y).zero || (_ != _)) = x.sle y
      rw [he, hl, sle_eq_or_slt]
    | false =>
      show ((ofSub x y).carry || (ofSub x y).zero) = x.ule y
      rw [he, hb, ule_eq_or_ult, Bool.or_comm]
  | greaterThan =>
    cases signed with
    | true =>
      show (!(ofSub x y).zero && (_ == _)) = y.slt x
      rw [he, hge, slt_eq_not_sle x y, sle_eq_or_slt, Bool.not_or]
    | false =>
      show (!(ofSub x y).carry && !(ofSub x y).zero) = y.ult x
      rw [he, hb, ult_eq_not_ule x y, ule_eq_or_ult, Bool.not_or, Bool.and_comm]
  | greaterOrEqual =>
    cases signed with
    | true =>
      show ((ofSub x y).sign == (ofSub x y).overflow) = y.sle x
      rw [hge, slt_eq_not_sle, Bool.not_not]
    | false =>
      show (!(ofSub x y).carry) = y.ule x
      rw [hb, ult_eq_not_ule, Bool.not_not]
  | _ => cases hop

end

/-! ### Division -/

section

variable {n : Nat} {x y : BitVec n}

/-- The high half of a number that is extended by its sign. -/
def signs (x : BitVec n) : BitVec n := if x.msb then BitVec.allOnes n else 0#n

theorem toInt_signs_append (hn : 0 < n) : (signs x ++ x).toInt = x.toInt := by
  rw [BitVec.toInt_append, BitVec.toInt_eq_msb_cond x, signs]
  cases x.msb with
  | true =>
    rw [if_pos rfl, if_pos rfl, BitVec.toInt_allOnes, if_pos hn]
    push_cast
    omega
  | false => simp

theorem setWidth_signWord (w : Width) (x : Word) :
    (signWord w x).setWidth w.bits = signs (w.ofWord x) := by
  have hle := w.bits_le
  unfold signWord signs
  split
  · apply BitVec.eq_of_getLsbD_eq
    intro i hi
    rw [BitVec.getLsbD_setWidth, BitVec.getLsbD_allOnes, BitVec.getLsbD_allOnes, decide_eq_true hi,
      decide_eq_true (by omega), Bool.true_and]
  · exact BitVec.setWidth_zero w.bits 64

/-- The quotient and the remainder of a number that is extended by its sign. -/
theorem quotients_signed (hn : 0 < n) (h : isUndefinedQuotient true x y = false) :
    quotients true (signs x) x y = some (x.sdiv y, x.srem y) := by
  simp only [isUndefinedQuotient, Bool.true_and, Bool.or_eq_false_iff, Bool.and_eq_false_iff,
    beq_eq_false_iff_ne] at h
  have hq := BitVec.toInt_sdiv_of_ne_or_ne x y h.2
  have hr := BitVec.toInt_srem x y
  have hle := BitVec.le_toInt (x.sdiv y)
  have hlt := BitVec.toInt_lt (x := x.sdiv y)
  simp only [quotients, if_neg h.1, if_true, toInt_signs_append hn]
  rw [← hq, ← hr, if_pos ⟨hle, hlt⟩, BitVec.ofInt_toInt, BitVec.ofInt_toInt]

/-- The quotient and the remainder of a number that is extended by zeros. -/
theorem quotients_unsigned (h : isUndefinedQuotient false x y = false) :
    quotients false 0#n x y = some (x.udiv y, x.umod y) := by
  have hy : y ≠ 0#n := by
    rintro rfl
    simp [isUndefinedQuotient] at h
  have happend : (0#n ++ x).toNat = x.toNat := by simp
  have hlt : x.toNat / y.toNat < 2 ^ n := Nat.lt_of_le_of_lt (Nat.div_le_self _ _) x.isLt
  simp only [quotients, if_neg hy, Bool.false_eq_true, if_false, happend, if_pos hlt]
  rw [← BitVec.toNat_udiv, ← BitVec.toNat_umod, BitVec.ofNat_toNat, BitVec.ofNat_toNat,
    BitVec.setWidth_eq, BitVec.setWidth_eq]
  rfl

end

/-! ### Shifts -/

theorem shiftCount_eq {t : ScalarType} {y : Word} (ht : t ≠ .double) (hy : y.toNat < t.width) :
    shiftCount (.ofType t) y = y.toNat := by
  unfold shiftCount
  split
  · exact Nat.mod_eq_of_lt (Nat.lt_of_lt_of_le hy t.width_le)
  · rename_i hquad
    refine Nat.mod_eq_of_lt (Nat.lt_of_lt_of_le hy ?_)
    cases t <;> first | exact absurd rfl ht | exact absurd rfl hquad | decide

theorem shifted_eq {a : Const} {y : Word} {op : BinaryOp} (ha : a.type ≠ .double)
    (hop : op.isShift = true) (hy : y.toNat < a.type.width) :
    shifted (shiftOpcode (op == .shiftLeft) a.type.isSigned) (.ofType a.type) a.raw y =
      (op.shiftBits a.type.isSigned a.bits y.toNat).setWidth 64 := by
  have hcount := shiftCount_eq ha hy
  have hbits := bits_ofType a.type
  cases op with
  | shiftLeft =>
    show ((ofType a.type).ofWord a.raw <<< shiftCount _ y).setWidth 64 = _
    rw [hcount]
    exact apply_ofWord hbits (fun _ x => (x <<< y.toNat).setWidth 64) a.bits
  | shiftRight =>
    cases hs : a.type.isSigned with
    | true =>
      show (((ofType a.type).ofWord a.raw).sshiftRight (shiftCount _ y)).setWidth 64 = _
      rw [hcount]
      exact apply_ofWord hbits (fun _ x => (x.sshiftRight y.toNat).setWidth 64) a.bits
    | false =>
      show ((ofType a.type).ofWord a.raw >>> shiftCount _ y).setWidth 64 = _
      rw [hcount]
      exact apply_ofWord hbits (fun _ x => (x >>> y.toNat).setWidth 64) a.bits
  | _ => cases hop

end ThreeAddress.Amd64

/-! ### Constants of another width -/

namespace ThreeAddress.Const

open Amd64 Width

section

variable {t u : ScalarType} {c : Const}

theorem setWidth_ofInt {m n : Nat} (h : m ≤ n) (v : Int) :
    (BitVec.ofInt n v).setWidth m = BitVec.ofInt m v := by
  have hdvd : (2 ^ m : Int) ∣ 2 ^ n := pow_dvd_pow 2 h
  have hpos (k : Nat) : (2 ^ k : Int) ≠ 0 := pow_ne_zero k (by decide)
  apply BitVec.eq_of_toNat_eq
  rw [BitVec.toNat_setWidth, BitVec.toNat_ofInt, BitVec.toNat_ofInt, ← Int.natCast_inj]
  push_cast
  rw [Int.toNat_of_nonneg (Int.emod_nonneg v (hpos n)),
    Int.toNat_of_nonneg (Int.emod_nonneg v (hpos m)),
    Int.emod_emod_of_dvd v hdvd]

theorem ofWord_ofInt (ht : t ≠ .double) (v : Int) : ofWord t (BitVec.ofInt 64 v) = ofInt t v := by
  rw [ofInt_eq ht, ofWord, setWidth_ofInt t.width_le]

theorem value_ofInt_value (hu : u ≠ .double) (hs : u.isSigned = c.type.isSigned)
    (hwidth : c.type.width ≤ u.width) : (ofInt u c.value).value = c.value := by
  rw [ofInt_eq hu]
  cases hsigned : c.type.isSigned with
  | true =>
    rw [value_signed (hs.trans hsigned), value_signed hsigned]
    exact BitVec.toInt_signExtend_of_le hwidth
  | false =>
    rw [value_unsigned (hs.trans hsigned), value_unsigned hsigned]
    rw [BitVec.ofInt_natCast, BitVec.ofNat_toNat, BitVec.toNat_setWidth_of_le hwidth]

theorem ofWord_setWidth_ofInt (hwidth : t.width ≤ u.width) (v : Int) :
    ofWord t ((BitVec.ofInt u.width v).setWidth 64) = ⟨t, BitVec.ofInt t.width v⟩ := by
  rw [ofWord, BitVec.setWidth_setWidth_of_le _ t.width_le, setWidth_ofInt hwidth]

end

section

variable {t u : ScalarType} {x y : BitVec t.width} {x' y' : BitVec u.width}

section

variable (hx : (⟨u, x'⟩ : Const).value = (⟨t, x⟩ : Const).value)

include hx

section

variable (hy : (⟨u, y'⟩ : Const).value = (⟨t, y⟩ : Const).value)

include hy

theorem ofWord_mul (hwidth : t.width ≤ u.width) :
    ofWord t ((x' * y').setWidth 64) = ⟨t, x * y⟩ := by
  have hproduct : x' * y' = .ofInt u.width ((⟨u, x'⟩ : Const).value * (⟨u, y'⟩ : Const).value) := by
    rw [BitVec.ofInt_mul, ofInt_value ⟨u, x'⟩, ofInt_value ⟨u, y'⟩]
  rw [hproduct, ofWord_setWidth_ofInt hwidth, hx, hy, BitVec.ofInt_mul, ofInt_value ⟨t, x⟩,
    ofInt_value ⟨t, y⟩]

theorem isUndefinedQuotient_of_value (ht : t ≠ .double) (hu : u ≠ .double)
    (hs : u.isSigned = t.isSigned) (hwidth : t.width ≤ u.width)
    (h : isUndefinedQuotient t.isSigned x y = false) :
    isUndefinedQuotient u.isSigned x' y' = false := by
  rw [← Bool.not_eq_true, ← undefined_quotient_iff ht, not_or] at h
  rw [← Bool.not_eq_true, ← undefined_quotient_iff hu, not_or, hx, hy]
  refine ⟨h.1, ?_⟩
  have hfits := h.2
  simp only [Bool.not_eq_true', Bool.not_eq_false] at hfits ⊢
  rw [fits_iff ht] at hfits
  rw [fits_iff hu]
  -- A value that fits is the value of a constant, and so is kept at the wider type.
  have hvalue := value_ofInt_value hu (c := ⟨t, .ofInt t.width
    ((⟨t, x⟩ : Const).value.tdiv (⟨t, y⟩ : Const).value)⟩) hs hwidth
  rwa [hfits, ofInt_eq hu] at hvalue

end

end

end

def quotient (a b : Const) : Const :=
  ⟨a.type, if a.type.isSigned then a.bits.sdiv (b.bits.setWidth a.type.width)
    else a.bits.udiv (b.bits.setWidth a.type.width)⟩

def remainder (a b : Const) : Const :=
  ⟨a.type, if a.type.isSigned then a.bits.srem (b.bits.setWidth a.type.width)
    else a.bits.umod (b.bits.setWidth a.type.width)⟩

theorem exists_bits {a b : Const} (h : b.type = a.type) : ∃ t x y, a = ⟨t, x⟩ ∧ b = ⟨t, y⟩ := by
  obtain ⟨t, x⟩ := a
  obtain ⟨u, y⟩ := b
  obtain rfl : u = t := h
  exact ⟨u, x, y, rfl, rfl⟩

section

variable {a b a' b' : Const} (hab : b.type = a.type) (hab' : b'.type = a'.type)
  (ha : a'.value = a.value) (hb : b'.value = b.value) (hwidth : a.type.width ≤ a'.type.width)

include hab hab' ha hb hwidth

theorem ofWord_product :
    ofWord a.type (Opcode.imul.onConsts a' b').raw = Opcode.imul.onConsts a b := by
  obtain ⟨t, x, y, rfl, rfl⟩ := exists_bits hab
  obtain ⟨t', x', y', rfl, rfl⟩ := exists_bits hab'
  simp only [Opcode.onConsts, Opcode.onBits, BitVec.setWidth_eq]
  exact ofWord_mul ha hb hwidth

theorem ofWord_raw_quotient : ofWord a.type (a'.quotient b').raw = a.quotient b := by
  obtain ⟨t, x, y, rfl, rfl⟩ := exists_bits hab
  obtain ⟨t', x', y', rfl, rfl⟩ := exists_bits hab'
  simp only [quotient, raw, BitVec.setWidth_eq]
  rw [← ofInt_tdiv, ofWord_setWidth_ofInt hwidth, ha, hb, ofInt_tdiv]

theorem ofWord_raw_remainder : ofWord a.type (a'.remainder b').raw = a.remainder b := by
  obtain ⟨t, x, y, rfl, rfl⟩ := exists_bits hab
  obtain ⟨t', x', y', rfl, rfl⟩ := exists_bits hab'
  simp only [remainder, raw, BitVec.setWidth_eq]
  rw [← ofInt_tmod, ofWord_setWidth_ofInt hwidth, ha, hb, ofInt_tmod]

theorem isQuotient_of_value (ht : a.type ≠ .double) (ht' : a'.type ≠ .double)
    (hs : a'.type.isSigned = a.type.isSigned)
    (h : isUndefinedQuotient a.type.isSigned a.bits (b.bits.setWidth a.type.width) = false) :
    isUndefinedQuotient a'.type.isSigned a'.bits (b'.bits.setWidth a'.type.width) = false := by
  obtain ⟨t, x, y, rfl, rfl⟩ := exists_bits hab
  obtain ⟨t', x', y', rfl, rfl⟩ := exists_bits hab'
  rw [BitVec.setWidth_eq] at h ⊢
  exact isUndefinedQuotient_of_value ha hb ht ht' hs hwidth h

end

/-- A byte as a constant of 32 bits, with the same value. -/
def widened (c : Const) : Const := .ofInt (if c.type.isSigned then .int else .uint) c.value

theorem value_widened {c : Const} (h : c.type.width ≤ 32) : c.widened.value = c.value := by
  unfold widened
  cases hs : c.type.isSigned with
  | true => exact value_ofInt_value (by decide) hs.symm h
  | false => exact value_ofInt_value (by decide) hs.symm h

theorem widened_type (c : Const) :
    c.widened.type = if c.type.isSigned then .int else .uint := ofInt_type _ _

@[simp] theorem ofType_widened (c : Const) : Width.ofType c.widened.type = .long := by
  rw [widened_type]
  split <;> rfl

theorem widened_ne_double (c : Const) : c.widened.type ≠ .double := by
  rw [widened_type]
  split <;> decide

theorem isSigned_widened (c : Const) : c.widened.type.isSigned = c.type.isSigned := by
  rw [widened_type]
  split <;> simp_all [ScalarType.isSigned]

theorem width_widened (c : Const) : c.widened.type.width = 32 := by
  rw [← bits_ofType, ofType_widened]
  rfl

theorem widened_signed {b : Const} (hs : b.type.isSigned = true)
    (hbyte : Width.ofType b.type = .byte) :
    b.widened = .ofWord .int ((Width.byte.ofWord b.raw).signExtend 64) := by
  have hbits : byte.bits = b.type.width := by rw [← hbyte, bits_ofType]
  have hextend : (byte.ofWord b.raw).signExtend 64 = .ofInt 64 b.value := by
    rw [value_signed hs]
    exact apply_ofWord hbits (fun _ x => x.signExtend 64) b.bits
  rw [widened, if_pos hs, hextend, ofWord_ofInt (by decide)]

theorem widened_unsigned {b : Const} (hs : b.type.isSigned = false)
    (hbyte : Width.ofType b.type = .byte) :
    b.widened = .ofWord .uint (low Width.byte.bits b.raw) := by
  have hbits : byte.bits = b.type.width := by rw [← hbyte, bits_ofType]
  have hextend : low byte.bits b.raw = .ofInt 64 b.value := by
    rw [hbits, b.low_raw, value_unsigned hs, BitVec.ofInt_natCast, BitVec.ofNat_toNat]
    rfl
  rw [widened, if_neg (by simp [hs]), hextend, ofWord_ofInt (by decide)]

theorem wordOf_eq_value {c : Const} (hc : c.type ≠ .double)
    (h : c.type.isSigned = true ∨ c.value < 2 ^ 63) : wordOf c = c.value := by
  unfold wordOf word extended
  have hd : c.type.isDouble = false := by simpa [ScalarType.isDouble] using hc
  rw [if_neg (by simp [hd])]
  cases hs : c.type.isSigned with
  | true => rw [if_pos rfl, value_signed hs, BitVec.toInt_signExtend_of_le c.type.width_le]
  | false =>
    have hlt := h.resolve_left (by simp [hs])
    rw [value_unsigned hs] at hlt ⊢
    have hnat : (c.bits.setWidth 64).toNat = c.bits.toNat :=
      BitVec.toNat_setWidth_of_le c.type.width_le
    rw [if_neg (by simp), BitVec.toInt_eq_toNat_of_lt (by omega), hnat]

theorem widened_of_byte {c : Const} (hbyte : Width.ofType c.type = .byte) :
    some (.ofWord c.widened.type (BitVec.ofInt 64 (wordOf c))) = some c.widened := by
  have hwidth : c.type.width = 8 := by rw [← bits_ofType, hbyte]; rfl
  have hdouble : c.type ≠ .double := by
    intro h
    rw [h] at hbyte
    cases hbyte
  have hvalue : c.type.isSigned = true ∨ c.value < 2 ^ 63 := by
    cases hs : c.type.isSigned with
    | true => exact .inl rfl
    | false =>
      have hlt : c.bits.toNat < 2 ^ 8 :=
        Nat.lt_of_lt_of_le c.bits.isLt (Nat.pow_le_pow_right (by decide) (Nat.le_of_eq hwidth))
      rw [value_unsigned hs]
      exact .inr (by omega)
  rw [wordOf_eq_value hdouble hvalue, widened_type, ofWord_ofInt (by split <;> decide)]
  rfl

/-- A constant as it is divided: a byte is widened. -/
def dividing (c : Const) : Const := if Width.ofType c.type = .byte then c.widened else c

section

variable {c : Const}

theorem width_of_byte (h : Width.ofType c.type = .byte) : c.type.width = 8 := by
  rw [← bits_ofType, h]
  rfl

theorem dividing_ne_double (hc : c.type ≠ .double) : c.dividing.type ≠ .double := by
  unfold dividing
  split
  · exact c.widened_ne_double
  · exact hc

theorem value_dividing : c.dividing.value = c.value := by
  unfold dividing
  split
  · rename_i hbyte
    exact value_widened (by rw [width_of_byte hbyte]; decide)
  · rfl

theorem isSigned_dividing : c.dividing.type.isSigned = c.type.isSigned := by
  unfold dividing
  split
  · exact c.isSigned_widened
  · rfl

theorem width_le_dividing : c.type.width ≤ c.dividing.type.width := by
  unfold dividing
  split
  · rename_i hbyte
    rw [width_of_byte hbyte, width_widened]
    decide
  · exact Nat.le_refl _

theorem ofType_dividing : Width.ofType c.dividing.type =
    if Width.ofType c.type == .byte then .long else Width.ofType c.type := by
  unfold dividing
  by_cases hbyte : ofType c.type = .byte
  · rw [hbyte]
    exact c.ofType_widened
  · rw [if_neg hbyte, if_neg (by simpa using hbyte)]

theorem dividing_type_eq {d : Const} (h : d.type = c.type) : d.dividing.type = c.dividing.type := by
  unfold dividing
  rw [h]
  split
  · rw [widened_type, widened_type, h]
  · exact h

theorem divides_dividing (hc : c.type ≠ .double) :
    (Width.ofType c.dividing.type).divides = true := by
  rw [ofType_dividing]
  split
  · rfl
  · cases h : c.type <;> simp_all [ofType, divides]

end

/-! ### Counts of shifts -/

theorem toNat_raw_count {n : Int} (hn : 0 ≤ n) (hlt : n < 64) :
    (ofInt .uchar n).raw.toNat = n.toNat := by
  show ((BitVec.ofInt 8 n).setWidth 64).toNat = n.toNat
  rw [BitVec.toNat_setWidth_of_le (by decide), BitVec.toNat_ofInt]
  omega

end ThreeAddress.Const
