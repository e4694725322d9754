import Mathlib.Data.Nat.Dist
import Mathlib.Tactic.NormNum
import ThreeAddress.Proofs.Amd64.DoubleConversion

/-!
# Integers rounded by machine code

A double has 53 significant bits, so a larger integer has to be rounded.  The code for an unsigned
integer of 64 bits must round to the nearest double, and to the even one of two, on both of its
paths.
-/

namespace ThreeAddress

/-- A number that has at most 53 significant bits. -/
def IsSignificant (s : Nat) : Prop := ∃ m e, m < 2 ^ 53 ∧ s = m * 2 ^ e

/-- A number is rounded to 53 significant bits.  No other number with as many bits is nearer, and if
another one is as near, the significand is even. -/
structure IsNearest (n r : Nat) : Prop where
  significant : IsSignificant r
  nearest : ∀ s, IsSignificant s → n.dist r ≤ n.dist s
  even : ∀ s, IsSignificant s → s ≠ r → n.dist s = n.dist r →
    ∃ m e, 2 ^ 52 ≤ m ∧ m < 2 ^ 53 ∧ m % 2 = 0 ∧ r = m * 2 ^ e

theorem isNearest_self {n : Nat} (h : n < 2 ^ 53) : IsNearest n n := by
  refine ⟨⟨n, 0, h, by omega⟩, fun s _ => ?_, fun s _ hne hs => ?_⟩
  · rw [Nat.dist_self]
    exact Nat.zero_le _
  · rw [Nat.dist_self] at hs
    exact absurd (Nat.eq_of_dist_eq_zero hs).symm hne

theorem IsSignificant.le_or_le {s q k : Nat} (hs : IsSignificant s) (hq : 2 ^ 52 ≤ q) :
    s ≤ q * 2 ^ k ∨ (q + 1) * 2 ^ k ≤ s := by
  obtain ⟨m, e, hm, rfl⟩ := hs
  by_cases hle : k ≤ e
  · obtain ⟨d, rfl⟩ := Nat.exists_eq_add_of_le hle
    rw [show m * 2 ^ (k + d) = m * 2 ^ d * 2 ^ k by rw [Nat.add_comm, Nat.pow_add, Nat.mul_assoc]]
    rcases Nat.lt_or_ge q (m * 2 ^ d) with h | h
    · exact .inr (Nat.mul_le_mul_right _ h)
    · exact .inl (Nat.mul_le_mul_right _ h)
  · -- A lower exponent leaves only numbers below.
    left
    calc m * 2 ^ e ≤ 2 ^ 53 * 2 ^ e := Nat.mul_le_mul_right _ hm.le
      _ = 2 ^ 52 * 2 ^ (e + 1) := by omega
      _ ≤ q * 2 ^ k := Nat.mul_le_mul hq (Nat.pow_le_pow_right (by decide) (by omega))

theorem exists_significand {s : Nat} (k : Nat) (hlower : 2 ^ 52 ≤ s) (hupper : s ≤ 2 ^ 53) :
    ∃ m e, 2 ^ 52 ≤ m ∧ m < 2 ^ 53 ∧ (s % 2 = 0 → m % 2 = 0) ∧ s * 2 ^ k = m * 2 ^ e := by
  rcases Nat.lt_or_eq_of_le hupper with h | rfl
  · exact ⟨s, k, hlower, h, id, rfl⟩
  · exact ⟨2 ^ 52, k + 1, Nat.le_refl _, by decide, fun _ => by decide, by omega⟩

theorem isNearest_roundShift {n k : Nat} (hlower : 2 ^ (52 + k) ≤ n) (hupper : n < 2 ^ (53 + k)) :
    IsNearest n (roundShift n k * 2 ^ k) := by
  obtain ⟨hquotient, hs⟩ := roundShift_bounds hlower hupper
  obtain ⟨m, e, hm, hm', heven, heq⟩ := exists_significand k hs.1 hs.2
  have hn := Nat.div_add_mod' n (2 ^ k)
  have hnext := Nat.add_one_mul (n / 2 ^ k) (2 ^ k)
  refine ⟨⟨m, e, hm', heq⟩, fun s hs => ?_, fun s hs hne htie => ?_⟩
  · have hgap := hs.le_or_le (k := k) hquotient
    rcases (roundShift_cases n k).1 with ⟨h, hrounded⟩ | ⟨h, hrounded⟩ <;>
      rw [h] <;> simp only [Nat.dist] <;> omega
  · refine ⟨m, e, hm, hm', heven ?_, heq⟩
    have hgap := hs.le_or_le (k := k) hquotient
    obtain ⟨hrounded, heven'⟩ := roundShift_cases n k
    rcases hrounded with ⟨h, hrounded⟩ | ⟨h, hrounded⟩ <;> rw [h] at hne htie <;>
      simp only [Nat.dist] at htie <;> omega

namespace Binary64

/-- A datum is a natural number. -/
def Denotes (x : Binary64) (r : Nat) : Prop :=
  ∃ m e, x.unpack = .finite false m e ∧ (m : ℚ) * 2 ^ e = r

theorem denotes_ofMagnitude {field s r : Nat} (hlower : 2 ^ 52 ≤ s) (hupper : s ≤ 2 ^ 53)
    (hfield : field < 2045) (h : (s : ℚ) * 2 ^ (leastExponent + field) = r) :
    (ofMagnitude false (field * 2 ^ 52 + s)).Denotes r := by
  rcases Nat.lt_or_eq_of_le hupper with hs | rfl
  · have hunpack := unpack_ofMagnitude (show 0 < field + 1 by omega) (by omega)
      (show s - 2 ^ 52 < 2 ^ 52 by omega)
    rw [show (field + 1) * 2 ^ 52 + (s - 2 ^ 52) = field * 2 ^ 52 + s by omega,
      show 2 ^ 52 + (s - 2 ^ 52) = s by omega] at hunpack
    refine ⟨_, _, hunpack, ?_⟩
    rwa [show leastExponent + (field + 1 : Nat) - 1 = leastExponent + field by omega]
  · -- A carry to the next power of two goes on into the exponent.
    have hunpack := unpack_ofMagnitude (show 0 < field + 2 by omega) (by omega)
      (show 0 < 2 ^ 52 by decide)
    rw [show (field + 2) * 2 ^ 52 + 0 = field * 2 ^ 52 + 2 ^ 53 by omega] at hunpack
    refine ⟨_, _, hunpack, ?_⟩
    rw [← h, show leastExponent + (field + 2 : Nat) - 1 = leastExponent + field + 1 by omega,
      zpow_add_one₀ two_ne_zero, ← mul_assoc, mul_right_comm]
    norm_num

/-- An integer is converted to the double nearest to it. -/
theorem exists_isNearest {n : Nat} (hn : n < 2 ^ 64) :
    ∃ r, IsNearest n r ∧ (ofInt n).Denotes r := by
  rcases Nat.eq_zero_or_pos n with rfl | hpos
  · exact ⟨0, isNearest_self (by decide), 0, leastExponent, by decide, by simp⟩
  have hlower := Nat.log2_self_le hpos.ne'
  have hupper := Nat.lt_log2_self (n := n)
  have hlog : n.log2 < 64 := (Nat.log2_lt hpos.ne').mpr hn
  rcases Nat.lt_or_ge n.log2 53 with hsmall | hlarge
  · -- All bits of the integer fit, and it is only shifted.
    obtain ⟨d, hd⟩ := Nat.exists_eq_add_of_le (Nat.le_of_lt_succ hsmall)
    have hs : 2 ^ 52 ≤ n * 2 ^ d ∧ n * 2 ^ d < 2 ^ 53 := by
      constructor
      · calc 2 ^ 52 = 2 ^ n.log2 * 2 ^ d := by rw [← Nat.pow_add, ← hd]
          _ ≤ n * 2 ^ d := Nat.mul_le_mul_right _ hlower
      · calc n * 2 ^ d < 2 ^ (n.log2 + 1) * 2 ^ d :=
              Nat.mul_lt_mul_of_pos_right hupper (Nat.two_pow_pos d)
          _ = 2 ^ 53 := by rw [← Nat.pow_add, Nat.add_right_comm, ← hd]
    have hmagnitude : ofInt n = ofMagnitude false ((n.log2 + 1022) * 2 ^ 52 + n * 2 ^ d) := by
      have hgrid : gridExponent n 0 = -(d : Int) := by
        rw [gridExponent, leastExponent]
        omega
      rw [ofInt, decide_eq_false (by omega), Int.natAbs_natCast, ofDyadic, if_neg hpos.ne']
      simp only [hgrid]
      rw [if_pos (by omega), show (0 - -(d : Int)).toNat = d by omega,
        show (-(d : Int) - leastExponent).toNat = n.log2 + 1022 by rw [leastExponent]; omega,
        infiniteMagnitude, Nat.min_eq_left (by omega)]
    refine ⟨n, isNearest_self ?_, ?_⟩
    · exact Nat.lt_of_le_of_lt (Nat.le_mul_of_pos_right n (Nat.two_pow_pos d)) hs.2
    rw [hmagnitude]
    refine denotes_ofMagnitude hs.1 hs.2.le (by omega) ?_
    rw [show leastExponent + (n.log2 + 1022 : Nat) = -(d : Int) by rw [leastExponent]; omega,
      zpow_neg, zpow_natCast, Nat.cast_mul, Nat.cast_pow, Nat.cast_ofNat,
      mul_inv_cancel_right₀ (pow_ne_zero d two_ne_zero)]
  · -- The lowest `k` bits are rounded off.
    obtain ⟨k, hk⟩ := Nat.exists_eq_add_of_le (Nat.le_of_succ_le hlarge)
    rw [hk] at hlower hupper
    rw [show 52 + k + 1 = 53 + k by omega] at hupper
    obtain ⟨-, hs⟩ := roundShift_bounds hlower hupper
    refine ⟨_, isNearest_roundShift hlower hupper, ?_⟩
    rw [ofInt_of_le (by omega) hlower hupper, infiniteMagnitude, Nat.min_eq_left (by omega)]
    refine denotes_ofMagnitude hs.1 hs.2 (by omega) ?_
    rw [show leastExponent + (k + 1074 : Nat) = k by rw [leastExponent]; omega,
      zpow_natCast, Nat.cast_mul, Nat.cast_pow, Nat.cast_ofNat]

end Binary64

namespace Amd64

/-- All that can be read from a storage. -/
def Storage.sketch (m : Storage) : Sketch where
  cells l := if 64 ≤ m.determined l then some ⟨.ulong, m.cells l⟩ else none
  bytes := m.bytes
  flags := none
  trace := m.trace

theorem Storage.describes_sketch (e : Setting) (m : Storage) : m.sketch.Describes e m := by
  refine ⟨?_, ?_, fun _ _ => rfl, (nofun), rfl⟩
  · intro l c hc
    obtain ⟨hl, ⟨⟩⟩ := Option.ite_none_right_eq_some.mp hc
    exact hl
  · intro l c hc
    obtain ⟨-, ⟨⟩⟩ := Option.ite_none_right_eq_some.mp hc
    rfl

variable {ctx : LoweringContext} {e : Setting} {p : Procedure} {m : Storage} {D : Place} {x : Word}
  {t : ScalarType}

theorem Storage.fetch?_sketch (ht : Width.ofType t = .quad)
    (h : m.fetch? (e.checks true) .quad D = some x) :
    m.sketch.fetch? e t D = some (.ofWord t x) := by
  have hwidth := width_of_quad ht
  cases D with
  | value y =>
    cases h
    rw [Sketch.fetch?, Const.ofWord_congr]
    rw [hwidth]
    exact (low_low _ _).symm
  | cell l =>
    obtain ⟨hread, ⟨⟩⟩ := Option.ite_none_right_eq_some.mp h
    have hdetermined : 64 ≤ m.determined l := by
      cases l <;> exact of_decide_eq_true hread
    have hcell : m.sketch.cells l = some ⟨.ulong, m.cells l⟩ := if_pos hdetermined
    rw [Sketch.fetch?_cell hcell hwidth.le]
    rfl
  | address a =>
    obtain ⟨haccess, ⟨⟩⟩ := Option.ite_none_right_eq_some.mp h
    rw [mayAccess_iff] at haccess
    have hsize : t.size = Width.quad.size := by rw [← ht, Width.size_ofType]
    rw [Sketch.fetch?, hsize, if_pos haccess]
    rfl

theorem Sketch.place?_operandOf (A : Sketch) (src : Value) :
    A.place? p e (ctx.operandOf src) = p.place? e (e.checks true) m (ctx.operandOf src) := by
  cases src with
  | const c => rfl
  | var v =>
    simp only [LoweringContext.operandOf, LoweringContext.variableOperandOf]
    split <;> rfl

namespace LoweringContext

/-- The code that converts an unsigned integer of 64 bits leaves the nearest double. -/
theorem uintToDouble_isNearest (ctx : LoweringContext) {st : LoweringState} (dst : Variable)
    (src : Value) (hquad : Width.ofType src.type = .quad) (hst : HasLabels st) :
    ∃ code st', (ctx.uintToDouble (ctx.variableOperandOf dst) src).run st = .ok (code, st') ∧
      ∀ {e : Setting} {p : Procedure} {m : Storage} {D : Place} {x : Word},
        e.hardware.Rounds →
        (∀ y w, st'.pseudos[y]? = some ⟨w, false⟩ → p.isAliased y = false) →
        p.place? e (e.checks true) m (ctx.variableOperandOf dst) = some D → e.Writable .double D →
        p.read? e (e.checks true) m (ctx.operandOf src) .quad = some x →
        ∃ m' r, ∃ d : Binary64, (p.machine e (e.checks true)).Leads code 0 m code.length m' ∧
          p.read? e (e.checks true) m' (ctx.variableOperandOf dst) .double = some d.bits ∧
          d.Denotes r ∧ IsNearest x.toNat r := by
  obtain ⟨code, st', hrun, n, n', big, done, hne, hlabels, rfl, hpseudos⟩ :=
    gives_wide hquad hst (ctx.variableOperandOf dst)
  refine ⟨_, st', hrun, ?_⟩
  intro e p m D x hh haliased hplace hD hx
  -- No register is read to find the place of a variable, so every sketch has the same.
  have hd (B : Sketch) : B.place? p e (ctx.variableOperandOf dst) = some D :=
    (B.place?_operandOf (.var dst)).trans hplace
  have hread : m.sketch.read? p e (ctx.operandOf src) src.type = some (.ofWord src.type x) := by
    obtain ⟨P, hP, hfetch⟩ := Option.bind_eq_some_iff.mp hx
    rw [Sketch.read?, m.sketch.place?_operandOf src, hP]
    exact m.fetch?_sketch hquad hfetch
  -- Nothing else of the storage matters here.
  have hall : Sketch.Ignores (fun _ => True) (NameSupply.temporary n) (NameSupply.temporary n') D :=
    ⟨fun _ => trivial, fun _ => trivial, fun _ => trivial, fun _ _ => trivial⟩
  obtain ⟨m', B, -, hleads, hm'⟩ := Procedure.leads_wide hall
    (haliased _ _ (hpseudos n (by simp))) (haliased _ _ (hpseudos n' (by simp)))
    (fun h => hne (NameSupply.temporary_injective h)) hd hD hh (a := .ofWord src.type x) hquad
    trivial hread hlabels (m.describes_sketch e)
  rw [← toNat_raw, raw_ofWord_of_quad hquad] at hm'
  obtain ⟨r, hnearest, hdenotes⟩ := Binary64.exists_isNearest x.isLt
  refine ⟨m', r, _, hleads, ?_, hdenotes, hnearest⟩
  have hback := hm'.read? (p := p) (o := ctx.variableOperandOf dst) (t := .double) (by
    rw [Sketch.read?, hd]
    exact Sketch.fetch?_set_self (c := .ofBinary64 _) hD)
  rwa [show (Const.ofBinary64 (.ofInt x.toNat)).raw = (Binary64.ofInt x.toNat).bits from
    BitVec.setWidth_eq _] at hback

/-- An integer in the middle between two doubles, of which the lower one has an odd significand. -/
theorem middle_isNearest :
    ∃ code st', (plainContext.uintToDouble (.pseudo "d") (.var ⟨"x", .ulong⟩)).run plainState =
        .ok (code, st') ∧
      ∃ m' r, ∃ d : Binary64,
        (plainProcedure.machine roundingSetting (roundingSetting.checks true)).Leads code 0
          (uniformStorage (.ofInt .ulong (2 ^ 63 + 3072))) code.length m' ∧
        plainProcedure.read? roundingSetting (roundingSetting.checks true) m' (.pseudo "d")
          .double = some d.bits ∧
        d.Denotes r ∧ IsNearest (2 ^ 63 + 3072) r := by
  obtain ⟨code, st', hrun, hcode⟩ := uintToDouble_isNearest plainContext ⟨"d", .double⟩
    (.var ⟨"x", .ulong⟩) rfl hasLabels_plainState
  have hd : plainContext.variableOperandOf ⟨"d", .double⟩ = .pseudo "d" := by
    simp [variableOperandOf, plainContext]
  have hx : plainContext.operandOf (.var ⟨"x", .ulong⟩) = .pseudo "x" := by
    simp [operandOf, variableOperandOf, plainContext]
  have haliased (y : String) : plainProcedure.isAliased y = false := by
    simp [Procedure.isAliased, plainProcedure]
  rw [hd] at hrun hcode
  rw [hx] at hcode
  refine ⟨code, st', hrun, hcode rounds_roundingSetting (fun y _ _ => haliased y)
    (x := (Const.ofInt .ulong (2 ^ 63 + 3072)).raw) (D := .cell (.pseudo "d")) ?_ trivial ?_⟩
  · rw [Procedure.place?, haliased, if_neg Bool.false_ne_true]
  · rw [Procedure.read?, Procedure.place?, haliased, if_neg Bool.false_ne_true]
    rfl

end LoweringContext

end Amd64

end ThreeAddress
