import Mathlib.Data.BitVec
import ThreeAddress.Amd64.Register

/-!
# Words and bytes

Registers hold words of 64 bits, of which an instruction uses as many as its width says.  Memory
holds bytes, the lowest byte of a word first.
-/

namespace ThreeAddress.Amd64

open BitVec

/-- What a register holds. -/
abbrev Word := BitVec 64

variable {n : Nat} {a x y : Word}

def Width.bits (w : Width) : Nat := 8 * w.size

theorem Width.bits_le (w : Width) : w.bits ≤ 64 := by
  cases w <;> decide

theorem Width.bits_pos (w : Width) : 0 < w.bits := by
  cases w <;> decide

/-! ### The lowest bits -/

def low (n : Nat) (x : Word) : Word := (x.setWidth n).setWidth 64

theorem getLsbD_low (n : Nat) (x : Word) (i : Nat) :
    (low n x).getLsbD i = (decide (i < n) && x.getLsbD i) := by
  simp only [low, getLsbD_setWidth]
  grind

theorem low_eq_iff : low n x = low n y ↔ ∀ i < n, x.getLsbD i = y.getLsbD i := by
  constructor
  · intro h i hi
    have hbit := congrArg (·.getLsbD i) h
    simpa [getLsbD_low, hi] using hbit
  · intro h
    apply eq_of_getLsbD_eq
    intro i _
    rw [getLsbD_low, getLsbD_low]
    by_cases hi : i < n
    · rw [h i hi]
    · simp [hi]

@[simp] theorem low_low (n : Nat) (x : Word) : low n (low n x) = low n x := by
  rw [low_eq_iff]
  intro i hi
  simp [getLsbD_low, hi]

theorem low_eq_of_le {m : Nat} (hmn : m ≤ n) (h : low n x = low n y) : low m x = low m y := by
  rw [low_eq_iff] at h ⊢
  intro i hi
  exact h i (by omega)

theorem low_of_le (h : 64 ≤ n) (x : Word) : low n x = x := by
  apply eq_of_getLsbD_eq
  intro i hi
  rw [getLsbD_low, decide_eq_true (by omega), Bool.true_and]

theorem setWidth_eq_of_low_eq (h : low n x = low n y) : x.setWidth n = y.setWidth n := by
  apply eq_of_getLsbD_eq
  intro i hi
  simpa [hi] using low_eq_iff.mp h i hi

/-! ### Writing to a register -/

/-- A register after a write: a byte leaves the rest as it is, and 32 bits clear the upper half. -/
def overwritten (w : Width) (old x : Word) : Word :=
  match w with
  | .byte => old.extractLsb' 8 56 ++ x.setWidth 8
  | .long => low 32 x
  | .quad | .double => x

theorem getLsbD_overwritten_byte (old x : Word) (i : Nat) :
    (overwritten .byte old x).getLsbD i = if i < 8 then x.getLsbD i else old.getLsbD i := by
  simp only [overwritten, getLsbD_append, getLsbD_extractLsb', getLsbD_setWidth]
  split
  · simp [*]
  · grind

theorem low_overwritten (w : Width) (old x : Word) :
    low w.bits (overwritten w old x) = low w.bits x := by
  cases w with
  | byte =>
    rw [low_eq_iff]
    intro i hi
    have hi8 : i < 8 := hi
    rw [getLsbD_overwritten_byte, if_pos hi8]
  | long => exact low_low 32 x
  | _ => rfl

theorem low_max_overwritten {w : Width} {old old' : Word} (h : low n old = low n old') :
    low (max n w.bits) (overwritten w old x) = low (max n w.bits) (overwritten w old' x) := by
  cases w with
  | byte =>
    rw [low_eq_iff] at h ⊢
    intro i hi
    rw [getLsbD_overwritten_byte, getLsbD_overwritten_byte]
    split
    · rfl
    · have hbits : Width.byte.bits = 8 := rfl
      exact h i (by omega)
  | _ => rfl

theorem overwritten_congr {w : Width} {old : Word} (h : low w.bits x = low w.bits y) :
    overwritten w old x = overwritten w old y := by
  cases w with
  | byte =>
    have hbyte : x.setWidth 8 = y.setWidth 8 := setWidth_eq_of_low_eq h
    rw [overwritten, overwritten, hbyte]
  | long => exact h
  | _ =>
    have hword : low 64 x = low 64 y := h
    rwa [low_of_le (Nat.le_refl 64)] at hword

/-! ### Words in memory -/

/-- The contents of the memory. -/
abbrev Bytes := Word → BitVec 8

/-- The address of a byte after the first ones. -/
def byteAt (a : Word) (i : Nat) : Word := a + BitVec.ofNat 64 i

/-- The word that consists of some bytes at an address. -/
def loadBytes (memory : Bytes) (a : Word) : Nat → Word
  | 0 => 0#64
  | n + 1 => loadBytes memory a n ||| ((memory (byteAt a n)).setWidth 64 <<< (8 * n))

/-- Memory with some bytes at an address replaced by those of a word. -/
def storeBytes (memory : Bytes) (a : Word) (n : Nat) (x : Word) : Bytes := fun b =>
  if (b - a).toNat < n then x.extractLsb' (8 * (b - a).toNat) 8 else memory b

theorem getLsbD_loadBytes (memory : Bytes) (a : Word) (hn : n ≤ 8) (i : Nat) :
    (loadBytes memory a n).getLsbD i =
      (decide (i < 8 * n) && (memory (byteAt a (i / 8))).getLsbD (i % 8)) := by
  induction n with
  | zero => simp [loadBytes]
  | succ n ih =>
    rw [loadBytes, getLsbD_or, ih (by omega), getLsbD_shiftLeft]
    by_cases hlow : i < 8 * n
    · simp [hlow, show i < 8 * (n + 1) by omega]
    · by_cases hhigh : i < 8 * (n + 1)
      · have hdiv : i / 8 = n := by omega
        have hmod : i - 8 * n = i % 8 := by omega
        simp [hlow, hhigh, hdiv, hmod, show i < 64 by omega, show i % 8 < 64 by omega]
      · have hbyte : (memory (byteAt a n)).getLsbD (i - 8 * n) = false :=
          getLsbD_of_ge _ _ (by omega)
        simp [hlow, hhigh, hbyte]

theorem toNat_byteAt_sub {i : Nat} (hi : i < 2 ^ 64) : (byteAt a i - a).toNat = i := by
  rw [byteAt, add_comm, add_sub_cancel, toNat_ofNat, Nat.mod_eq_of_lt hi]

theorem eq_byteAt (a b : Word) : b = byteAt a (b - a).toNat := by
  rw [byteAt, ofNat_toNat, setWidth_eq, add_comm, sub_add_cancel]

theorem loadBytes_storeBytes (memory : Bytes) (a : Word) (hn : n ≤ 8) (x : Word) :
    loadBytes (storeBytes memory a n x) a n = low (8 * n) x := by
  apply eq_of_getLsbD_eq
  intro i _
  rw [getLsbD_loadBytes _ _ hn, getLsbD_low]
  by_cases hi : i < 8 * n
  · rw [storeBytes, toNat_byteAt_sub (by omega), if_pos (by omega), getLsbD_extractLsb',
      show 8 * (i / 8) + i % 8 = i by omega]
    simp [hi, show i % 8 < 8 by omega]
  · simp [hi]

theorem loadBytes_congr {memory memory' : Bytes}
    (h : ∀ i < n, memory (byteAt a i) = memory' (byteAt a i)) :
    loadBytes memory a n = loadBytes memory' a n := by
  induction n with
  | zero => rfl
  | succ n ih =>
    rw [loadBytes, loadBytes, ih fun i hi => h i (by omega), h n (by omega)]

theorem low_loadBytes (memory : Bytes) (a : Word) {m : Nat} (hmn : m ≤ n) (hn : n ≤ 8) :
    low (8 * m) (loadBytes memory a n) = loadBytes memory a m := by
  apply eq_of_getLsbD_eq
  intro i _
  rw [getLsbD_low, getLsbD_loadBytes _ _ hn, getLsbD_loadBytes _ _ (by omega)]
  by_cases hi : i < 8 * m
  · simp [hi, show i < 8 * n by omega]
  · simp [hi]

theorem storeBytes_loadBytes (memory : Bytes) (a : Word) (hn : n ≤ 8) :
    storeBytes memory a n (loadBytes memory a n) = memory := by
  funext b
  rw [storeBytes]
  split
  · apply eq_of_getLsbD_eq
    intro i hi
    rw [getLsbD_extractLsb', getLsbD_loadBytes _ _ hn,
      show (8 * (b - a).toNat + i) / 8 = (b - a).toNat by omega,
      show (8 * (b - a).toNat + i) % 8 = i by omega, ← eq_byteAt a b, decide_eq_true hi,
      decide_eq_true (by omega), Bool.true_and, Bool.true_and]
  · rfl

theorem storeBytes_of_not_mem {memory : Bytes} {b : Word} (h : ∀ i < n, b ≠ byteAt a i) :
    storeBytes memory a n x b = memory b := by
  rw [storeBytes, if_neg]
  intro hlt
  exact h _ hlt (eq_byteAt a b)

end ThreeAddress.Amd64
