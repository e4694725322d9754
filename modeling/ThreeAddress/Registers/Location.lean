import Std.Data.ExtTreeSet

/-!
# Locations

What can hold a value during register allocation: a register of the machine, or a pseudo register
that is still to be given a place.  Locations are ordered, registers first, and the order decides
the order of everything the allocator reports.
-/

namespace ThreeAddress

/-- A place for a value, with machine registers of type `R`. -/
inductive Location (R : Type) where
  | reg (r : R)
  | pseudo (name : String)
  deriving DecidableEq, Repr

namespace Location

variable {R : Type}

def pseudo? : Location R → Option String
  | reg _ => none
  | pseudo name => some name

def isPseudo (l : Location R) : Bool := l.pseudo?.isSome

def text (registerText : R → String) : Location R → String
  | reg r => registerText r
  | pseudo name => name

/-- Registers come before pseudo registers; both are ordered among themselves. -/
def order [Ord R] : Location R → Location R → Ordering
  | reg a, reg b => compare a b
  | reg _, pseudo _ => .lt
  | pseudo _, reg _ => .gt
  | pseudo a, pseudo b => compare a b

instance [Ord R] : Ord (Location R) := ⟨order⟩

instance [Ord R] [Std.TransOrd R] : Std.TransOrd (Location R) where
  eq_swap {a b} := by
    show order a b = (order b a).swap
    cases a with
    | reg r =>
      cases b with
      | reg s => exact (Std.OrientedCmp.eq_swap : compare r s = (compare s r).swap)
      | pseudo _ => rfl
    | pseudo m =>
      cases b with
      | reg _ => rfl
      | pseudo n => exact (Std.OrientedCmp.eq_swap : compare m n = (compare n m).swap)
  isLE_trans {a b c} h₁ h₂ := by
    change (order a b).isLE at h₁
    change (order b c).isLE at h₂
    show (order a c).isLE
    cases a with
    | reg r =>
      cases c with
      | pseudo _ => rfl
      | reg t =>
        cases b with
        | pseudo _ => cases h₂
        | reg s =>
          change (compare r s).isLE at h₁
          change (compare s t).isLE at h₂
          exact (Std.TransCmp.isLE_trans h₁ h₂ : (compare r t).isLE)
    | pseudo m =>
      cases b with
      | reg _ => cases h₁
      | pseudo n =>
        cases c with
        | reg _ => cases h₂
        | pseudo o =>
          change (compare m n).isLE at h₁
          change (compare n o).isLE at h₂
          exact (Std.TransCmp.isLE_trans h₁ h₂ : (compare m o).isLE)

instance [Ord R] [Std.LawfulEqOrd R] : Std.LawfulEqOrd (Location R) where
  compare_self {a} := by
    show order a a = .eq
    cases a with
    | reg r => exact (Std.ReflCmp.compare_self : compare r r = .eq)
    | pseudo n => exact (Std.ReflCmp.compare_self : compare n n = .eq)
  eq_of_compare {a b} h := by
    change order a b = .eq at h
    cases a with
    | reg r =>
      cases b with
      | reg s =>
        change compare r s = .eq at h
        rw [Std.LawfulEqCmp.eq_of_compare h]
      | pseudo _ => cases h
    | pseudo m =>
      cases b with
      | reg _ => cases h
      | pseudo n =>
        change compare m n = .eq at h
        rw [Std.LawfulEqCmp.eq_of_compare h]

end Location

abbrev LocationSet (R : Type) [Ord R] := Std.ExtTreeSet (Location R)

end ThreeAddress
