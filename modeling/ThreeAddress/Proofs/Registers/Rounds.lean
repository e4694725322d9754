import ThreeAddress.Proofs.Registers.Placement

/-!
# Rounds of allocation

The allocator coalesces a function round after round and colours what results.  If one round keeps a
property of functions and a relation between them, so do all rounds, however many there are.  The
graphs of the last round separate what has to be kept apart, so that the registers handed out are
safe for the function that is left.
-/

namespace ThreeAddress

open AllocationProblem AllSeparate

variable {F R C L : Type} [Ord R] [Std.TransOrd R] [Std.LawfulEqOrd R] [DecidableEq R]
  [DecidableEq C] [DecidableEq L] [Target F R C L]

/-- The problem that a function poses to the allocator. -/
abbrev problemOf (f : F) : AllocationProblem R C L := Target.problem f

/-- One round keeps a property and relates a function to what it becomes. -/
def RoundKeeps (good : F → Prop) (related : F → F → Prop) : Prop :=
  ∀ (f : F) (graphs : List (C × InterferenceGraph R)), good f → (problemOf f).AllSeparate graphs →
    good (Target.rename f (allRenames graphs)) ∧ related f (Target.rename f (allRenames graphs))

omit [Ord R] [Std.TransOrd R] [Std.LawfulEqOrd R] [DecidableEq R] in
theorem mem_of_getElem?_ofList {pairs : List (String × R)} {x : String} {r : R}
    (h : (Std.ExtTreeMap.ofList pairs compare)[x]? = some r) : (x, r) ∈ pairs := by
  rw [Std.ExtTreeMap.ofList_eq_insertMany_empty, Std.ExtTreeMap.getElem?_insertMany_list,
    Std.ExtTreeMap.getElem?_empty, Option.or_none, List.findSomeRev?_eq_findSome?_reverse] at h
  obtain ⟨⟨y, s⟩, hmem, hy⟩ := List.exists_of_findSome?_eq_some h
  change (if compare y x = .eq then some s else none) = some r at hy
  split at hy
  · rename_i heq
    obtain rfl := Std.LawfulEqOrd.compare_eq_iff_eq.mp heq
    cases hy
    exact List.mem_reverse.mp hmem
  · cases hy

/-- The registers of an allocation were handed out for the function that is left. -/
theorem colouredBy_allocate (f : F) :
    (problemOf (allocate f).1).ColouredBy (coalesceAll f).graphs (allocate f).2 := by
  intro x r hr
  obtain ⟨colouring, hcolouring, hmem⟩ := List.mem_flatMap.mp (mem_of_getElem?_ofList hr)
  obtain ⟨⟨c, g⟩, hg, rfl⟩ := List.mem_map.mp hcolouring
  exact ⟨c, g, hg, hmem⟩

/-! ### What rounds keep -/

variable (good : F → Prop) (related : F → F → Prop)
  (hregular : ∀ f, good f → (problemOf f).Regular) (hround : RoundKeeps good related)
  (hrefl : ∀ f, related f f) (htrans : ∀ {f g h}, related f g → related g h → related f h)

include hregular hround hrefl htrans

/-- What one round keeps, all rounds keep.  The induction is on the number of rounds that are still
allowed; the graphs are those of the last round, whether or not they would rename anything. -/
theorem coalesceRounds_induction (fuel : Nat) (f : F) (count : Nat) (hf : good f) :
    good (coalesceRounds fuel f count).function ∧
      related f (coalesceRounds fuel f count).function ∧
      (problemOf (coalesceRounds fuel f count).function).AllSeparate
        (coalesceRounds fuel f count).graphs := by
  induction fuel generalizing f count with
  | zero =>
    have hsep := (allSeparate_graphs (hregular f hf).classOf_colour).coalesce
    exact ⟨hf, hrefl f, hsep⟩
  | succ fuel ih =>
    have hsep := (allSeparate_graphs (hregular f hf).classOf_colour).coalesce
    unfold coalesceRounds
    simp only
    split
    · rename_i fuel' _ _ hfuel hrenames
      obtain rfl : fuel = fuel' := Nat.succ.inj hfuel
      obtain ⟨hgood, hrelated⟩ := hround f _ hf hsep
      obtain ⟨hgood', hrelated', hsep'⟩ := ih (Target.rename f _) _ hgood
      exact ⟨hgood', htrans hrelated hrelated', hsep'⟩
    · exact ⟨hf, hrefl f, hsep⟩

/-- The function that is left after allocation has the property that rounds keep, and is related to
the function that was given.  It is coloured by graphs that separate what has to be kept apart. -/
theorem allSeparate_allocate {f : F} (hf : good f) :
    good (allocate f).1 ∧ related f (allocate f).1 ∧
      (problemOf (allocate f).1).AllSeparate (coalesceAll f).graphs :=
  coalesceRounds_induction good related hregular hround hrefl htrans (problemOf f).pseudoUses f 0 hf

/-- The function that is left after allocation has the property that rounds keep, and is related to
the function that was given.  Its registers and stack slots are safe. -/
theorem allocate_induction {f : F} (hf : good f) (names : List String) :
    good (allocate f).1 ∧ related f (allocate f).1 ∧
      (problemOf (allocate f).1).Safe (fun l => ∀ x, l = .pseudo x → x ∈ names)
        ((allocate f).2.assignSlots names).place := by
  obtain ⟨hgood, hrelated, hsep⟩ :=
    allSeparate_allocate good related hregular hround hrefl htrans hf
  exact ⟨hgood, hrelated, hsep.safe_place (hregular _ hgood) (colouredBy_allocate f) names⟩

end ThreeAddress
