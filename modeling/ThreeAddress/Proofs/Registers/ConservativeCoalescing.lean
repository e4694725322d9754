import ThreeAddress.Proofs.Registers.FullColouring
import ThreeAddress.Proofs.Registers.MoveAllocation
import ThreeAddress.Proofs.Registers.RenamedGraphs

/-!
# Coalescing causes no spills

If the first interference graph of a class can be emptied with the registers there are, no pseudo
register of the class is spilled.  Merging makes no core, and neither does building the graph anew
from renamed code, so there is none in any round; and a graph without a core is coloured completely.
-/

namespace ThreeAddress.MoveFunction

open AllocationProblem InterferenceGraph

variable {R : Type} [Ord R] [Std.TransOrd R] [Std.LawfulEqOrd R] [DecidableEq R]
  {f : MoveFunction R} {c : Nat}

abbrev firstGraph (f : MoveFunction R) (c : Nat) : InterferenceGraph R :=
  f.problem.interference f.problem.liveness c

theorem noCore_coalesce (hcolours : f.colours.Pairwise List.Disjoint)
    (hno : (f.firstGraph c).NoCore (f.problem.colours c).length) :
    ∀ g, (c, g) ∈ f.problem.coalesce f.problem.graphs → g.NoCore (f.problem.colours c).length := by
  refine (allSeparate_graphs (regular_problem hcolours).classOf_colour).noCore_coalesce
    fun g hg => ?_
  obtain ⟨d, -, heq⟩ := List.mem_map.mp hg
  cases heq
  exact hno

/-- No round makes a core.  The induction is on the number of rounds that are still allowed;
renaming keeps the registers of all classes. -/
theorem noCore_coalesceRounds (hcolours : f.colours.Pairwise List.Disjoint)
    (hc : c < f.colours.length) (hno : (f.firstGraph c).NoCore (f.problem.colours c).length)
    (fuel count : Nat) :
    ∀ g, (c, g) ∈ (coalesceRounds fuel f count).graphs → g.NoCore (f.problem.colours c).length := by
  induction fuel generalizing f count with
  | zero => exact noCore_coalesce hcolours hno
  | succ fuel ih =>
    unfold coalesceRounds
    simp only
    split
    · rename_i fuel' _ _ hfuel hrenames
      obtain rfl : fuel = fuel' := Nat.succ.inj hfuel
      have hsep := (allSeparate_graphs (regular_problem hcolours).classOf_colour).coalesce
      -- There is a graph for the class, from which the next one is built.
      obtain ⟨⟨_, g⟩, hg, rfl⟩ : ∃ x ∈ f.problem.coalesce f.problem.graphs, x.1 = c := by
        have hmem : c ∈ (f.problem.coalesce f.problem.graphs).map Prod.fst :=
          hsep.classes_eq ▸ List.mem_range.mpr hc
        exact List.mem_map.mp hmem
      exact ih (f := f.rename _) hcolours hc (noCore_interference_rename hsep
        (regular_problem hcolours) hg (noCore_coalesce hcolours hno g hg)) _
    · exact noCore_coalesce hcolours hno

theorem exists_of_mem_spilled_allocate {x : String} (hx : x ∈ (allocate f).2.spilled) :
    ∃ d g, (d, g) ∈ (coalesceAll f : Coalesced (MoveFunction R) R Nat).graphs ∧
      x ∈ (g.colour ((coalesceAll f : Coalesced (MoveFunction R) R Nat).function.problem.colours
        d)).spilled := by
  obtain ⟨colouring, hcolouring, hspilled⟩ :=
    List.mem_flatMap.mp (List.contains_iff_mem.mp (Std.ExtTreeSet.mem_ofList.mp hx))
  obtain ⟨⟨d, g⟩, hg, rfl⟩ := List.mem_map.mp hcolouring
  exact ⟨d, g, hg, hspilled⟩

/-- If the first graph of a class can be emptied with the registers of the class, none of its pseudo
registers is spilled, however many rounds of coalescing there are. -/
theorem allocate_spills_none_of_canBeEmptied (f : MoveFunction R)
    (hdisjoint : f.colours.Pairwise List.Disjoint) (hnodup : ∀ colours ∈ f.colours, colours.Nodup)
    (c : Nat) (hc : c < f.colours.length)
    (hempty : (f.firstGraph c).CanBeEmptied (f.problem.colours c).length) :
    ∀ x ∈ (allocate f).2.spilled, f.classOf (.pseudo x) ≠ some c := by
  intro x hx hclass
  -- Renaming keeps the registers and the classes of names.
  obtain ⟨⟨hcolours, hclasses⟩, -, hsep⟩ := coalesceRounds_induction
    (fun g : MoveFunction R => g.colours = f.colours ∧ g.classes = f.classes) (fun _ _ => True)
    (fun g hg => regular_problem (hg.1 ▸ hdisjoint)) (fun g _ hg _ => ⟨hg, trivial⟩)
    (fun _ => trivial) (fun _ _ => trivial) f.problem.pseudoUses f 0 ⟨rfl, rfl⟩
  have hno := noCore_coalesceRounds hdisjoint hc hempty.noCore f.problem.pseudoUses 0
  -- A name is spilled by the graph of its class only.
  obtain ⟨d, g, hg, hspilled⟩ := exists_of_mem_spilled_allocate hx
  obtain ⟨n, m, -, hm, hlocation, -⟩ := exists_of_mem_spilled hspilled
  have hwithin := (hsep.separates _ hg).within n m hm
  rw [hlocation] at hwithin
  have hd : f.classOf (.pseudo x) = some d := by
    rw [← hwithin]
    exact congrArg (fun classes => (classes.lookup x).getD (some 0)) hclasses.symm
  obtain rfl : d = c := Option.some.inj (hd.symm.trans hclass)
  have hsame : (coalesceAll f : Coalesced (MoveFunction R) R Nat).function.problem.colours d =
      f.problem.colours d := congrArg (fun colours => colours.getD d []) hcolours
  have hnodup' : (f.problem.colours d).Nodup := hnodup _ (by
    show f.colours.getD d [] ∈ f.colours
    rw [List.getD_eq_getElem?_getD, List.getElem?_eq_getElem hc]
    exact List.getElem_mem hc)
  rw [hsame, (hno g hg).spilled_colour (hsep.separates _ hg).wellFormed hnodup'] at hspilled
  cases hspilled

/-- A loop with copies between pseudo registers and to and from a machine register, next to a class
that has too few registers. -/
def crowdedBeside : MoveFunction Nat where
  body :=
    [.mov (.pseudo "n") (.reg 0), .op [.pseudo "x", .pseudo "y"] [],
      .op [.pseudo "a"] [.pseudo "n"],
      .label "l",
      .mov (.pseudo "b") (.pseudo "a"),
      .op [.pseudo "a"] [.pseudo "b", .pseudo "n"],
      .branch "l",
      .op [] [.pseudo "x", .pseudo "y"],
      .mov (.reg 0) (.pseudo "a"),
      .ret]
  colours := [[0, 1], [2]]
  classes := [("x", some 1), ("y", some 1)]
  returns := [0]

theorem crowdedBeside_spills_none :
    (crowdedBeside.firstGraph 0).CanBeEmptied (crowdedBeside.problem.colours 0).length ∧
      (allocate crowdedBeside).1.body.length + 2 = crowdedBeside.body.length ∧
      (allocate crowdedBeside).2.spilled.isEmpty = false ∧
      ∀ x ∈ (allocate crowdedBeside).2.spilled, crowdedBeside.classOf (.pseudo x) ≠ some 0 := by
  have hempty : (crowdedBeside.firstGraph 0).CanBeEmptied
      (crowdedBeside.problem.colours 0).length :=
    canBeEmptied_of_forall_lt [2, 3, 4] (by decide +kernel) (by decide +kernel)
  refine ⟨hempty, by decide +kernel, by decide +kernel, ?_⟩
  exact allocate_spills_none_of_canBeEmptied crowdedBeside (by simp [crowdedBeside, List.Disjoint])
    (by decide) 0 (by decide) hempty

end ThreeAddress.MoveFunction
