import ThreeAddress.Proofs.Registers.MoveExecution
import ThreeAddress.Proofs.Registers.Rounds

/-!
# Allocation keeps the meaning of move code

The allocator may rename pseudo registers any number of times and drop copies on the way.  What it
leaves is run with registers and stack slots in place of the pseudo registers that remain.  Every
operation then reads the values it read before, and the registers that are needed at the exit end up
with the same values.  This holds along every path on which no pseudo register is read before it is
written.
-/

namespace ThreeAddress

open List

namespace MoveMemory

variable {R V : Type}

/-- The memory at the start of a run.  Machine registers have values; pseudo registers are
unwritten. -/
def start (registers : R → V) : MoveMemory (Location R) V where
  cells
    | .reg r => some (registers r)
    | .pseudo _ => none
  log := []
  branches := 0

/-- The memory at the start of a run in registers and stack slots.  Whatever lies in the slots is
left from before. -/
def startInFrame (registers : R → V) (slots : Nat → Option V) : MoveMemory (Destination R) V where
  cells
    | .reg r => some (registers r)
    | .stack n => slots n
  log := []
  branches := 0

end MoveMemory

namespace MoveFunction

open AllocationProblem.AllSeparate

variable {R V : Type} [Ord R] [Std.TransOrd R] [Std.LawfulEqOrd R] [DecidableEq R]
  {f : MoveFunction R} {course : MoveCourse V} {registers : R → V}

omit [Ord R] [Std.TransOrd R] [Std.LawfulEqOrd R] in
theorem regular_problem (hcolours : f.colours.Pairwise List.Disjoint) : f.problem.Regular where
  nodup := nodup_range
  classOf_colour := by
    intro c hc r hr
    have hlt : c < f.colours.length := mem_range.mp hc
    have hmem : r ∈ f.colours[c] := by
      simpa [problem, getD_eq_getElem?_getD, getElem?_eq_getElem hlt] using hr
    -- No earlier class has the register.
    refine findIdx?_eq_some_iff_getElem.mpr ⟨hlt, by simpa using hmem, fun j hj => ?_⟩
    have hdisjoint := pairwise_iff_getElem.mp hcolours j c (by omega) hlt hj
    simpa using fun hmem' => hdisjoint hmem' hmem

/-- One round of coalescing keeps the meaning of a function. -/
theorem preserves_rename (hcolours : f.colours.Pairwise List.Disjoint)
    {graphs : List (Nat × InterferenceGraph R)} (hgraphs : f.problem.AllSeparate graphs) :
    Preserves (machine course id f.returns) f.body (.start registers)
      (machine course id f.returns)
      (f.rename (allRenames graphs)).body (.start registers) := by
  have hsafe := hgraphs.safe_renamed (regular_problem hcolours)
  have hcorrect : EditCorrect (machine course id f.returns) (machine course id f.returns) f.body
      (replacing (.map (renamed (allRenames graphs))) MoveInstr.isSelfMove f.body)
      (Placed f (fun _ => True) (renamed (allRenames graphs))) :=
    editCorrect_map hsafe (fun _ _ _ _ => trivial) (fun _ => trivial) (fun _ => rfl) (fun _ => id)
  have hstart : Placed f (fun _ => True)
      (renamed (allRenames graphs)) 0 (.start registers) (.start registers) := by
    refine ⟨fun l _ _ v hv => ?_, rfl, rfl, fun _ => rfl⟩
    cases l with
    | reg r => exact hv
    | pseudo x => cases hv
  have hpreserves := hcorrect.preserves hstart
  rwa [reduceOption_replacing] at hpreserves

def pseudoNames (f : MoveFunction R) : List String :=
  (f.body.flatMap MoveInstr.locations).filterMap Location.pseudo?

/-- Where the locations of an allocated function are kept.  Pseudo registers that were given no
register have stack slots of their own. -/
def placement (f : MoveFunction R) : Location R → Destination R :=
  ((allocate f).2.assignSlots (allocate f).1.pseudoNames).place

theorem preserves_place (course : MoveCourse V) (registers : R → V) {alloc : Allocation R}
    (hsafe : f.problem.Safe (fun l => ∀ x, l = .pseudo x → x ∈ f.pseudoNames) alloc.place)
    (slots : Nat → Option V) :
    Preserves (machine course id f.returns) f.body (.start registers)
      (machine course alloc.place f.returns) f.body (.startInFrame registers slots) := by
  have hplaced : ∀ i ∈ f.body, ∀ l ∈ i.access.reads, ∀ x, l = .pseudo x → x ∈ f.pseudoNames := by
    rintro i hi l hl x rfl
    exact mem_filterMap.mpr ⟨.pseudo x, mem_flatMap.mpr ⟨i, hi, mem_append_right _ hl⟩, rfl⟩
  have hcorrect : EditCorrect (machine course id f.returns) (machine course alloc.place f.returns)
      f.body (replacing (.map id) (fun _ => false) f.body)
      (Placed f (fun l => ∀ x, l = .pseudo x → x ∈ f.pseudoNames) alloc.place) :=
    editCorrect_map hsafe hplaced (nofun) (fun _ => rfl) (nofun)
  have hstart : Placed f (fun l => ∀ x, l = .pseudo x → x ∈ f.pseudoNames) alloc.place 0
      (.start registers) (.startInFrame registers slots) := by
    refine ⟨fun l _ _ v hv => ?_, rfl, rfl, fun _ => rfl⟩
    cases l with
    | reg r => exact hv
    | pseudo x => cases hv
  have hpreserves := hcorrect.preserves hstart
  have hmap : f.body.map (.map id) = f.body := by
    refine (map_congr_left fun i _ => ?_).trans (map_id _)
    cases i <;> simp [MoveInstr.map]
  rwa [reduceOption_replacing, hmap, Bool.not_false, filter_true] at hpreserves

/-- Every operation of an allocated function reads the values it read before, and the registers that
are needed at the exit end up with the same values. -/
theorem allocate_preserves (f : MoveFunction R) (hcolours : f.colours.Pairwise List.Disjoint)
    (course : MoveCourse V) (registers : R → V) (slots : Nat → Option V) :
    Preserves (machine course id f.returns) f.body (.start registers)
      (machine course f.placement f.returns) (allocate f).1.body
      (.startInFrame registers slots) := by
  let good : MoveFunction R → Prop := fun g => g.colours.Pairwise List.Disjoint
  let related : MoveFunction R → MoveFunction R → Prop := fun g h => h.returns = g.returns ∧
    Preserves (machine course id g.returns) g.body (.start registers)
      (machine course id h.returns) h.body (.start registers)
  obtain ⟨-, ⟨hreturns, hrounds⟩, hsafe⟩ :=
    allocate_induction good related (fun g hg => regular_problem hg)
      (fun g graphs hg hgraphs => ⟨hg, rfl, preserves_rename hg hgraphs⟩)
      (fun g => ⟨rfl, .refl _ _ _⟩)
      (fun hfg hgh => ⟨hgh.1.trans hfg.1, hfg.2.trans hgh.2⟩) hcolours (allocate f).1.pseudoNames
  have hplace := preserves_place course registers hsafe slots
  rw [hreturns] at hrounds hplace
  exact hrounds.trans hplace

/-- A loop with more values than there are registers, and a copy that can be coalesced. -/
def crowdedLoop : MoveFunction Nat where
  body :=
    [.op [.pseudo "a", .pseudo "b"] [], .op [.pseudo "c"] [.pseudo "a"],
      .label "l",
      .mov (.pseudo "d") (.pseudo "a"),
      .op [.pseudo "a"] [.pseudo "b", .pseudo "c", .pseudo "d"],
      .branch "l",
      .mov (.pseudo "e") (.pseudo "a"),
      .mov (.reg 0) (.pseudo "e"),
      .ret]
  colours := [[0, 1]]
  classes := []
  returns := [0]

/-- Sums, and a loop that is run through three times. -/
def summing : MoveCourse Nat where
  compute n reads j := n + reads.sum + j
  taken n := n < 2

theorem crowdedLoop_allocate_preserves :
    (allocate crowdedLoop).1.body.length < crowdedLoop.body.length ∧
      (allocate crowdedLoop).2.register? "b" = none ∧
      (machine summing id [0]).RunsDefined crowdedLoop.body (.start fun _ => 0) ∧
      Preserves (machine summing id [0]) crowdedLoop.body (.start fun _ => 0)
        (machine summing crowdedLoop.placement [0]) (allocate crowdedLoop).1.body
        (.startInFrame (fun _ => 0) fun _ => none) := by
  obtain ⟨result, hreturned⟩ : ∃ result, (((machine summing id [0]).step crowdedLoop.body)^[17]
      (.start _ (.start fun _ => 0))).ending = some (.returned result) := ⟨_, rfl⟩
  refine ⟨by decide +kernel, by decide +kernel, Machine.runsDefined_of_returned hreturned, ?_⟩
  exact allocate_preserves crowdedLoop (by simp [crowdedLoop]) summing (fun _ => 0) fun _ => none

end MoveFunction

end ThreeAddress
