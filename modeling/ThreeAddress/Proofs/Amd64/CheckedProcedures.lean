import ThreeAddress.Proofs.Amd64.StackDiscipline
import ThreeAddress.Proofs.Registers.CheckedColouring

/-!
# Checked procedures

The checks in what happens to a procedure after it is lowered: the allocation of its registers, its
stack frame, the instructions that replace those that cannot be encoded, and the drawings of its
interference graphs.  All numbers that occur on the way are bounded by the square of the size of the
procedure.
-/

namespace ThreeAddress.Amd64

open Checked MoveFunction List

/-! ### The size of a procedure -/

namespace Instr

/-- What an instruction adds to the size of a procedure: itself, its operands, which may be read and
written, and the registers that it uses without naming them. -/
def weight (i : Instr) (arguments : List Register) : Nat :=
  1 + 2 * i.operands.length + (i.implicitReads arguments).length + i.implicitWrites.length

theorem length_reads_add_writes_lt (i : Instr) (arguments : List Register) :
    (i.reads arguments).length + i.writes.length < i.weight arguments := by
  let named : Operand × Direction → List (Location Register) := fun x =>
    (if x.2.reads then x.1.location?.toList else []) ++ (x.1.base?.map .reg).toList
  let written? : Operand × Direction → Option (Location Register) := fun x =>
    if x.2.writes then x.1.location? else none
  have hone (x : Operand × Direction) : (named x).length + (written? x).toList.length ≤ 2 := by
    obtain ⟨o, d⟩ := x
    cases d <;> cases o <;> simp [named, written?, Direction.reads, Direction.writes,
      Operand.location?, Operand.base?]
  have hall (xs : List (Operand × Direction)) :
      (xs.flatMap named).length + (xs.filterMap written?).length ≤ 2 * xs.length := by
    induction xs with
    | nil => exact Nat.le_refl 0
    | cons x rest ih =>
      have hx := hone x
      rw [flatMap_cons, length_append, filterMap_cons]
      cases hwritten : written? x <;>
        simp only [hwritten, Option.toList_none, Option.toList_some, length_nil,
          length_cons] at hx ⊢ <;>
        omega
  have hzip : (i.operands.zip i.directions).length ≤ i.operands.length := by
    rw [length_zip]
    exact Nat.min_le_left _ _
  have hnamed := hall (i.operands.zip i.directions)
  simp only [reads, writes, weight, length_append, length_map]
  show (flatMap named _).length + _ + ((filterMap written? _).length + _) < _
  omega

end Instr

namespace Procedure

variable {q : Procedure}

def weight (q : Procedure) : Nat :=
  (q.body.map fun i => i.weight (q.argumentsOf i)).sum + q.results.length +
    (RegisterClass.all.flatMap RegisterClass.colours).length + 1

theorem weight_problem_le (q : Procedure) : q.problem.weight ≤ q.weight := by
  have hcode (code : List Instr) : (code.map q.access).length +
        ((code.map q.access).flatMap fun a => a.reads ++ a.writes).length ≤
      (code.map fun i => i.weight (q.argumentsOf i)).sum := by
    induction code with
    | nil => exact Nat.le_refl 0
    | cons i rest ih =>
      have hi := i.length_reads_add_writes_lt (q.argumentsOf i)
      simp only [map_cons, flatMap_cons, length_cons, length_append, sum_cons]
      show _ + 1 + ((i.reads (q.argumentsOf i)).length + i.writes.length + _) ≤ _
      omega
  have hbody := hcode q.body
  show (q.body.map q.access).length +
    ((q.body.map q.access).flatMap fun a => a.reads ++ a.writes).length + q.results.length +
      (RegisterClass.all.flatMap RegisterClass.colours).length + 1 ≤ _
  unfold weight
  omega

theorem handsOut_problem (q : Procedure) : q.problem.HandsOut where
  nodup := q.regular_problem.nodup
  classOf_reg := by
    intro c hc r
    refine ⟨fun hclass => ?_, fun hr => q.regular_problem.classOf_colour c hc r hr⟩
    have hmem := mem_colours_of_classOf (p := q) hclass
    have hsame : q.classOf (.reg r) = some r.registerClass :=
      if_pos (contains_iff_mem.mpr hmem)
    rw [Option.some.inj (hclass.symm.trans hsame)]
    exact hmem

theorem argumentsOf_rename (q : Procedure) (renames : Renaming Register) (i : Instr) :
    (q.rename renames).argumentsOf (i.mapOperands (renamedOperand renames)) = q.argumentsOf i := by
  obtain ⟨op, w, operands⟩ := i
  cases operands with
  | nil => rfl
  | cons o rest =>
    cases o with
    | pseudo x =>
      have hpseudo := renamedOperand_pseudo renames x
      simp only [argumentsOf, Instr.mapOperands, map_cons, head?_cons, hpseudo]
      cases op <;> cases renamed renames (.pseudo x) <;> rfl
    | _ => rfl

theorem weight_rename_le (q : Procedure) (renames : Renaming Register) :
    (q.rename renames).weight ≤ q.weight := by
  have hbody : ((q.rename renames).body.map fun j =>
      j.weight ((q.rename renames).argumentsOf j)).sum ≤
      (q.body.map fun i => i.weight (q.argumentsOf i)).sum := by
    have hsublist : (q.rename renames).body.Sublist
        (q.body.map (.mapOperands (renamedOperand renames))) := filter_sublist
    refine (Sublist.sum_le_sum (hsublist.map _) fun _ _ => Nat.zero_le _).trans ?_
    rw [map_map]
    refine Nat.le_of_eq (congrArg sum (map_congr_left fun i _ => ?_))
    show (i.mapOperands (renamedOperand renames)).weight _ = _
    rw [argumentsOf_rename]
    show 1 + 2 * (i.operands.map _).length + _ + _ = _
    rw [length_map]
    rfl
  exact Nat.add_le_add_right (Nat.add_le_add_right (Nat.add_le_add_right hbody _) _) _

theorem length_eraseDups_le (names : List String) : names.eraseDups.length ≤ names.length := by
  -- The induction is on the length, since a name is removed from all that follows it.
  induction hlength : names.length using Nat.strong_induction_on generalizing names with
  | _ n ih =>
    cases names with
    | nil => exact Nat.zero_le _
    | cons x rest =>
      rw [← hlength, eraseDups_cons, length_cons, length_cons]
      have hfilter := length_filter_le (fun y => !y == x) rest
      have hrest := ih _ (by rw [← hlength]; exact Nat.lt_succ_of_le hfilter) _ rfl
      omega

theorem length_pseudoNames_le (q : Procedure) : q.pseudoNames.length + 27 ≤ q.weight := by
  have hcode (code : List Instr) : (code.flatMap Instr.operands).length ≤
      (code.map fun i => i.weight (q.argumentsOf i)).sum := by
    rw [length_flatMap]
    refine sum_le_sum fun i _ => ?_
    unfold Instr.weight
    omega
  have hnames : q.pseudoNames.length ≤ (q.body.flatMap Instr.operands).length :=
    (length_eraseDups_le _).trans (length_filterMap_le _ _)
  have hbody := hcode q.body
  have hregisters : (RegisterClass.all.flatMap RegisterClass.colours).length = 26 := rfl
  unfold weight
  omega

end Procedure

/-! ### Stack frames -/

def Frame.ofSlotsChecked (limit slotBytes : Nat) (saved : List Register) : Checked Frame := do
  let pushed := 8 * saved.length
  ensure .overflow (pushed ≤ limit)
  ensure .overflow (slotBytes + pushed ≤ limit)
  ensure .overflow (roundUp16 (slotBytes + pushed) ≤ limit)
  ensure .overflow (pushed ≤ roundUp16 (slotBytes + pushed))
  return ofSlots slotBytes saved

theorem Frame.ofSlotsChecked_eq {limit slotBytes : Nat} {saved : List Register}
    (h : slotBytes + 8 * saved.length + 15 ≤ limit) :
    ofSlotsChecked limit slotBytes saved = .ok (ofSlots slotBytes saved) := by
  have hround : roundUp16 (slotBytes + 8 * saved.length) ≤ limit ∧
      8 * saved.length ≤ roundUp16 (slotBytes + 8 * saved.length) := by
    unfold roundUp16
    omega
  rw [ofSlotsChecked, ensure_bind (by omega), ensure_bind (by omega), ensure_bind hround.1,
    ensure_bind hround.2]
  rfl

namespace Procedure

variable {q : Procedure} {limit : Nat}

theorem length_savedRegisters_le (q : Procedure) : q.savedRegisters.length ≤ 5 := by
  have hsubset : q.savedRegisters ⊆ Register.calleeSaved :=
    fun r hr => (mem_savedRegisters_iff.mp hr).1
  exact (q.nodup_savedRegisters.subperm hsubset).length_le

/-- Allocates registers and stack slots, and replaces the pseudo registers by them. -/
def assignRegistersChecked (limit : Nat) (q : Procedure) : Checked Allocated := do
  let (coalesced, allocation) ← allocateChecked limit q
  let allocation ← allocation.assignSlotsChecked limit coalesced.pseudoNames
  let final := coalesced.replacePseudos fun name =>
    (allocation.destination? name).map destinationOperand
  ensure .overflow (allocation.stackSize ≤ limit)
  let frame ← Frame.ofSlotsChecked limit allocation.stackSize final.savedRegisters
  return { procedure := final, frame := frame, graphs := allocation.graphs }

/-- No check fails when registers are allocated, if the square of the size of the procedure is
within the limit. -/
theorem assignRegistersChecked_eq (hlimit : q.weight ^ 2 ≤ limit) :
    q.assignRegistersChecked limit = .ok q.assignRegisters ∧
      ∀ g ∈ q.assignRegisters.graphs, g.WellFormed := by
  obtain ⟨hallocate, hsize, hgraphs⟩ :=
    allocateChecked_eq handsOut_problem weight_problem_le weight_rename_le hlimit
  have hnames := (length_pseudoNames_le (allocate q).1).trans hsize
  have hbytes :=
    calc 8 * ((allocate q).1.pseudoNames.length + 27)
      _ ≤ q.weight * q.weight := Nat.mul_le_mul (by omega) hnames
      _ ≤ limit := (Nat.pow_two _).ge.trans hlimit
  have hempty : (allocate q).2.slots.length = 0 := rfl
  have hroom : 8 * ((allocate q).2.slots.length + (allocate q).1.pseudoNames.length) ≤ limit := by
    omega
  obtain ⟨hslots, hlength⟩ := Allocation.assignSlotsChecked_eq hroom
  have hstack : ((allocate q).2.assignSlots (allocate q).1.pseudoNames).stackSize ≤
      8 * (allocate q).1.pseudoNames.length := Nat.mul_le_mul_left 8 (hlength.trans (by omega))
  constructor
  · rw [assignRegistersChecked, hallocate, ok_bind]
    dsimp only
    rw [hslots, ok_bind, ensure_bind (hstack.trans (by omega)), Frame.ofSlotsChecked_eq]
    · rfl
    · have hsaved := length_savedRegisters_le q.assignRegisters.procedure
      refine Nat.le_trans (Nat.add_le_add_right (Nat.add_le_add hstack
        (Nat.mul_le_mul_left 8 hsaved)) 15) (by omega)
  · have hsame : q.assignRegisters.graphs = (allocate q).2.graphs :=
      Allocation.graphs_assignSlots _ _
    rwa [hsame]

end Procedure

/-! ### Encodable instructions -/

/-- Makes an instruction encodable.  The direction and the width of the first operand are looked up,
and the width of the second. -/
def Instr.legaliseChecked (i : Instr) : Checked (List Instr) := do
  ensure .outOfRange (i.operands ≠ [] → i.directions ≠ [] ∧ i.operandWidths ≠ [])
  ensure .outOfRange (1 < i.operands.length → 1 < i.operandWidths.length)
  return i.legalise

theorem Instr.legaliseChecked_eq {i : Instr} (h : i.operands.length ≤ i.operandWidths.length) :
    i.legaliseChecked = .ok i.legalise := by
  have hfirst (hne : i.operands ≠ []) : i.directions ≠ [] ∧ i.operandWidths ≠ [] := by
    refine ⟨directions_ne_nil hne, ne_nil_of_length_pos ?_⟩
    exact (length_pos_of_ne_nil hne).trans_le h
  rw [legaliseChecked, ensure_bind hfirst, ensure_bind fun hlt => hlt.trans_le h]
  rfl

/-! ### Finished procedures -/

/-- Allocates the registers of a lowered procedure and makes it encodable. -/
def finishChecked (limit : Nat) (c : Config) (q : Procedure) : Checked Generated := do
  let wanted := c.dumps.wants q.name
  let allocated ← q.assignRegistersChecked limit
  let code ← allocated.procedure.body.mapM Instr.legaliseChecked
  let final := { allocated.procedure with body := code.flatten }
  let drawn := if c.dumps.interference && wanted then allocated.graphs else []
  let drawings ← drawn.mapM fun g => do
    let drawing ← g.dotChecked Register.text
    return (⟨q.name, "interference." ++ g.name, drawing⟩ : Dump)
  return {
    emitted := ⟨final, allocated.frame⟩
    dumps :=
      (if c.dumps.assembly && wanted then [⟨q.name, "asm.pseudo", q.text⟩] else []) ++ drawings ++
      (if c.dumps.assembly && wanted then [⟨q.name, "asm.allocated", final.text⟩] else []) }

/-- No check fails after a procedure is lowered, if the square of its size is within the limit. -/
theorem finishChecked_eq {limit : Nat} {q : Procedure} {doubles stack : Bool}
    {targets : Label → Prop} (hforms : ∀ i ∈ q.body, i.IsLowered doubles stack targets)
    (hlimit : q.weight ^ 2 ≤ limit) (c : Config) : finishChecked limit c q = .ok (finish c q) := by
  obtain ⟨hassign, hgraphs⟩ := Procedure.assignRegistersChecked_eq hlimit
  obtain ⟨g, -, hreplaced⟩ := q.replaced_assignRegisters
  have hcode : ∀ j ∈ q.assignRegisters.procedure.body, j.legaliseChecked = .ok j.legalise := by
    intro j hj
    obtain ⟨i, hi, rfl⟩ := hreplaced.exists_of_mem hj
    refine Instr.legaliseChecked_eq ?_
    rw [Instr.operandWidths_mapOperands, Instr.mapOperands, length_map]
    exact (hforms i hi).operandWidths_length
  have hdrawn : ∀ g ∈ (if c.dumps.interference && c.dumps.wants q.name then
      q.assignRegisters.graphs else []), g.WellFormed := by
    split
    · exact hgraphs
    · simp
  have hdrawing : ∀ g ∈ (if c.dumps.interference && c.dumps.wants q.name then
      q.assignRegisters.graphs else []), (do
        let drawing ← g.dotChecked Register.text
        return ⟨q.name, "interference." ++ g.name, drawing⟩) =
      (.ok ⟨q.name, "interference." ++ g.name, g.dot Register.text⟩ : Checked Dump) := by
    intro g hg
    rw [(hdrawn g hg).dotChecked_eq]
    rfl
  rw [finishChecked, hassign, ok_bind, mapM_eq_ok hcode]
  dsimp only
  rw [mapM_eq_ok hdrawing, finish]
  cases c.dumps.interference && c.dumps.wants q.name <;> rfl

end ThreeAddress.Amd64
