import ThreeAddress.Proofs.Amd64.AllocatedCode

/-!
# Allocation keeps the meaning of functions

The code of a function of a verified program is allocated without a change of its meaning, unless it
divides doubles.  Wherever the code over pseudo registers runs without reading a variable that was
not assigned, the code over registers and stack slots makes the same calls with the same arguments,
leaves the same shared memory, and returns the same values.

A division of doubles writes to an operand of which the allocator believes that it is only read.
The dividend may then share a register with the quotient, although it is still needed.
-/

namespace ThreeAddress.Amd64

variable {i : Instr} {program : Program} {platform : Platform} {f : Function}
  {constants constants' : ConstantPool} {q : Procedure}

/-! ### Lowered code -/

theorem Instr.IsLowered.rbp_not_mem {doubles stack : Bool} {targets : Label → Prop}
    (h : i.IsLowered doubles stack targets) : .reg .rbp ∉ i.operands := by
  intro hmem
  cases h.operands _ hmem with
  | value ho => cases ho
  | register hr => exact absurd hr (by decide)

/-! ### Functions -/

/-- Allocation keeps the meaning of the code of a function that divides no doubles.  It makes the
same calls, leaves the same shared memory and returns the same values. -/
theorem allocated_preserves_lowered {c : Config} (hverify : program.verify c = .ok ())
    (hf : f ∈ program.functions)
    (hq : lowerFunction program platform f constants = .ok (q, constants'))
    (hdivision : ∀ i ∈ q.body, i.isDoubleDivision = false) {e : Setting} {base : Word} {m : Storage}
    (hframe : q.Framed e base q.allocation) (hm : m.Starts base) :
    Preserves (q.machine e (e.checks false)) q.body m (q.assignRegisters.procedure.machine e .none)
      q.assignRegisters.procedure.body m := by
  obtain ⟨_, -, haccepted, -, -⟩ := program.accepted_of_verify hverify hf
  have htype := haccepted.typeDefect?_eq
  have hsound : q.Sound := fun i hi =>
    ⟨hdivision i hi, (isLowered_of_lowerFunction hq htype i hi).rbp_not_mem⟩
  exact (lowerFunction_strict hq htype e hm.registers).trans
    (Procedure.preserves_assignRegisters hsound hframe hm)

/-! ### A function with two stack slots -/

/-- A function that shares a variable with a callee, and keeps a double over the call. -/
def sharingFunction : Function where
  name := "f"
  isGlobal := true
  params := [⟨"a", .int⟩, ⟨"d", .double⟩]
  returnType := some .double
  body :=
    [.addressOf ⟨"p", .pointer⟩ (.var ⟨"x", .int⟩),
      .store (.var ⟨"p", .pointer⟩) (.var ⟨"a", .int⟩),
      .call none "g" [.var ⟨"p", .pointer⟩],
      .convert ⟨"y", .double⟩ .intToDouble (.var ⟨"x", .int⟩),
      .binary ⟨"z", .double⟩ .add (.var ⟨"d", .double⟩) (.var ⟨"y", .double⟩),
      .ret (some (.var ⟨"z", .double⟩))]

def sharingProgram : Program := ⟨[sharingFunction], []⟩

/-- A setting in which the first stack slot is private and the second is shared.  The callee takes a
pointer, and assigns 5 to what is shared. -/
def sharingSetting : Setting where
  hardware :=
    { double := fun op x y => if op = .div then x - y else x + y
      compare := fun x y => .ofSub x y
      toInteger := fun _ x => x
      ofInteger := fun _ x => x
      flags := fun _ _ _ old => old }
  symbols := fun _ => 0x2000
  homes := fun _ => 0x2ff0
  region := fun a => if 0x2ff8 ≤ a.toNat ∧ a.toNat < 0x3000 then .frame else .shared
  takes := fun _ _ => [(.reg .rdi, .quad)]
  respond := fun _ => some ⟨fun _ => 9, fun a => if a = 0x2ff0 then 5#8 else 0#8, .ofBitwise 0#8⟩
  takesResults := fun _ => [(.xmm 0, .double)]

/-- Arguments 3, and 20 as the bits of a double, when nothing is assigned yet. -/
def sharingStorage : Storage where
  cells
    | .reg .rdi => 3
    | .reg (.xmm 0) => 20
    | .reg .rbp => 0x3000
    | _ => 0
  determined
    | .reg _ => 64
    | .pseudo _ => 0
  bytes := fun _ => 0#8
  settled := fun _ => false
  flags := .ofBitwise 0#8
  trace := []

theorem starts_sharing : sharingStorage.Starts 0x3000 := ⟨fun _ => Nat.le_refl _, fun _ => rfl, rfl⟩

theorem framed_sharing (hslots : q.allocation.slots = ["d", "x"])
    (hd : q.isAliased "d" = false) (hx : q.isAliased "x" = true) :
    q.Framed sharingSetting 0x3000 q.allocation := by
  have hslot {x : String} {n : Nat} (hn : q.allocation.slot? x = some n) :
      x = "d" ∧ n = 8 ∨ x = "x" ∧ n = 16 := by
    simp only [Allocation.slot?, hslots, List.idxOf?_cons, List.idxOf?_nil] at hn
    split at hn
    · simp_all
    · split at hn
      · simp_all
      · simp at hn
  refine ⟨by simp [Allocation.stackSize, hslots], ?_, ?_⟩
  · intro x n haliased hn
    rcases hslot hn with ⟨rfl, rfl⟩ | ⟨rfl, rfl⟩
    · rw [hd] at haliased
      cases haliased
    · decide
  · intro x n haliased hn
    rcases hslot hn with ⟨rfl, rfl⟩ | ⟨rfl, rfl⟩
    · decide
    · rw [hx] at haliased
      cases haliased

theorem sharing_preserved :
    sharingProgram.verify {} = .ok () ∧ sharingFunction ∈ sharingProgram.functions ∧
      ∃ q constants, lowerFunction sharingProgram .linux sharingFunction (.empty .linux) =
          .ok (q, constants) ∧ (∀ i ∈ q.body, i.isDoubleDivision = false) ∧
        q.Framed sharingSetting 0x3000 q.allocation ∧ sharingStorage.Starts 0x3000 ∧
        (q.machine sharingSetting (sharingSetting.checks false)).RunsDefined q.body sharingStorage ∧
        Preserves (q.machine sharingSetting (sharingSetting.checks false)) q.body sharingStorage
          (q.assignRegisters.procedure.machine sharingSetting .none)
          q.assignRegisters.procedure.body sharingStorage := by
  have hverify : sharingProgram.verify {} = .ok () := by decide
  have hmem : sharingFunction ∈ sharingProgram.functions := List.mem_singleton_self _
  refine ⟨hverify, hmem, ?_⟩
  obtain ⟨q, constants, hq, hdivision, hslots, hd, hx, hreturned⟩ : ∃ q constants,
      lowerFunction sharingProgram .linux sharingFunction (.empty .linux) = .ok (q, constants) ∧
        (∀ i ∈ q.body, i.isDoubleDivision = false) ∧ q.allocation.slots = ["d", "x"] ∧
        q.isAliased "d" = false ∧ q.isAliased "x" = true ∧ ∃ result,
          (((q.machine sharingSetting (sharingSetting.checks false)).step q.body)^[12]
            (.start _ sharingStorage)).ending = some (.returned result) :=
    ⟨_, _, rfl, by decide, by decide +kernel, by decide, by decide, _, rfl⟩
  have hframe := framed_sharing hslots hd hx
  obtain ⟨result, hreturned⟩ := hreturned
  exact ⟨q, constants, hq, hdivision, hframe, starts_sharing,
    Machine.runsDefined_of_returned hreturned,
    allocated_preserves_lowered hverify hmem hq hdivision hframe starts_sharing⟩

/-! ### A division of doubles -/

/-- A function that divides a double and needs it again. -/
def quotientFunction : Function where
  name := "f"
  isGlobal := true
  params := [⟨"a", .double⟩, ⟨"b", .double⟩]
  returnType := some .double
  body :=
    [.binary ⟨"x", .double⟩ .divide (.var ⟨"a", .double⟩) (.var ⟨"b", .double⟩),
      .binary ⟨"y", .double⟩ .add (.var ⟨"x", .double⟩) (.var ⟨"a", .double⟩),
      .ret (some (.var ⟨"y", .double⟩))]

def quotientProgram : Program := ⟨[quotientFunction], []⟩

/-- Arguments with the bits of 10 and 3. -/
def quotientStorage : Storage :=
  { sharingStorage with
    cells := fun
      | .reg (.xmm 0) => 10
      | .reg (.xmm 1) => 3
      | .reg .rbp => 0x3000
      | _ => 0 }

/-- What the function becomes: the quotient takes the register of the dividend. -/
def quotientCode : List Instr :=
  [⟨.div, .double, [.reg (.xmm 0), .reg (.xmm 1)]⟩, ⟨.add, .double, [.reg (.xmm 0), .reg (.xmm 0)]⟩,
    .bare .ret []]

theorem quotientCode_returns {p : Procedure} (hbody : p.body = quotientCode)
    (hresults : p.results = [.xmm 0]) : ∃ bytes,
      (((p.machine sharingSetting .none).step p.body)^[3] (.start _ quotientStorage)).ending =
        some (.returned ⟨[14], bytes⟩) := by
  obtain ⟨name, isGlobal, body, pseudos, results, callArguments⟩ := p
  cases hbody
  cases hresults
  exact ⟨_, rfl⟩

/-- Allocation does not keep the meaning of a division of doubles.  In a setting where division
subtracts, the code over pseudo registers returns the sum of 7 and 10, while the code over registers
adds 7 to itself. -/
theorem quotient_not_preserved :
    quotientProgram.verify {} = .ok () ∧ quotientFunction ∈ quotientProgram.functions ∧
      ∃ q constants, lowerFunction quotientProgram .linux quotientFunction (.empty .linux) =
          .ok (q, constants) ∧ q.Framed sharingSetting 0x3000 q.allocation ∧
        quotientStorage.Starts 0x3000 ∧
        (q.machine sharingSetting (sharingSetting.checks false)).RunsDefined q.body
          quotientStorage ∧
        ¬Preserves (q.machine sharingSetting (sharingSetting.checks false)) q.body quotientStorage
          (q.assignRegisters.procedure.machine sharingSetting .none)
          q.assignRegisters.procedure.body quotientStorage := by
  refine ⟨by decide, List.mem_singleton_self _, ?_⟩
  obtain ⟨q, constants, hq, hslots, hbody, hresults, bytes, hpseudo⟩ : ∃ q constants,
      lowerFunction quotientProgram .linux quotientFunction (.empty .linux) = .ok (q, constants) ∧
        q.allocation.slots = [] ∧ q.assignRegisters.procedure.body = quotientCode ∧
        q.assignRegisters.procedure.results = [.xmm 0] ∧
        ∃ bytes, (((q.machine sharingSetting (sharingSetting.checks false)).step q.body)^[8]
          (.start _ quotientStorage)).ending = some (.returned ⟨[17], bytes⟩) :=
    ⟨_, _, rfl, by decide +kernel, by decide +kernel, by decide +kernel, _, rfl⟩
  obtain ⟨_, hallocated⟩ := quotientCode_returns hbody hresults
  have hslot (x : String) : q.allocation.slot? x = none := by
    simp [Allocation.slot?, hslots]
  refine ⟨q, constants, hq, ⟨?_, ?_, ?_⟩, ⟨fun _ => Nat.le_refl _, fun _ => rfl, rfl⟩,
    Machine.runsDefined_of_returned hpseudo, fun hpreserves => ?_⟩
  · simp [Allocation.stackSize, hslots]
  · intro x n _ hn
    cases (hslot x).symm.trans hn
  · intro x n _ hn
    cases (hslot x).symm.trans hn
  · have hreturned := hpreserves.shows ⟨8, rfl⟩ ?_
    · obtain ⟨k, hk⟩ := hreturned
      have hending := (congrArg Observation.ending hk).trans hpseudo
      have hexit := Ending.returned.inj (Machine.ending_unique hallocated hending)
      exact absurd (congrArg Exit.values hexit) (by simp)
    · intro hundefined
      cases hpseudo.symm.trans hundefined

end ThreeAddress.Amd64
