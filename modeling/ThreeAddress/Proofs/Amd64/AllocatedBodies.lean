import ThreeAddress.Amd64.Encodable
import ThreeAddress.Proofs.Amd64.AllocatedCode

/-!
# The instructions of allocated code

What allocation does to the body of a procedure can be said without looking at its graphs: it puts
one operand in place of every pseudo register, the same one everywhere, and leaves out some copies
of a place to itself.  The order of the other instructions does not change.
-/

namespace ThreeAddress.Amd64

open AllocationProblem.AllSeparate MoveFunction List Amd64.Instr

variable {p : Procedure} {i : Instr} {code code' : List Instr} {g h : Operand → Operand}

/-! ### Registers and stack slots -/

/-- The operands that allocation puts in place of pseudo registers: registers that are handed out,
and stack slots. -/
inductive Operand.IsHome (stackSize : Nat) : Operand → Prop
  | register {r : Register} (hr : r ∈ r.registerClass.colours) : IsHome stackSize (.reg r)
  | slot {n : Nat} (hn : 8 ∣ n) (hpos : 0 < n) (hle : n ≤ stackSize) :
      IsHome stackSize (.memory .rbp (slotDisplacement n))

/-- Every pseudo register is replaced by a register or a stack slot, and nothing else is. -/
structure Settled (g : Operand → Operand) (stackSize : Nat) : Prop where
  fixed : ∀ {o : Operand}, o.pseudo? = none → g o = o
  home : ∀ x, (g (.pseudo x)).IsHome stackSize

namespace Settled

variable {stackSize : Nat} (hg : Settled g stackSize)

include hg

theorem cases_on (o : Operand) : g o = o ∧ o.pseudo? = none ∨ (g o).IsHome stackSize := by
  cases ho : o.pseudo? with
  | none => exact .inl ⟨hg.fixed ho, rfl⟩
  | some x =>
    cases o with
    | pseudo y => exact .inr (hg.home y)
    | _ => cases ho

theorem mapOperands_eq (hi : ∀ o ∈ i.operands, o.pseudo? = none) : i.mapOperands g = i := by
  have hoperands : i.operands.map g = i.operands :=
    (map_congr_left fun o ho => hg.fixed (hi o ho)).trans (map_id _)
  rw [mapOperands, hoperands]

end Settled

/-! ### Replaced code -/

/-- Code in which all operands are replaced, without some copies of a place to itself. -/
inductive Replaced (g : Operand → Operand) : List Instr → List Instr → Prop
  | nil : Replaced g [] []
  | keep (i : Instr) {code code' : List Instr} (h : Replaced g code code') :
      Replaced g (i :: code) (i.mapOperands g :: code')
  | drop {i : Instr} {code code' : List Instr} (hi : (i.mapOperands g).isSelfMove = true)
      (h : Replaced g code code') : Replaced g (i :: code) code'

theorem Instr.mapOperands_mapOperands (i : Instr) (g h : Operand → Operand) :
    (i.mapOperands g).mapOperands h = i.mapOperands (h ∘ g) := by
  simp [mapOperands]

theorem Instr.isSelfMove_iff : i.isSelfMove = true ↔ i.op = .mov ∧ ∃ o, i.operands = [o, o] := by
  obtain ⟨op, w, operands⟩ := i
  unfold isSelfMove move?
  split
  · rename_i dst src hop hoperands
    subst hop hoperands
    constructor
    · intro heq
      obtain rfl : dst = src := eq_of_beq heq
      exact ⟨rfl, dst, rfl⟩
    · rintro ⟨-, o, heq⟩
      cases heq
      exact beq_self_eq_true dst
  · rename_i hne
    simp only [Option.any_none, Bool.false_eq_true, false_iff, not_and, not_exists]
    exact fun hop o hoperands => hne o o hop hoperands

theorem Instr.isSelfMove_mapOperands (hi : i.isSelfMove = true) (g : Operand → Operand) :
    (i.mapOperands g).isSelfMove = true := by
  obtain ⟨hop, o, hoperands⟩ := isSelfMove_iff.mp hi
  exact isSelfMove_iff.mpr ⟨hop, g o, by simp [mapOperands, hoperands]⟩

theorem Instr.isSelfMove_of_isIdleMove (hi : i.isIdleMove = true) : i.isSelfMove = true := by
  unfold isIdleMove isSelfMove at *
  cases hmove : i.move? with
  | none =>
    rw [hmove] at hi
    cases hi
  | some operands =>
    rw [hmove] at hi
    exact (Bool.and_eq_true_iff.mp hi).1

namespace Replaced

theorem refl (code : List Instr) : Replaced id code code := by
  induction code with
  | nil => exact .nil
  | cons i rest ih =>
    have hi : Replaced id (i :: rest) (i.mapOperands id :: rest) := .keep i ih
    simpa [mapOperands] using hi

theorem of_filter (g : Operand → Operand) (code : List Instr) :
    Replaced g code ((code.map (Instr.mapOperands g)).filter fun i => !i.isIdleMove) := by
  induction code with
  | nil => exact .nil
  | cons i rest ih =>
    rw [map_cons, filter_cons]
    split
    · exact .keep i ih
    · rename_i hidle
      simp only [Bool.not_eq_true, Bool.not_eq_false'] at hidle
      exact .drop (isSelfMove_of_isIdleMove hidle) ih

theorem trans {code'' : List Instr} (hg : Replaced g code code') (hh : Replaced h code' code'') :
    Replaced (h ∘ g) code code'' := by
  -- The induction is on the first replacement; what it keeps, the second one keeps or drops.
  induction hg generalizing code'' with
  | nil =>
    cases hh
    exact .nil
  | keep i _ ih =>
    cases hh with
    | keep _ hrest =>
      rw [mapOperands_mapOperands]
      exact .keep i (ih hrest)
    | drop hi hrest =>
      rw [mapOperands_mapOperands] at hi
      exact .drop hi (ih hrest)
  | @drop i _ _ hi _ ih =>
    have hi := isSelfMove_mapOperands hi h
    rw [mapOperands_mapOperands] at hi
    exact .drop hi (ih hh)

theorem congr (hg : Replaced g code code') (heq : ∀ i ∈ code, ∀ o ∈ i.operands, g o = h o) :
    Replaced h code code' := by
  induction hg with
  | nil => exact .nil
  | @keep i _ _ _ ih =>
    obtain ⟨hi, hrest⟩ := forall_mem_cons.mp heq
    have hmap : i.mapOperands g = i.mapOperands h := by
      simp only [mapOperands, map_congr_left hi]
    exact hmap ▸ .keep i (ih hrest)
  | @drop i _ _ hself _ ih =>
    obtain ⟨hi, hrest⟩ := forall_mem_cons.mp heq
    have hmap : i.mapOperands g = i.mapOperands h := by
      simp only [mapOperands, map_congr_left hi]
    exact .drop (hmap ▸ hself) (ih hrest)

theorem exists_of_mem (hg : Replaced g code code') (hi : i ∈ code') :
    ∃ j ∈ code, i = j.mapOperands g := by
  induction hg with
  | nil => cases hi
  | keep j _ ih =>
    rcases mem_cons.mp hi with rfl | hi
    · exact ⟨j, .head _, rfl⟩
    · obtain ⟨j', hj', heq⟩ := ih hi
      exact ⟨j', .tail _ hj', heq⟩
  | drop _ _ ih =>
    obtain ⟨j', hj', heq⟩ := ih hi
    exact ⟨j', .tail _ hj', heq⟩

theorem exists_of_append {first second : List Instr} (h : Replaced g (first ++ second) code') :
    ∃ first' second', code' = first' ++ second' ∧ Replaced g first first' ∧
      Replaced g second second' := by
  induction first generalizing code' with
  | nil => exact ⟨[], code', rfl, .nil, h⟩
  | cons i rest ih =>
    cases h with
    | keep _ hrest =>
      obtain ⟨first', second', rfl, hfirst, hsecond⟩ := ih hrest
      exact ⟨_ :: first', second', rfl, .keep i hfirst, hsecond⟩
    | drop hi hrest =>
      obtain ⟨first', second', rfl, hfirst, hsecond⟩ := ih hrest
      exact ⟨first', second', rfl, .drop hi hfirst, hsecond⟩

theorem mem_of_mem (h : Replaced g code code') (hi : i ∈ code)
    (hself : (i.mapOperands g).isSelfMove = false) : i.mapOperands g ∈ code' := by
  induction h with
  | nil => cases hi
  | keep j _ ih =>
    rcases mem_cons.mp hi with rfl | hi
    · exact .head _
    · exact .tail _ (ih hi)
  | drop hj _ ih =>
    rcases mem_cons.mp hi with rfl | hi
    · rw [hself] at hj
      cases hj
    · exact ih hi

end Replaced

/-! ### The rounds of allocation -/

/-- What one or more rounds of coalescing do to operands: a pseudo register stays one, or becomes a
register that is handed out. -/
structure Renames (g : Operand → Operand) : Prop where
  fixed : ∀ {o : Operand}, o.pseudo? = none → g o = o
  pseudo : ∀ x, (∃ y, g (.pseudo x) = .pseudo y) ∨
    ∃ r : Register, r ∈ r.registerClass.colours ∧ g (.pseudo x) = .reg r

theorem Renames.comp (hg : Renames g) (hh : Renames h) : Renames (h ∘ g) where
  fixed := by
    intro o ho
    show h (g o) = o
    rw [hg.fixed ho, hh.fixed ho]
  pseudo := by
    intro x
    rcases hg.pseudo x with ⟨y, hy⟩ | ⟨r, hr, hx⟩
    · rw [Function.comp, hy]
      exact hh.pseudo y
    · refine .inr ⟨r, hr, ?_⟩
      rw [Function.comp, hx, hh.fixed rfl]

theorem Procedure.mem_colours_of_classOf {r : Register} {c : RegisterClass}
    (hc : p.classOf (.reg r) = some c) : r ∈ r.registerClass.colours := by
  simp only [classOf] at hc
  split at hc
  · rename_i hmem
    exact contains_iff_mem.mp hmem
  · cases hc

theorem renames_renamedOperand {graphs : List (RegisterClass × InterferenceGraph Register)}
    (hgraphs : p.problem.AllSeparate graphs) : Renames (renamedOperand (allRenames graphs)) where
  fixed := by
    intro o ho
    simp [renamedOperand, ho]
  pseudo := by
    intro x
    rw [renamedOperand_pseudo]
    rcases hgraphs.renamed_cases (.pseudo x) with ⟨hsame, -⟩ | ⟨c, g, name, -, -, -, -, hplace⟩
    · rw [hsame]
      exact .inl ⟨x, rfl⟩
    · cases hrenamed : renamed (allRenames graphs) (.pseudo x) with
      | pseudo y => exact .inl ⟨y, rfl⟩
      | reg r =>
        rw [hrenamed] at hplace
        exact .inr ⟨r, Procedure.mem_colours_of_classOf (p := p) hplace, rfl⟩

namespace Procedure

/-- The operand that allocation puts in place of another one.  A pseudo register that occurs no more
may be replaced by any register. -/
def homeOperand (alloc : Allocation Register) (names : List String) (o : Operand) : Operand :=
  match o with
  | .pseudo x => if x ∈ names then placedOperand alloc (.pseudo x) else .reg .rax
  | o => o

theorem isHome_homeOperand (p : Procedure) (x : String)
    (hregister : ∀ x r, p.allocation.register? x = some r → r ∈ r.registerClass.colours) :
    (homeOperand p.allocation (allocate p).1.pseudoNames (.pseudo x)).IsHome
      p.allocation.stackSize := by
  unfold homeOperand
  simp only
  split
  · rename_i hx
    rcases placedOperand_cases (Allocation.place_assignSlots_ne hx) with
      ⟨r, hr, -, hoperand⟩ | ⟨n, hn, hplace, hoperand⟩
    · exact hoperand ▸ .register (hregister x r hr)
    · obtain ⟨hdvd, hle⟩ := slot?_spec hn
      refine hoperand ▸ .slot hdvd (Nat.pos_of_ne_zero ?_) hle
      rintro rfl
      exact Allocation.place_assignSlots_ne hx hplace
  · exact .register (by decide)

theorem replaced_allocate (p : Procedure) :
    (allocate p).1.classOf = p.classOf ∧ ∃ g, Renames g ∧ Replaced g p.body (allocate p).1.body ∧
      ∀ x, p.classOf (.pseudo x) = none → g (.pseudo x) = .pseudo x := by
  refine (allSeparate_allocate (fun _ => True)
    (fun q q' : Procedure => q'.classOf = q.classOf ∧ ∃ g, Renames g ∧ Replaced g q.body q'.body ∧
      ∀ x, q.classOf (.pseudo x) = none → g (.pseudo x) = .pseudo x)
    (fun q _ => q.regular_problem) (fun q graphs _ hgraphs => ⟨trivial, rfl, ?_⟩) (fun q => ?_) ?_
    trivial).2.1
  · refine ⟨_, renames_renamedOperand hgraphs, .of_filter _ _, fun x hx => ?_⟩
    rw [renamedOperand_pseudo]
    rcases hgraphs.renamed_cases (.pseudo x) with ⟨hsame, -⟩ | ⟨c, g, name, -, -, -, hclass, -⟩
    · rw [hsame]
      rfl
    · exact nomatch hx.symm.trans hclass
  · exact ⟨rfl, id, ⟨fun _ => rfl, fun x => .inl ⟨x, rfl⟩⟩, .refl _, fun _ _ => rfl⟩
  · rintro q q' q'' ⟨hc, g, hg, hcode, hfixed⟩ ⟨hc', h, hh, hcode', hfixed'⟩
    refine ⟨hc'.trans hc, h ∘ g, hg.comp hh, hcode.trans hcode', fun x hx => ?_⟩
    rw [Function.comp, hfixed x hx, hfixed' x (hc ▸ hx)]

theorem exists_of_register? {x : String} {r : Register} (hr : p.allocation.register? x = some r) :
    r ∈ r.registerClass.colours ∧ p.classOf (.pseudo x) ≠ none := by
  obtain ⟨-, -, hsep⟩ := allSeparate_allocate (fun _ => True)
    (fun _ _ : Procedure => True) (fun q _ => q.regular_problem)
    (fun q graphs _ hgraphs => ⟨trivial, trivial⟩) (fun _ => trivial) (fun _ _ => trivial)
    trivial
  obtain ⟨c, -, -, -, hpseudo, hreg, -⟩ := hsep.exists_of_register? (allocate p).1.regular_problem
    (colouredBy_allocate p) (Allocation.register?_assignSlots ▸ hr)
  refine ⟨mem_colours_of_classOf (p := (allocate p).1) hreg, ?_⟩
  rw [← (replaced_allocate p).1]
  exact fun hnone => nomatch hnone.symm.trans hpseudo

/-- The body of a procedure after allocation: all pseudo registers are replaced by registers and
stack slots, those without a class by stack slots, and some copies of a place to itself are left
out. -/
theorem settled_assignRegisters (p : Procedure) :
    ∃ g, Settled g p.allocation.stackSize ∧ Replaced g p.body p.assignRegisters.procedure.body ∧
      ∀ i ∈ p.assignRegisters.procedure.body, ∃ k ∈ p.body, i = k.mapOperands g ∧
        ∀ x, .pseudo x ∈ k.operands → p.classOf (.pseudo x) = none →
          (g (.pseudo x)).isMemory = true := by
  obtain ⟨-, g, hg, hrounds, hfixed⟩ := replaced_allocate p
  let home := homeOperand p.allocation (allocate p).1.pseudoNames
  have hhome (x : String) :=
    isHome_homeOperand p x fun x r hr => (exists_of_register? hr).1
  have hplaced : ∀ i ∈ (allocate p).1.body, ∀ o ∈ i.operands,
      placedOperand p.allocation o = home o := by
    intro i hi o ho
    cases o with
    | pseudo x => exact (if_pos (mem_pseudoNames hi ho)).symm
    | _ => rfl
  have hlast := (Replaced.of_filter (placedOperand p.allocation) (allocate p).1.body).congr hplaced
  refine ⟨home ∘ g, ⟨?_, ?_⟩, hrounds.trans hlast, ?_⟩
  · intro o ho
    rw [Function.comp, hg.fixed ho]
    cases o <;> first | rfl | cases ho
  · intro x
    rcases hg.pseudo x with ⟨y, hy⟩ | ⟨r, hr, hx⟩
    · rw [Function.comp, hy]
      exact hhome y
    · rw [Function.comp, hx]
      exact .register hr
  · intro i hi
    obtain ⟨k', hk', rfl⟩ := hlast.exists_of_mem hi
    obtain ⟨k, hk, rfl⟩ := hrounds.exists_of_mem hk'
    refine ⟨k, hk, mapOperands_mapOperands k g home, fun x hx hclass => ?_⟩
    have hmem :=
      mem_map.mpr ⟨_, hx, hfixed x hclass⟩
    rw [Function.comp, hfixed x hclass, ← hplaced _ hk' _ hmem]
    rcases placedOperand_cases (Allocation.place_assignSlots_ne (mem_pseudoNames hk' hmem)) with
      ⟨r, hr, -⟩ | ⟨n, -, -, hoperand⟩
    · exact absurd hclass (exists_of_register? hr).2
    · exact hoperand ▸ rfl

theorem replaced_assignRegisters (p : Procedure) :
    ∃ g, Settled g p.allocation.stackSize ∧ Replaced g p.body p.assignRegisters.procedure.body := by
  obtain ⟨g, hg, hreplaced, -⟩ := p.settled_assignRegisters
  exact ⟨g, hg, hreplaced⟩

end Procedure

end ThreeAddress.Amd64
