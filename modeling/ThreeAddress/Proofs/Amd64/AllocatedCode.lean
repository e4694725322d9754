import ThreeAddress.Proofs.Amd64.ReplacedCode
import ThreeAddress.Proofs.Amd64.ScratchRegisters
import ThreeAddress.Proofs.Registers.Rounds

/-!
# Allocation keeps the meaning of procedures

The allocator renames the pseudo registers of a lowered procedure round after round, drops the
copies that have become idle, and in the end puts machine registers and stack slots in place of the
pseudo registers that are left.  Each of these steps is a replacement, and all of them are safe.
-/

namespace ThreeAddress.Amd64

open AllocationProblem.AllSeparate MoveFunction Replacement Allocation Procedure List BitVec

variable {p : Procedure} {e : Setting} {m : Storage} {base : Word} {i : Instr} {x y : String}
  {graphs : List (RegisterClass × InterferenceGraph Register)}
variable {l : Location Register}

/-! ### Classes of locations -/

namespace Procedure

theorem regular_problem (p : Procedure) : p.problem.Regular where
  nodup := show RegisterClass.all.Nodup by decide
  classOf_colour := by
    have hcolours : ∀ c ∈ RegisterClass.all, ∀ r ∈ c.colours,
        r.registerClass.colours.contains r = true ∧ r.registerClass = c := by decide
    intro c hc r hr
    obtain ⟨hmem, hclass⟩ := hcolours c hc r hr
    show (if r.registerClass.colours.contains r then some r.registerClass else none) = some c
    rw [if_pos hmem, hclass]

theorem isAliased_of_classOf {c : RegisterClass} (h : p.classOf (.pseudo x) = some c) :
    p.isAliased x = false := by
  simp only [classOf] at h
  unfold isAliased
  split at h
  · cases h
  · rename_i info hinfo
    rw [hinfo]
    split at h
    · cases h
    · rename_i haliased
      simpa using haliased

theorem classOf_stack (p : Procedure) {r : Register} (hr : r ∈ [Register.rsp, .rbp]) :
    p.classOf (.reg r) = none := by
  fin_cases hr <;> rfl

end Procedure

/-! ### One round of coalescing -/

section

variable (hgraphs : p.problem.AllSeparate graphs)

include hgraphs

theorem renamed_of_isAliased (hx : p.isAliased x = true) :
    renamed (allRenames graphs) (.pseudo x) = .pseudo x := by
  rcases hgraphs.renamed_cases (.pseudo x) with ⟨hsame, -⟩ | ⟨c, g, name, -, -, -, hclass, -⟩
  · exact hsame
  · rw [isAliased_of_classOf hclass] at hx
    cases hx

theorem isAliased_of_renamed (hx : p.isAliased x = false)
    (hy : renamed (allRenames graphs) (.pseudo x) = .pseudo y) : p.isAliased y = false := by
  rcases hgraphs.renamed_cases (.pseudo x) with ⟨hsame, -⟩ | ⟨c, g, name, -, -, -, -, hplace⟩
  · rw [hsame] at hy
    cases hy
    exact hx
  · rw [hy] at hplace
    exact isAliased_of_classOf hplace

theorem renamed_ne_stack {r : Register} (hr : r ∈ [Register.rsp, .rbp]) (hl : l ≠ .reg r) :
    renamed (allRenames graphs) l ≠ .reg r := by
  intro heq
  rcases hgraphs.renamed_cases l with ⟨hsame, -⟩ | ⟨c, g, name, -, -, -, -, hplace⟩
  · exact hl (hsame.symm.trans heq)
  · rw [heq] at hplace
    exact nomatch (p.classOf_stack hr).symm.trans hplace

end

def renamedOperand (renames : Renaming Register) (o : Operand) : Operand :=
  (o.pseudo?.bind fun x => (renames.lookup x).map Procedure.locationOperand).getD o

theorem renamedOperand_pseudo (renames : Renaming Register) (x : String) :
    renamedOperand renames (.pseudo x) = Procedure.locationOperand
      (renamed renames (.pseudo x)) := by
  simp only [renamedOperand, renamed, Operand.pseudo?, Option.bind_some]
  cases renames.lookup x <;> rfl

theorem replacement_rename (hgraphs : p.problem.AllSeparate graphs) (e : Setting) (base : Word) :
    Replacement p e (e.checks true) base (fun _ => True) (renamedOperand (allRenames graphs))
      fun l => .cell (renamed (allRenames graphs) l) where
  fixed := by
    intro o ho
    simp [renamedOperand, ho]
  register := fun r => rfl
  pseudo := by
    intro x _ hx m _ _
    rw [renamedOperand_pseudo]
    cases hplace : renamed (allRenames graphs) (.pseudo x) with
    | reg r => rfl
    | pseudo y =>
      simp [locationOperand, place?, isAliased_of_renamed hgraphs hx hplace]
  aliased := by
    intro x _ hx m _ _
    rw [renamedOperand_pseudo, renamed_of_isAliased hgraphs hx]
    simp [locationOperand, place?, hx]
  notValue := by
    rintro _ _ ⟨⟩
  notLabel := by
    intro x l
    rw [renamedOperand_pseudo]
    cases renamed (allRenames graphs) (.pseudo x) <;> rintro ⟨⟩
  operand := by
    intro x l _ _ hl
    cases hl
    exact renamedOperand_pseudo _ x
  memory := by
    rintro x a _ _ ⟨⟩
  stackPointer := by
    intro x _ _ heq
    refine renamed_ne_stack hgraphs (by decide) ?_ (Place.cell.inj heq)
    rintro ⟨⟩
  injective := by
    rintro x y a _ _ _ _ ⟨⟩
  unshared := by
    rintro x a _ _ ⟨⟩
  disjoint := by
    rintro x y a b _ _ _ _ ⟨⟩
  valid := fun a ha => by simp [Setting.checks, ha]

/-! ### What allocation relies on -/

/-- A state in which a procedure starts.  The machine registers are set, and the base pointer points
to the frame.  Nothing was assigned yet. -/
structure Storage.Starts (m : Storage) (base : Word) : Prop where
  registers : ∀ r, 64 ≤ m.determined (.reg r)
  pseudos : ∀ x, m.determined (.pseudo x) = 0
  rbp : m.cells (.reg .rbp) = base

theorem Storage.Starts.related {target : Location Register → Place} {names : String → Prop}
    (hm : m.Starts base) (htarget : ∀ r, target (.reg r) = .cell (.reg r)) :
    Related p e base names target 0 m m where
  agrees := by
    intro l _ _
    cases l with
    | reg r =>
      rw [htarget]
      exact ⟨Nat.le_refl _, rfl⟩
    | pseudo x =>
      have hnone : (m.view (.cell (.pseudo x))).2 = 0 := hm.pseudos x
      refine ⟨?_, ?_⟩
      · simp only [hnone, Nat.zero_le]
      · simp only [hnone]
        exact low_eq_iff.mpr nofun
  outer := ⟨fun _ _ => rfl, fun _ _ h => ⟨h, rfl⟩, rfl, rfl⟩
  rbp := hm.rbp
  determined_rbp := hm.registers .rbp

/-- What allocation relies on and keeps.  The base pointer is only used to address the frame, and
doubles are not divided. -/
def Procedure.Sound (p : Procedure) : Prop :=
  ∀ i ∈ p.body, i.isDoubleDivision = false ∧ .reg .rbp ∉ i.operands

theorem Instr.replaceable_of_operands {names : String → Prop}
    (hdivision : i.isDoubleDivision = false)
    (hrbp : .reg .rbp ∉ i.operands) (hnames : ∀ x, .pseudo x ∈ i.operands → names x) :
    i.Replaceable names where
  notDivision := hdivision
  named := hnames
  base := by
    intro hmem
    rcases mem_append.mp hmem with hnamed | himplicit
    · obtain ⟨⟨o, d⟩, hzip, ho⟩ := mem_filterMap.mp hnamed
      simp only at ho
      split at ho
      · have hreg : o = .reg .rbp := by
          cases o <;> simp_all [Operand.location?]
        exact hrbp (hreg ▸ (of_mem_zip hzip).1)
      · cases ho
    · obtain ⟨r, hr, heq⟩ := mem_map.mp himplicit
      cases heq
      obtain ⟨op, w, operands⟩ := i
      cases op <;> simp [implicitWrites, Register.callerSaved] at hr

namespace Procedure

theorem Sound.rename (hp : p.Sound) (hgraphs : p.problem.AllSeparate graphs) :
    (p.rename (allRenames graphs)).Sound := by
  intro i hi
  obtain ⟨j, hj, rfl⟩ := mem_map.mp (mem_filter.mp hi).1
  obtain ⟨hdivision, hrbp⟩ := hp j hj
  refine ⟨hdivision, fun hmem => ?_⟩
  obtain ⟨o, ho, heq⟩ := mem_map.mp hmem
  have heq : renamedOperand (allRenames graphs) o = .reg .rbp := heq
  cases o with
  | pseudo x =>
    rw [renamedOperand_pseudo] at heq
    refine renamed_ne_stack (l := .pseudo x) (r := .rbp) hgraphs (by decide) (nofun) ?_
    cases hplace : renamed (allRenames graphs) (.pseudo x) <;> simp_all [locationOperand]
  | reg r => exact hrbp (heq ▸ ho)
  | _ => cases heq

/-- One round of coalescing keeps the meaning of a procedure. -/
theorem preserves_rename (hp : p.Sound) (hgraphs : p.problem.AllSeparate graphs)
    (hm : m.Starts base) :
    Preserves (p.machine e (e.checks true)) p.body m
      ((p.rename (allRenames graphs)).machine e (e.checks true))
      (p.rename (allRenames graphs)).body m := by
  have hsafe : p.problem.Safe (Placed p fun _ => True)
      fun l => Place.cell (renamed (allRenames graphs) l) := by
    intro k a w l ha hw _ hlive hne hsource heq
    exact hgraphs.safe_renamed p.regular_problem ha hw trivial hlive hne hsource
      (Place.cell.inj heq)
  refine (replacement_rename hgraphs e base).preserves hsafe (fun i hi => ?_)
    (hm.related fun _ => rfl)
  exact Instr.replaceable_of_operands (hp i hi).1 (hp i hi).2 fun _ _ => trivial

end Procedure

/-! ### Registers and stack slots -/

def slotAddress (base : Word) (n : Nat) : Word := base + BitVec.ofInt 64 (slotDisplacement n)

theorem slotAddress_eq (base : Word) (n : Nat) : slotAddress base n = base - BitVec.ofNat 64 n := by
  rw [slotAddress, slotDisplacement, ofInt_neg, ofInt_natCast, sub_eq_add_neg]

theorem slotAddress_injective {n k : Nat} (hn : n < 2 ^ 64) (hk : k < 2 ^ 64)
    (h : slotAddress base n = slotAddress base k) : n = k := by
  rw [slotAddress_eq, slotAddress_eq] at h
  bv_omega

theorem byteAt_slotAddress_ne {n k i j : Nat} (hn : n < 2 ^ 64) (hk : k < 2 ^ 64) (hn8 : 8 ∣ n)
    (hk8 : 8 ∣ k) (hne : n ≠ k) (hi : i < 8) (hj : j < 8) :
    byteAt (slotAddress base n) i ≠ byteAt (slotAddress base k) j := by
  rw [slotAddress_eq, slotAddress_eq, byteAt, byteAt]
  intro h
  have hnat : (BitVec.ofNat 64 i + .ofNat 64 k).toNat =
      (BitVec.ofNat 64 j + .ofNat 64 n).toNat := by
    bv_omega
  simp only [toNat_add, toNat_ofNat] at hnat
  omega

def destinationPlace (base : Word) : Destination Register → Place
  | .reg r => .cell (.reg r)
  | .stack n => .address (slotAddress base n)

/-- What is assumed of the frame.  It has room for all stack slots.  Those of variables in memory
are where these are expected, and nobody else knows about the others. -/
structure Procedure.Framed (p : Procedure) (e : Setting) (base : Word)
    (alloc : Allocation Register) :
    Prop where
  room : alloc.stackSize < 2 ^ 64
  home : ∀ x n, p.isAliased x = true → alloc.slot? x = some n → e.homes x = slotAddress base n
  unshared : ∀ x n, p.isAliased x = false → alloc.slot? x = some n → ∀ i < 8,
    e.region (byteAt (slotAddress base n) i) = .frame

/-- Registers and stack slots that fit some names.  Each has one or the other.  Variables in memory
have no register, and the stack pointer is not handed out. -/
structure Procedure.Fits (p : Procedure) (e : Setting) (base : Word) (alloc : Allocation Register)
    (names : List String) : Prop extends p.Framed e base alloc where
  register : ∀ x r, alloc.register? x = some r → p.isAliased x = false ∧ r ≠ .rsp
  placed : ∀ x ∈ names, alloc.place (.pseudo x) ≠ .stack 0

/-- The operand that stands for a pseudo register with a register or a stack slot. -/
def placedOperand (alloc : Allocation Register) (o : Operand) : Operand :=
  (o.pseudo?.bind fun x => (alloc.destination? x).map Procedure.destinationOperand).getD o

section

variable {alloc : Allocation Register} {names : List String} {n : Nat} {d : Destination Register}

theorem slot?_spec (h : alloc.slot? x = some n) : 8 ∣ n ∧ n ≤ alloc.stackSize := by
  obtain ⟨k, hk, rfl⟩ := Option.map_eq_some_iff.mp h
  obtain ⟨hlt, -, -⟩ := idxOf?_eq_some_iff.mp hk
  exact ⟨⟨k + 1, rfl⟩, by unfold stackSize; omega⟩

theorem placedOperand_cases (hx : alloc.place (.pseudo x) ≠ .stack 0) :
    (∃ r, alloc.register? x = some r ∧ alloc.place (.pseudo x) = .reg r ∧
      placedOperand alloc (.pseudo x) = .reg r) ∨
    ∃ n, alloc.slot? x = some n ∧ alloc.place (.pseudo x) = .stack n ∧
      placedOperand alloc (.pseudo x) = .memory .rbp (slotDisplacement n) := by
  cases hr : alloc.register? x with
  | some r =>
    refine .inl ⟨r, rfl, ?_, ?_⟩
    · simp [place, destination?, hr]
    · simp [placedOperand, Operand.pseudo?, destination?, hr, destinationOperand]
  | none =>
    cases hn : alloc.slot? x with
    | some n =>
      refine .inr ⟨n, rfl, ?_, ?_⟩
      · simp [place, destination?, hr, hn]
      · simp [placedOperand, Operand.pseudo?, destination?, hr, hn, destinationOperand]
    | none => exact absurd (by simp [place, destination?, hr, hn]) hx

theorem place?_slot (hrbp : m.cells (.reg .rbp) = base) :
    p.place? e .none m (.memory .rbp (slotDisplacement n)) =
      some (.address (slotAddress base n)) := by
  have hbits : low Width.quad.bits base = base := low_of_le (Nat.le_refl 64) base
  simp [place?, Storage.fetch?, Storage.mayRead, Checks.none, hrbp, hbits, slotAddress]

variable (h : p.Fits e base alloc names)

include h

theorem Procedure.Fits.slot_of_address {a : Word} (hx : x ∈ names)
    (ha : destinationPlace base (alloc.place (.pseudo x)) = .address a) :
    ∃ n, alloc.slot? x = some n ∧ a = slotAddress base n ∧
      placedOperand alloc (.pseudo x) = .memory .rbp (slotDisplacement n) := by
  rcases placedOperand_cases (h.placed x hx) with ⟨r, -, hplace, -⟩ | ⟨n, hn, hplace, hoperand⟩
  · rw [hplace] at ha
    cases ha
  · rw [hplace] at ha
    cases ha
    exact ⟨n, hn, rfl, hoperand⟩

theorem Procedure.Fits.lt {x : String} (hn : alloc.slot? x = some n) : n < 2 ^ 64 :=
  Nat.lt_of_le_of_lt (slot?_spec hn).2 h.room

theorem Procedure.Fits.replacement : Replacement p e .none base (· ∈ names) (placedOperand alloc)
      fun l => destinationPlace base (alloc.place l) where
  fixed := by
    intro o ho
    simp [placedOperand, ho]
  register := fun r => rfl
  pseudo := by
    intro x hx haliased m hrbp _
    rcases placedOperand_cases (h.placed x hx) with ⟨r, hr, hplace, hoperand⟩ |
      ⟨n, hn, hplace, hoperand⟩
    · rw [hoperand, hplace]
      rfl
    · rw [hoperand, hplace]
      exact place?_slot hrbp
  aliased := by
    intro x hx haliased m hrbp _
    rcases placedOperand_cases (h.placed x hx) with ⟨r, hr, hplace, hoperand⟩ |
      ⟨n, hn, hplace, hoperand⟩
    · rw [(h.register x r hr).1] at haliased
      cases haliased
    · rw [hoperand, h.home x n haliased hn]
      exact place?_slot hrbp
  notValue := by
    intro x v
    cases alloc.place (.pseudo x) <;> exact nofun
  notLabel := by
    intro x l
    simp only [placedOperand, Operand.pseudo?, Option.bind_some]
    cases alloc.destination? x with
    | none => exact fun h => nomatch h
    | some d => cases d <;> exact nofun
  operand := by
    intro x l hx _ hl
    rcases placedOperand_cases (h.placed x hx) with ⟨r, hr, hplace, hoperand⟩ |
      ⟨n, hn, hplace, hoperand⟩
    · rw [hplace] at hl
      cases hl
      exact hoperand
    · rw [hplace] at hl
      cases hl
  memory := by
    intro x a hx _ ha
    obtain ⟨n, -, -, hoperand⟩ := h.slot_of_address hx ha
    rw [hoperand]
    rfl
  stackPointer := by
    intro x hx _ hrsp
    rcases placedOperand_cases (h.placed x hx) with ⟨r, hr, hplace, -⟩ | ⟨n, hn, hplace, -⟩
    · rw [hplace] at hrsp
      cases hrsp
      exact (h.register x .rsp hr).2 rfl
    · rw [hplace] at hrsp
      cases hrsp
  injective := by
    intro x y a hx hy _ _ hax hay
    obtain ⟨n, hn, rfl, -⟩ := h.slot_of_address hx hax
    obtain ⟨k, hk, heq, -⟩ := h.slot_of_address hy hay
    obtain rfl := slotAddress_injective (h.lt hn) (h.lt hk) heq
    exact slot?_injective hn hk
  unshared := by
    intro x a hx haliased ha i hi
    obtain ⟨n, hn, rfl, -⟩ := h.slot_of_address hx ha
    exact ⟨h.unshared x n haliased hn i hi, rfl⟩
  disjoint := by
    intro x y a b hx hy _ _ hax hby hne i hi j hj
    obtain ⟨n, hn, rfl, -⟩ := h.slot_of_address hx hax
    obtain ⟨k, hk, rfl, -⟩ := h.slot_of_address hy hby
    refine byteAt_slotAddress_ne (h.lt hn) (h.lt hk) (slot?_spec hn).1 (slot?_spec hk).1 ?_ hi hj
    exact fun heq => hne (by rw [heq])
  valid := fun _ _ => rfl

omit h in
theorem le_stackSize_of_place (hl : alloc.place l = .stack n) : n ≤ alloc.stackSize := by
  by_cases hn : n = 0
  · rw [hn]
    exact Nat.zero_le _
  · obtain ⟨x, -, hslot⟩ := place_eq_stack hl hn
    exact (slot?_spec hslot).2

theorem Procedure.Fits.place_eq {l' : Location Register}
    (heq : destinationPlace base (alloc.place l) = destinationPlace base (alloc.place l')) :
    alloc.place l = alloc.place l' := by
  cases hl : alloc.place l with
  | reg r =>
    cases hl' : alloc.place l' with
    | reg s =>
      rw [hl, hl'] at heq
      cases heq
      rfl
    | stack k =>
      rw [hl, hl'] at heq
      cases heq
  | stack n =>
    cases hl' : alloc.place l' with
    | reg s =>
      rw [hl, hl'] at heq
      cases heq
    | stack k =>
      rw [hl, hl'] at heq
      have hn := Nat.lt_of_le_of_lt (le_stackSize_of_place hl) h.room
      have hk := Nat.lt_of_le_of_lt (le_stackSize_of_place hl') h.room
      rw [slotAddress_injective hn hk (Place.address.inj heq)]

end

namespace Procedure

/-- Where the pseudo registers of a procedure are kept that are left after coalescing. -/
def allocation (p : Procedure) : Allocation Register :=
  (allocate p).2.assignSlots (allocate p).1.pseudoNames

theorem mem_pseudoNames (hi : i ∈ p.body) (hx : .pseudo x ∈ i.operands) : x ∈ p.pseudoNames :=
  mem_eraseDups.mpr (mem_filterMap.mpr ⟨.pseudo x, mem_flatMap.mpr ⟨i, hi, hx⟩, rfl⟩)

theorem preserves_place {alloc : Allocation Register} (hp : p.Sound)
    (hfits : p.Fits e base alloc p.pseudoNames)
    (hsafe : p.problem.Safe (fun l => ∀ x, l = .pseudo x → x ∈ p.pseudoNames) alloc.place)
    (hm : m.Starts base) :
    Preserves (p.machine e (e.checks true)) p.body m (p.machine e .none)
      ((p.body.map (Instr.mapOperands (placedOperand alloc))).filter fun i => !i.isIdleMove) m := by
  have hsafe' : p.problem.Safe (Placed p (· ∈ p.pseudoNames))
      fun l => destinationPlace base (alloc.place l) := by
    intro k a w l ha hw hl hlive hne hsource heq
    exact hsafe ha hw (fun x hx => (hl x hx).1) hlive hne hsource (hfits.place_eq heq)
  refine hfits.replacement.preserves hsafe' (fun i hi => ?_) (hm.related fun _ => rfl)
  exact Instr.replaceable_of_operands (hp i hi).1 (hp i hi).2 fun x hx => mem_pseudoNames hi hx

/-- Allocation keeps the meaning of a procedure. -/
theorem preserves_assignRegisters (hp : p.Sound) (hframe : p.Framed e base p.allocation)
    (hm : m.Starts base) :
    Preserves (p.machine e (e.checks true)) p.body m (p.assignRegisters.procedure.machine e .none)
      p.assignRegisters.procedure.body m := by
  let related : Procedure → Procedure → Prop := fun g h => h.pseudos = g.pseudos ∧
    Preserves (g.machine e (e.checks true)) g.body m (h.machine e (e.checks true)) h.body m
  obtain ⟨hsound, ⟨hpseudos, hrounds⟩, hsep⟩ :=
    allSeparate_allocate Sound related (fun g _ => g.regular_problem)
      (fun g graphs hg hgraphs => ⟨hg.rename hgraphs, rfl, preserves_rename hg hgraphs hm⟩)
      (fun g => ⟨rfl, .refl _ _ _⟩) (fun hfg hgh => ⟨hgh.1.trans hfg.1, hfg.2.trans hgh.2⟩) hp
  have hregular := (allocate p).1.regular_problem
  have haliased (x : String) : (allocate p).1.isAliased x = p.isAliased x := by
    rw [isAliased, hpseudos, isAliased]
  have hfits : (allocate p).1.Fits e base p.allocation (allocate p).1.pseudoNames :=
    { room := hframe.room
      home := fun x n hx => hframe.home x n (haliased x ▸ hx)
      unshared := fun x n hx => hframe.unshared x n (haliased x ▸ hx)
      register := by
        intro x r hr
        obtain ⟨c, -, -, -, hx, hreg, -⟩ := hsep.exists_of_register? hregular
          (colouredBy_allocate p) (register?_assignSlots ▸ hr)
        refine ⟨isAliased_of_classOf hx, ?_⟩
        rintro rfl
        have hnone := (allocate p).1.classOf_stack (r := .rsp) (by decide)
        exact nomatch hnone.symm.trans hreg
      placed := fun x hx => place_assignSlots_ne hx }
  exact hrounds.trans (preserves_place hsound hfits
    (hsep.safe_place hregular (colouredBy_allocate p) _) hm)

end Procedure

end ThreeAddress.Amd64
