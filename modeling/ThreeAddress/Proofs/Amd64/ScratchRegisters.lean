import ThreeAddress.Proofs.Amd64.Execution
import ThreeAddress.Proofs.Amd64.LoweredForms
import ThreeAddress.Proofs.Control.Outlines
import ThreeAddress.Proofs.Optimise.Folding

/-!
# Registers in lowered code

Lowered code reads a machine register only after it has set as much of it as it reads: just before,
in the code of the same three-address instruction.  Parameters come in registers that the caller has
set.  So it makes no difference whether reading more than is determined is checked.
-/

namespace ThreeAddress.Amd64

open List Amd64.Computation Procedure Operand Width

variable {writes : List ((Place × Width) × Word)} {hardware : Hardware} {op : Opcode} {l : Label}
  {code : List Instr} {returns : Option ScalarType}
  {arity? : String → Option Nat} {platform : Platform} {constants constants' : ConstantPool}

/-! ### What is known about registers -/

/-- What is known everywhere: the stack has a top and a frame. -/
def baseBound (r : Register) : Nat := if r = .rsp ∨ r = .rbp then 64 else 0

theorem baseBound_le (r : Register) : baseBound r ≤ 64 := by
  unfold baseBound
  split <;> simp

theorem baseBound_of_mem {r : Register} (hr : r ∈ Register.callerSaved) : baseBound r = 0 := by
  have hsaved : ∀ r ∈ Register.callerSaved, ¬(r = .rsp ∨ r = .rbp) := by decide
  rw [baseBound, if_neg (hsaved r hr)]

/-- Lower bounds on how many bits of the machine registers are determined. -/
structure Bounds where
  bound : Register → Nat
  base_le : ∀ r, baseBound r ≤ bound r

namespace Bounds

instance : CoeFun Bounds fun _ => Register → Nat := ⟨bound⟩

/-- Nothing else is known. -/
def base : Bounds := ⟨baseBound, fun _ => Nat.le_refl _⟩

/-- All registers are determined. -/
def full : Bounds := ⟨fun _ => 64, baseBound_le⟩

/-- Something else is known of a register. -/
def update (known : Bounds) (r : Register) (n : Nat) (hr : r ∈ Register.callerSaved) : Bounds where
  bound := Function.update known r n
  base_le := by
    intro r'
    by_cases h : r' = r
    · simp [h, baseBound_of_mem hr]
    · rw [Function.update_of_ne h]
      exact known.base_le r'

/-- A callee sets the registers that it need not preserve. -/
def afterCall (known : Bounds) : Bounds where
  bound r := if r ∈ Register.callerSaved then 64 else known r
  base_le := by
    intro r
    split
    · exact baseBound_le r
    · exact known.base_le r

@[simp] theorem bound_update (known : Bounds) (r : Register) (n : Nat)
    (hr : r ∈ Register.callerSaved) : (known.update r n hr).bound = Function.update known r n := rfl

def Hold (known : Bounds) (m : Storage) : Prop := ∀ r, known r ≤ m.determined (.reg r)

end Bounds

variable {p : Procedure} {e : Setting} {k : Checks} {m m' : Storage} {i : Instr} {o d s : Operand}
  {w v : Width} {r : Register} {known known' known'' : Bounds} {c : Computation}

namespace Operand

@[simp] theorem isValue_imm (n : Int) : (imm n).isValue = true := rfl

@[simp] theorem base?_reg (r : Register) : (reg r).base? = none := rfl

@[simp] theorem base?_memory (b : Register) (offset : Int) : (memory b offset).base? = some b := rfl

theorem ne_reg_of_isValue (h : o.isValue = true) (r : Register) : o ≠ .reg r := by
  rintro rfl
  cases h

theorem base?_of_isValue (h : o.isValue = true) : o.base? = none := by
  cases o <;> first | rfl | cases h

end Operand

/-! ### Strict checks -/

theorem fetch?_strict {place : Place}
    (h : ∀ r, place = .cell (.reg r) → w.bits ≤ m.determined (.reg r)) :
    m.fetch? (e.checks true) w place = m.fetch? (e.checks false) w place := by
  cases place with
  | value y => rfl
  | address a => rfl
  | cell l =>
    cases l with
    | pseudo x => rfl
    | reg r => simp [Storage.fetch?, Storage.mayRead, Setting.checks, h r rfl]

theorem place?_strict (h : ∀ b, o.base? = some b → 64 ≤ m.determined (.reg b)) :
    p.place? e (e.checks true) m o = p.place? e (e.checks false) m o := by
  cases o with
  | memory b offset =>
    have hb : ∀ r, Place.cell (.reg b) = .cell (.reg r) → quad.bits ≤ m.determined (.reg r) := by
      rintro r ⟨⟩
      exact h b rfl
    simp only [place?, fetch?_strict hb]
  | _ => rfl

theorem eq_reg_of_place? (h : p.place? e k m o = some (.cell (.reg r))) : o = .reg r := by
  cases o with
  | reg s =>
    cases h
    rfl
  | imm y | data y => cases h
  | label y | callee y => cases h
  | pseudo y =>
    simp only [place?, Option.some.injEq] at h
    split at h <;> cases h
  | memory b y =>
    simp only [place?, Option.map_eq_some_iff] at h
    obtain ⟨_, -, hcell⟩ := h
    cases hcell

theorem read?_strict (hreg : ∀ r, o = .reg r → w.bits ≤ m.determined (.reg r))
    (hbase : ∀ b, o.base? = some b → 64 ≤ m.determined (.reg b)) :
    p.read? e (e.checks true) m o w = p.read? e (e.checks false) m o w := by
  unfold read?
  rw [place?_strict hbase]
  cases hplace : p.place? e (e.checks false) m o with
  | none => rfl
  | some place =>
    exact fetch?_strict fun r hr => hreg r (eq_reg_of_place? (hr ▸ hplace))

theorem putAll?_strict {x : Extent} :
    m.putAll? (e.checks true) x writes = m.putAll? (e.checks false) x writes := by
  induction writes generalizing m with
  | nil => rfl
  | cons y rest ih =>
    simp only [Storage.putAll?, ih]
    rfl

/-- A computation reads no more of the registers than is known to be determined. -/
structure Computation.ReadsWithin (known : Bounds) (c : Computation) : Prop where
  reads : ∀ x ∈ c.reads, ∀ r, x.1 = .reg r → x.2.bits ≤ known r
  bases : ∀ x ∈ c.reads ++ c.writes, ∀ b, x.1.base? = some b → 64 ≤ known b

theorem compute?_strict (hc : c.ReadsWithin known) (hm : known.Hold m) :
    p.compute? e (e.checks true) m c = p.compute? e (e.checks false) m c := by
  have hreads : c.reads.mapM (fun x => p.read? e (e.checks true) m x.1 x.2) =
      c.reads.mapM fun x => p.read? e (e.checks false) m x.1 x.2 := by
    refine mapM_congr fun x hx => read?_strict (fun r hr => ?_) fun b hb => ?_
    · exact (hc.reads x hx r hr).trans (hm r)
    · exact (hc.bases x (mem_append_left _ hx) b hb).trans (hm b)
  have hwrites : c.writes.mapM (fun x => (p.place? e (e.checks true) m x.1).map (·, x.2)) =
      c.writes.mapM fun x => (p.place? e (e.checks false) m x.1).map (·, x.2) := by
    refine mapM_congr fun x hx => ?_
    rw [place?_strict fun b hb => (hc.bases x (mem_append_right _ hx) b hb).trans (hm b)]
  unfold compute?
  simp only [hreads, hwrites, putAll?_strict]

/-! ### What instructions know -/

theorem le_determined_putAll? {x : Extent} {n : Nat} (hput : m.putAll? k x writes = some m')
    (hn : n ≤ m.determined (.reg r) ∨ ∃ y ∈ writes, y.1.1 = .cell (.reg r))
    (hwrites : ∀ y ∈ writes, y.1.1 = .cell (.reg r) → n ≤ x.determined (.reg r) y.1.2 0) :
    n ≤ m'.determined (.reg r) := by
  induction writes generalizing m with
  | nil =>
    cases hput
    simpa using hn
  | cons y rest ih =>
    obtain ⟨⟨place, w⟩, u⟩ := y
    obtain ⟨hhead, hrest⟩ := forall_mem_cons.mp hwrites
    obtain ⟨m₁, hfirst, hput⟩ := Option.bind_eq_some_iff.mp hput
    by_cases hplace : place = .cell (.reg r)
    · refine ih hput (.inl ?_) hrest
      have hle := hhead hplace
      subst hplace
      cases hfirst
      refine hle.trans ?_
      cases x <;> cases w <;> simp [Extent.determined]
    · have hsame : m₁.determined (.reg r) = m.determined (.reg r) := by
        cases place with
        | value y => cases hfirst
        | address a =>
          simp only [Storage.put?] at hfirst
          split at hfirst <;> cases hfirst
          rfl
        | cell l =>
          cases hfirst
          exact Function.update_of_ne (fun heq => hplace (by rw [heq])) _ _
      refine ih hput ?_ hrest
      rw [hsame]
      refine hn.imp_right fun ⟨y, hy, hr⟩ => ?_
      rcases mem_cons.mp hy with rfl | hy
      · exact absurd hr hplace
      · exact ⟨y, hy, hr⟩

theorem le_determined_compute? {n : Nat} (hc : i.computation? hardware = some c)
    (hm' : p.compute? e k m c = some m')
    (hn : n ≤ m.determined (.reg r) ∨ ∃ x ∈ c.writes, x.1 = .reg r)
    (hwrites : ∀ x ∈ c.writes, x.1 = .reg r → n ≤ c.extent.determined (.reg r) x.2 0) :
    n ≤ m'.determined (.reg r) := by
  obtain ⟨values, -, hrest⟩ := Option.bind_eq_some_iff.mp hm'
  obtain ⟨places, hplaces, hrest⟩ := Option.bind_eq_some_iff.mp hrest
  obtain ⟨⟨results, flags⟩, hresults, hrest⟩ := Option.bind_eq_some_iff.mp hrest
  obtain ⟨m₀, hput, rfl⟩ := Option.map_eq_some_iff.mp hrest
  have hall := forall₂_of_mapM_eq_some hplaces
  have hzip : (places.zip results).map Prod.fst = places :=
    map_fst_zip (by rw [(Instr.computation?_shaped hc).results hresults, hall.length_eq])
  have hn' : n ≤ m.determined (.reg r) ∨ ∃ y ∈ places.zip results, y.1.1 = .cell (.reg r) := by
    refine hn.imp_right ?_
    rintro ⟨x, hx, hr⟩
    obtain ⟨z, hz, hfound⟩ := exists_mem_of_mapM hplaces hx
    rw [hr] at hfound
    cases hfound
    rw [← hzip] at hz
    obtain ⟨y, hy, heq⟩ := mem_map.mp hz
    exact ⟨y, hy, by rw [heq]⟩
  have hbound : ∀ y ∈ places.zip results, y.1.1 = .cell (.reg r) →
      n ≤ c.extent.determined (.reg r) y.1.2 0 := by
    intro y hy hcell
    obtain ⟨x, hx, hfound⟩ := exists_of_forall₂_of_mem hall (of_mem_zip hy).1
    obtain ⟨place, hplace, heq⟩ := Option.map_eq_some_iff.mp hfound
    rw [← heq] at hcell ⊢
    obtain rfl : place = .cell (.reg r) := hcell
    exact hwrites x hx (eq_reg_of_place? hplace)
  have hle : n ≤ m₀.determined (.reg r) := le_determined_putAll? hput hn' hbound
  exact hle

/-- What is known before an instruction, and what is known after it.  The instruction reads no more
of the registers than is known to be determined. -/
structure Instr.Settles (known : Bounds) (i : Instr) (known' : Bounds) : Prop where
  strict : ∀ {p : Procedure} {e : Setting} {m : Storage}, known.Hold m →
    p.execute e (e.checks true) m i = p.execute e (e.checks false) m i
  next : ∀ {p : Procedure} {e : Setting} {m m' : Storage}, known.Hold m →
    p.execute e (e.checks false) m i = .next m' → known'.Hold m'
  /-- Control may come to a label from anywhere. -/
  label : ∀ {l}, i.flow = .label l → ∀ r, known' r ≤ baseBound r

namespace Instr.Settles

theorem weaken (h : i.Settles known known') (hle : ∀ r, known'' r ≤ known' r) :
    i.Settles known known'' :=
  ⟨h.strict, fun hm hnext r => (hle r).trans (h.next hm hnext r),
    fun hl r => (hle r).trans (h.label hl r)⟩

theorem forget (h : i.Settles known known') : i.Settles known .base := h.weaken known'.base_le

theorem strengthen (h : i.Settles known known') (hle : ∀ r, known r ≤ known'' r) :
    i.Settles known'' known' where
  strict := fun hm => h.strict fun r => (hle r).trans (hm r)
  next := fun hm => h.next fun r => (hle r).trans (hm r)
  label := h.label

theorem of_computation
    (h : ∀ hardware, ∃ c, i.computation? hardware = some c ∧ c.ReadsWithin known ∧
      ∀ r, (known' r ≤ known r ∨ ∃ x ∈ c.writes, x.1 = .reg r) ∧
        ∀ x ∈ c.writes, x.1 = .reg r → known' r ≤ c.extent.determined (.reg r) x.2 0) :
    i.Settles known known' where
  strict := by
    intro p e m hm
    obtain ⟨c, hc, hreads, -⟩ := h e.hardware
    rw [execute_of_computation? hc, execute_of_computation? hc, compute?_strict hreads hm]
  next := by
    intro p e m m' hm hnext r
    obtain ⟨c, hc, -, hbounds⟩ := h e.hardware
    rw [execute_of_computation? hc] at hnext
    exact le_determined_compute? hc (goOn_eq_next hnext)
      ((hbounds r).1.imp_left fun hle => hle.trans (hm r)) (hbounds r).2
  label := by
    intro l hl
    obtain ⟨c, hc, -⟩ := h ⟨fun _ _ _ => 0, fun _ _ => ⟨false, false, false, false, false⟩,
      fun _ _ => 0, fun _ _ => 0, fun _ _ _ => id⟩
    have hop := op_of_flow_label hl
    obtain ⟨op, w, operands⟩ := i
    cases hop
    cases hc

theorem of_values
    (h : ∀ hardware, ∃ c, i.computation? hardware = some c ∧ (∀ x ∈ c.reads, x.1.isValue = true) ∧
      ∀ x ∈ c.writes, x.1.isValue = true) : i.Settles known known := by
  refine of_computation fun hardware => ?_
  obtain ⟨c, hc, hreads, hwrites⟩ := h hardware
  refine ⟨c, hc, ⟨fun x hx r hr => ?_, fun x hx b hb => ?_⟩, fun r => ⟨.inl (Nat.le_refl _), ?_⟩⟩
  · exact absurd hr (ne_reg_of_isValue (hreads x hx) r)
  · rw [base?_of_isValue (forall_mem_append.mpr ⟨hreads, hwrites⟩ x hx)] at hb
    cases hb
  · exact fun x hx hr => absurd hr (ne_reg_of_isValue (hwrites x hx) r)

theorem copyValue (hd : d.isVariable = true) (hs : s.isValue = true) :
    Settles known ⟨.mov, w, [d, s]⟩ known :=
  of_values fun _ => ⟨_, rfl, by simpa [copy, convert],
    by simpa [copy, convert] using isValue_of_isVariable hd⟩

theorem move (hs : ∀ r, s = .reg r → w.bits ≤ known r)
    (hbases : ∀ b, d.base? = some b ∨ s.base? = some b → 64 ≤ known b)
    (hd : ∀ r, d = .reg r ∧ known' r ≤ w.bits ∨ d ≠ .reg r ∧ known' r ≤ known r) :
    Settles known ⟨.mov, w, [d, s]⟩ known' := by
  refine of_computation fun hardware => ⟨_, rfl, ⟨?_, ?_⟩, fun r => ?_⟩
  · simpa [copy, convert] using hs
  · simpa [copy, convert, or_comm, or_imp, forall_and] using hbases
  · rcases hd r with ⟨rfl, hle⟩ | ⟨hne, hle⟩
    · simpa [copy, convert, Extent.determined] using hle
    · refine ⟨.inl hle, ?_⟩
      simpa [copy, convert] using fun h => absurd h hne

theorem toRegister (hr : r ∈ Register.callerSaved) (hs : s.isValue = true) :
    Settles known ⟨.mov, w, [.reg r, s]⟩ (known.update r w.bits hr) := by
  refine move (fun r' hr' => absurd hr' (ne_reg_of_isValue hs r'))
    (by simp [base?_of_isValue hs]) fun r' => ?_
  by_cases heq : r' = r
  · simp [heq]
  · simp [Function.update_of_ne heq, Ne.symm heq]

theorem ofRegister (hd : d.isVariable = true) (hr : w.bits ≤ known r) :
    Settles known ⟨.mov, w, [d, .reg r]⟩ known := by
  have hd' := isValue_of_isVariable hd
  refine move ?_ (by simp [base?_of_isValue hd'])
    fun r' => .inr ⟨ne_reg_of_isValue hd' r', Nat.le_refl _⟩
  rintro r' ⟨⟩
  exact hr

theorem ofMemory {b : Register} {offset : Int} (hd : d.isVariable = true) (hb : 64 ≤ known b) :
    Settles known ⟨.mov, w, [d, .memory b offset]⟩ known := by
  have hd' := isValue_of_isVariable hd
  exact move (nofun) (by simpa [base?_of_isValue hd'] using hb)
    fun r' => .inr ⟨ne_reg_of_isValue hd' r', Nat.le_refl _⟩

theorem toMemory {b : Register} {offset : Int} (hs : s.isValue = true) (hb : 64 ≤ known b) :
    Settles known ⟨.mov, w, [.memory b offset, s]⟩ known :=
  move (fun r' hr' => absurd hr' (ne_reg_of_isValue hs r'))
    (by simpa [base?_of_isValue hs] using hb)
    fun _ => .inr ⟨nofun, Nat.le_refl _⟩

theorem shift (hop : op ∈ [.sal, .sar, .shr]) (hd : d.isVariable = true) (hr : 8 ≤ known r) :
    Settles known ⟨op, w, [d, .reg r]⟩ known := by
  have hd' := isValue_of_isVariable hd
  refine of_computation fun hardware => ?_
  have hc : (⟨op, w, [d, .reg r]⟩ : Instr).computation? hardware =
      some (.combine d w (.reg r) .byte (hardware.shift op w)) := by
    fin_cases hop <;> rfl
  refine ⟨_, hc, ⟨?_, ?_⟩, fun r' => ⟨Or.inl (Nat.le_refl _), ?_⟩⟩
  · intro x hx r' hr'
    simp only [combine, mem_cons, not_mem_nil, or_false] at hx
    rcases hx with rfl | rfl
    · exact absurd hr' (ne_reg_of_isValue hd' r')
    · cases hr'
      exact hr
  · simp [combine, base?_of_isValue hd']
  · simpa [combine] using fun hr' => absurd hr' (ne_reg_of_isValue hd' r')

theorem shiftByImm {n : Int} (hop : op ∈ [.sal, .sar, .shr]) (hd : d.isVariable = true) :
    Settles known ⟨op, w, [d, .imm n]⟩ known := by
  have hd' := isValue_of_isVariable hd
  fin_cases hop <;>
    exact of_values fun _ => ⟨_, rfl, by simp [combine, hd'], by simp [combine, hd']⟩

theorem signUpper (hw : w.divides = true) (hr : w.bits ≤ known .rax) :
    Settles known ⟨.cdq, w, []⟩ (known.update .rdx w.bits (by decide)) := by
  refine of_computation fun hardware =>
    ⟨.convert (.reg .rdx) w (.reg .rax) w (signWord w), ?_, ⟨?_, ?_⟩, fun r' => ?_⟩
  · simp [computation?, hw]
  · simpa [convert] using hr
  · simp [convert]
  · by_cases hr' : r' = .rdx
    · subst hr'
      cases w <;> simp [convert, Extent.determined, bits_le]
    · simp [convert, Function.update_of_ne hr', Ne.symm hr']

theorem clearUpper :
    Settles known ⟨.xor, .long, [.reg .rdx, .reg .rdx]⟩ (known.update .rdx 64 (by decide)) := by
  refine of_computation fun hardware =>
    ⟨.clear (.reg .rdx) .long, rfl, ⟨?_, ?_⟩, fun r' => ?_⟩
  · simp [clear]
  · simp [clear]
  · by_cases hr' : r' = .rdx
    · subst hr'
      simp [clear, Extent.determined]
    · simp [clear, Function.update_of_ne hr', Ne.symm hr']

theorem divide (hop : op ∈ [.idiv, .div]) (hw : w.divides = true) (hs : s.isValue = true)
    (hrax : w.bits ≤ known .rax) (hrdx : w.bits ≤ known .rdx) :
    Settles known ⟨op, w, [s]⟩
      ((known.update .rax w.bits (by decide)).update .rdx w.bits (by decide)) := by
  refine of_computation fun hardware => ?_
  have hc : ∃ signed, (⟨op, w, [s]⟩ : Instr).computation? hardware =
      some (.divide hardware op signed w s) := by
    fin_cases hop <;> simp [computation?, hw]
  obtain ⟨signed, hc⟩ := hc
  refine ⟨_, hc, ⟨?_, ?_⟩, fun r' => ?_⟩
  · intro x hx r' hr'
    simp only [Computation.divide, mem_cons, not_mem_nil, or_false] at hx
    rcases hx with rfl | rfl | rfl
    · cases hr'
      exact hrdx
    · cases hr'
      exact hrax
    · exact absurd hr' (ne_reg_of_isValue hs r')
  · simp [Computation.divide, base?_of_isValue hs]
  · have hle : w.bits ≤ Extent.computed.determined (.reg r') w 0 := by
      cases w <;> simp [Extent.determined, bits_le]
    by_cases hdx : r' = .rdx
    · subst hdx
      simpa [Computation.divide] using hle
    · rw [Bounds.bound_update, Function.update_of_ne hdx]
      by_cases hax : r' = .rax
      · subst hax
        simpa [Computation.divide] using hle
      · simp [Computation.divide, Function.update_of_ne hax, Ne.symm hax, Ne.symm hdx]

theorem moveStack {n : Nat} (hop : op ∈ [.add, .sub]) (hrsp : known .rsp = 64) :
    Settles known ⟨op, .quad, [.reg .rsp, .imm n]⟩ known := by
  refine of_computation fun hardware => ?_
  have hc : (⟨op, .quad, [.reg .rsp, .imm n]⟩ : Instr).computation? hardware =
      some (.combine (.reg .rsp) .quad (.imm n) .quad (hardware.combine op .quad)) := by
    fin_cases hop <;> rfl
  refine ⟨_, hc, ⟨?_, ?_⟩, fun r' => ⟨Or.inl (Nat.le_refl _), ?_⟩⟩
  · simpa [combine, hrsp] using bits_le .quad
  · simp [combine, base?]
  · intro x hx hr'
    simp only [combine, mem_singleton] at hx
    subst hx
    cases hr'
    exact Nat.le_of_eq hrsp

theorem atLabel : Settles known (.label l) Bounds.base where
  strict := fun _ => rfl
  next := by
    intro p e m m' hm hnext r
    cases hnext
    exact (known.base_le r).trans (hm r)
  label := fun _ _ => Nat.le_refl _

theorem jump : Settles known ⟨.jmp, .quad, [.label l]⟩ known where
  strict := fun _ => rfl
  next := nofun
  label := nofun

theorem branch {cond : Condition} : Settles known ⟨.jcc cond, .quad, [.label l]⟩ known where
  strict := fun _ => rfl
  next := by
    intro p e m m' hm hnext
    simp only [Procedure.execute] at hnext
    split at hnext <;> cases hnext
    exact hm
  label := nofun

theorem ret : Settles known (.bare .ret []) known where
  strict := fun _ => rfl
  next := fun _ hnext => absurd hnext leave_ne_next
  label := nofun

theorem fetch?_rsp (hrsp : 64 ≤ known .rsp) (hm : known.Hold m) :
    m.fetch? (e.checks true) .quad (.cell (.reg .rsp)) =
      m.fetch? (e.checks false) .quad (.cell (.reg .rsp)) := by
  refine fetch?_strict ?_
  rintro r ⟨⟩
  exact hrsp.trans (hm .rsp)

theorem push (hrsp : known .rsp = 64) (hs : s.isValue = true ∨ ∃ r, s = .reg r) :
    Settles known ⟨.push, .quad, [s]⟩ known where
  strict := by
    intro p e m hm
    have hpushed : p.pushed? e (e.checks true) m s = p.pushed? e (e.checks false) m s := by
      rcases hs with hs | ⟨r, rfl⟩
      · have hread : p.read? e (e.checks true) m s .quad =
            p.read? e (e.checks false) m s .quad := by
          refine read?_strict (fun r hr => absurd hr (ne_reg_of_isValue hs r))
            fun b hb => ?_
          rw [base?_of_isValue hs] at hb
          cases hb
        cases s with
        | reg r => cases hs
        | _ =>
          simp only [pushed?, hread]
      · rfl
    have hpush : p.push? e (e.checks true) m s = p.push? e (e.checks false) m s := by
      simp only [push?, hpushed, fetch?_rsp (Nat.le_of_eq hrsp.symm) hm]
    simp only [Procedure.execute, hpush]
  next := by
    intro p e m m' hm hnext r
    obtain ⟨y, top, -, -, -, rfl⟩ := push?_eq_some_iff.mp (goOn_eq_next hnext)
    show known r ≤ Function.update m.determined (.reg .rsp) 64 (.reg r)
    by_cases hr : r = .rsp
    · subst hr
      rw [Function.update_self, hrsp]
    · rw [Function.update_of_ne (by simpa using hr)]
      exact hm r
  label := nofun

theorem call {symbol : String} (hrsp : 64 ≤ known .rsp) :
    Settles known ⟨.call, .quad, [.callee symbol]⟩ known.afterCall where
  strict := by
    intro p e m hm
    have hargument : p.argument? e (e.checks true) m symbol =
        p.argument? e (e.checks false) m symbol := by
      funext ⟨place, w⟩
      cases place with
      | reg r => rfl
      | stack n => simp only [argument?, fetch?_rsp hrsp hm]
    simp only [Procedure.execute, Procedure.call, hargument]
  next := by
    intro p e m m' hm hnext r
    have hcall : p.call e (e.checks false) m symbol = .next m' := hnext
    unfold Procedure.call at hcall
    split at hcall
    · cases hcall
    · simp only at hcall
      split at hcall <;> cases hcall
      show (if r ∈ Register.callerSaved then 64 else known r) ≤
        if r ∈ Register.callerSaved then 64 else m.determined (.reg r)
      split
      · exact Nat.le_refl _
      · exact hm r
  label := nofun

theorem address (hd : d.isValue = true) (hs : s.isValue = true) :
    Settles known ⟨.lea, .quad, [d, s]⟩ known where
  strict := by
    intro p e m hm
    have hplace : ∀ o : Operand, o.isValue = true →
        p.place? e (e.checks true) m o = p.place? e (e.checks false) m o := by
      intro o ho
      refine place?_strict fun b hb => ?_
      rw [base?_of_isValue ho] at hb
      cases hb
    have hlea : p.lea? e (e.checks true) m d s = p.lea? e (e.checks false) m d s := by
      unfold lea?
      rw [hplace s hs, hplace d hd]
      rfl
    simp only [Procedure.execute, hlea]
  next := by
    intro p e m m' hm hnext r
    have hlea := goOn_eq_next hnext
    obtain ⟨place, -, hrest⟩ := Option.bind_eq_some_iff.mp hlea
    cases place with
    | value y | cell y => cases hrest
    | address a =>
      obtain ⟨place, hplace, hput⟩ := Option.bind_eq_some_iff.mp hrest
      have hputAll : m.putAll? (e.checks false) .computed [((place, .quad), a)] = some m' := by
        simpa [Storage.putAll?] using hput
      refine le_determined_putAll? hputAll (.inl (hm r)) ?_
      intro y hy hcell
      obtain rfl := mem_singleton.mp hy
      exact absurd (eq_reg_of_place? (hplace.trans (congrArg some hcell)))
        (ne_reg_of_isValue hd r)
  label := nofun

end Instr.Settles

/-! ### Lowered code -/

theorem Instr.computation?_combine
    (hop : op ∈ [.add, .sub, .imul, .and, .or, .xor] ∨ op = .div ∧ w = .double)
    (hd : d.isValue = true) (hs : s.isValue = true) :
    ∃ c, (⟨op, w, [d, s]⟩ : Instr).computation? hardware = some c ∧
      (∀ x ∈ c.reads, x.1.isValue = true) ∧ ∀ x ∈ c.writes, x.1.isValue = true := by
  have hcombine : ∀ f, (∀ x ∈ (combine d w s w f).reads, x.1.isValue = true) ∧
      ∀ x ∈ (combine d w s w f).writes, x.1.isValue = true := by
    simp [combine, hd, hs]
  rcases hop with hop | ⟨rfl, rfl⟩
  · fin_cases hop
    iterate 5 exact ⟨_, rfl, hcombine _⟩
    by_cases hds : d = s
    · exact ⟨.clear d w, by simp [computation?, hds], by simp [clear],
        by simp [clear, hd]⟩
    · exact ⟨.combine d w s w (hardware.combine .xor w), by simp [computation?, hds], hcombine _⟩
  · exact ⟨.combine d .double s .double (hardware.combine .div .double), by simp [computation?],
      hcombine _⟩

/-- Values and constants need no register to be set before. -/
theorem Instr.HasForm.settles {targets : Label → Prop}
    (h : i.HasForm (.lowered true false false) targets) : i.Settles Bounds.base Bounds.base := by
  cases h with
  | copy hd hs | truncate _ hd hs => exact .copyValue hd.1 hs.1
  | toRegister hnamed _ hs =>
    exact (Settles.toRegister (mem_callerSaved_of_mem_namedRegisters hnamed) hs.1).forget
  | ofStack hd => exact .ofMemory hd.1 (Nat.le_refl 64)
  | combine hop hd hs => exact .of_values fun _ => computation?_combine hop hd.reads.1 hs.1
  | modify hop hd =>
    fin_cases hop <;> exact .of_values fun hardware => ⟨_, rfl,
      by simp [Computation.modify, hd.reads.1], by simp [Computation.modify, hd.reads.1]⟩
  | shift hop _ hd => exact .shiftByImm hop hd.1
  | compare ha hb | compareDoubles ha hb =>
    exact .of_values fun _ => ⟨_, rfl, by simp [Computation.compare, ha.1, hb.1],
      by simp [Computation.compare]⟩
  | setByte _ hd =>
    exact .of_values fun _ => ⟨_, rfl, by simp [Computation.setByte],
      by simp [Computation.setByte, hd.isValue.1]⟩
  | extend hop hd hs =>
    rcases hop with rfl | rfl <;> exact .of_values fun hardware => ⟨_, rfl,
      by simp [Computation.convert, hs.1], by simp [Computation.convert, hd.reads.1]⟩
  | toDouble hd hs | toInteger hd hs =>
    exact .of_values fun _ => ⟨_, rfl, by simp [Computation.convert, hs.1],
      by simp [Computation.convert, hd.reads.1]⟩
  | clearUpper => exact Settles.clearUpper.forget
  | address hd hs => exact .address hd.reads.1 hs
  | jump => exact .jump
  | branch => exact .branch
  | label => exact .atLabel
  | ret => exact .ret
  | ofRegister h | load h | store h | shiftByRegister h | signUpper h | divide h | push h
  | pushRegister h | call h | moveStack _ h => cases h

/-- The rules for code that needs no register to be set before. -/
abbrev FormRules.basic (ctx : LoweringContext) : FormRules ctx := .lowered ctx true false false

/-- Code that knows nothing of registers before and after it, but for the stack. -/
def Steady (code : List Instr) : Prop := Leads Instr.Settles Bounds.base code Bounds.base

theorem Leads.weaken (h : Leads Instr.Settles known code known') (hcode : code ≠ [])
    (hle : ∀ r, known'' r ≤ known' r) : Leads Instr.Settles known code known'' := by
  induction h with
  | nil => exact absurd rfl hcode
  | @cons known _ _ i rest hi hrest ih =>
    cases rest with
    | nil =>
      cases hrest
      exact .single (hi.weaken hle)
    | cons j rest => exact .cons hi (ih (cons_ne_nil j rest) hle)

theorem Leads.strengthen (h : Leads Instr.Settles known code known') (hcode : code ≠ [])
    (hle : ∀ r, known r ≤ known'' r) : Leads Instr.Settles known'' code known' := by
  cases h with
  | nil => exact absurd rfl hcode
  | cons hi hrest => exact .cons (hi.strengthen hle) hrest

theorem Forms.Code.steady (h : (Forms.lowered true false false).Code code) : Steady code :=
  .of_forall_mem fun i hi => (@h (fun _ => True) (fun _ _ => trivial) i hi).settles

theorem IsCall.steady {F : Forms} (h : IsCall F code) : Steady code := by
  obtain ⟨-, hpushes, hmoves, hresult⟩ := h
  have hstack {c : Prop} [Decidable c] {op : Opcode} {n : Nat} (hop : op ∈ [.add, .sub])
      {known : Bounds} (hrsp : known .rsp = 64) :
      Leads Instr.Settles known (if c then [] else [⟨op, .quad, [.reg .rsp, .imm n]⟩]) known := by
    split
    · exact .nil known
    · exact .single (.moveStack hop hrsp)
  simp only [append_assoc]
  refine (hstack (by decide) rfl).append (.append (.flatten fun code hcode => ?_)
    (.append (.of_forall_mem fun i hi => ?_) (Leads.weaken (.append (.single (.call rfl.le))
      (.append (hstack (by decide) rfl) (.of_forall_mem fun i hi => ?_)))
      (cons_ne_nil _ _) (Bounds.base_le _))))
  · cases hpushes code hcode with
    | direct hs => exact .single (.push rfl (.inl hs.1))
    | throughRegister hs =>
      exact .cons (Instr.Settles.toRegister (by decide) hs.1).forget
        (.single (.push rfl (.inr ⟨_, rfl⟩)))
  · obtain ⟨w, r, s, rfl, hr, -, hs⟩ := hmoves i hi
    exact (Instr.Settles.toRegister (mem_callerSaved_of_mem_namedRegisters hr) hs.1).forget
  · obtain ⟨w, d, r, rfl, hd, hr, -⟩ := hresult i hi
    refine .ofRegister hd.1 ?_
    simpa [Bounds.afterCall, mem_callerSaved_of_mem_namedRegisters hr] using w.bits_le

namespace LoweringContext

open Lower

variable {ctx : LoweringContext} {dst : Variable} {lhs rhs src : Value}

/-! Code that sets registers and reads them -/

theorem steady_division {result : Register} (hresult : result ∈ [.rax, .rdx])
    (hl : lhs.type.isDouble = false) (hd : dst.type = lhs.type) (hr : rhs.type = lhs.type) :
    Yields (ctx.division dst result lhs rhs) Steady := by
  generalize hwidth : (if ofType lhs.type == .byte then .long else ofType lhs.type) = w
  have hw : w.divides = true ∧ (ofType dst.type).bits ≤ w.bits := by
    subst hwidth
    cases ht : lhs.type <;> simp_all [ScalarType.isDouble, ofType, divides] <;> decide
  have hprepared {x : Value} (hx : x.type = lhs.type) :
      Yields (ctx.divisionOperand (ofType lhs.type == .byte) x) fun y =>
        y.1.isValue = true ∧ Steady y.2 := by
    have hbyte : (ofType lhs.type == .byte) = true → ofType x.type = .byte := by
      simp [hx]
    exact (FormRules.keeps_divisionOperand (R := .basic ctx) (fun _ => rfl) hbyte).mono
      fun _ h => ⟨h.1.1, h.2.steady⟩
  refine .bind (hprepared rfl) fun l hl => ?_
  obtain ⟨hlv, hpreparedL⟩ := hl
  refine .bind (hprepared hr) fun r hr => ?_
  obtain ⟨hrv, hpreparedR⟩ := hr
  refine .bind (yields_variableOperand dst) fun d hdv => .pure ?_
  simp only [hwidth]
  -- What is known after the dividend is loaded, after its upper half is set, and after the
  -- division.
  let loaded := Bounds.base.update .rax w.bits (by decide)
  let upper := loaded.update .rdx w.bits (by decide)
  let divided := (upper.update .rax w.bits (by decide)).update .rdx w.bits (by decide)
  have hdivide {op : Opcode} (hop : op ∈ [.idiv, .div]) :
    Instr.Settles upper ⟨op, w, [r.1]⟩ divided :=
    .divide hop hw.1 hrv (by simp [upper, loaded]) (by simp [upper])
  have hresult : Instr.Settles divided ⟨.mov, .ofType dst.type, [d, .reg result]⟩ .base := by
    refine (Instr.Settles.ofRegister hdv ?_).forget
    fin_cases hresult <;> simpa [divided] using hw.2
  refine (((Leads.append hpreparedL hpreparedR).append
    (.single (.toRegister (by decide) hlv))).append ?_).append (.single hresult)
  split
  · exact .cons (.signUpper hw.1 (by simp)) (.single (hdivide (by decide)))
  · have hclear : Instr.Settles loaded ⟨.xor, .long, [.reg .rdx, .reg .rdx]⟩ upper := by
      refine Instr.Settles.clearUpper.weaken fun r => ?_
      by_cases hr : r = .rdx
      · subst hr
        simpa [upper] using w.bits_le
      · simp [upper, Function.update_of_ne hr]
    exact .cons hclear (.single (hdivide (by decide)))

theorem steady_shift {isLeft : Bool} : Yields (ctx.shift dst isLeft lhs rhs) Steady := by
  rw [shift_eq]
  cases rhs with
  | const c =>
    rw [shiftAmount, pure_bind]
    refine .bind (yields_variableOperand dst) fun d hd => .bind (yields_operand lhs) fun l hl => ?_
    exact .pure (.cons (.copyValue hd hl) (.single (.shiftByImm (shiftOpcode_mem ..) hd)))
  | var v =>
    rw [shiftAmount, bind_assoc]
    refine .bind (yields_variableOperand v) fun r hr => ?_
    rw [pure_bind]
    refine .bind (yields_variableOperand dst) fun d hd => .bind (yields_operand lhs) fun l hl => ?_
    refine .pure (.cons (.toRegister (by decide) (isValue_of_isVariable hr))
      (.cons (.copyValue hd hl) (.single (Instr.Settles.shift (shiftOpcode_mem ..) hd ?_).forget)))
    cases v.type <;> decide

theorem steady_instr {i : ThreeAddress.Instr} (htype : i.typeDefect? returns arity? = none) :
    Yields (ctx.instr i) Steady := by
  cases hregisters : FormRules.usesRegisters i with
  | false =>
    refine (FormRules.keeps_instr (R := .basic ctx) (by simp [hregisters]) (fun _ _ => rfl)
      (fun _ _ _ h => by simp [h, FormRules.usesRegisters] at hregisters) (fun _ => trivial)
      (fun v _ => ctx.isValue_variableOperandOf v) (fun _ _ _ => rfl) (fun _ _ _ => rfl)
      (fun _ _ _ => rfl) htype).mono fun code h => .of_forall_mem fun i hi => ?_
    exact (@h (fun _ => True) (fun _ _ => trivial) (fun _ _ => trivial) i hi).settles
  | true =>
    have hpointer : 64 ≤ Bounds.base.update .r11 quad.bits (by decide) .r11 := by decide
    cases i with
    | binary dst op lhs rhs =>
      exact FormRules.keeps_binary_of (R := .basic ctx) (fun _ h => h.steady)
        (by simpa [FormRules.usesRegisters] using hregisters) (fun _ => rfl) (fun _ => rfl)
        (fun _ => rfl) htype steady_division fun _ => steady_shift
    | load dst ptr =>
      refine .bind (yields_operand ptr) fun a ha =>
        .bind (yields_variableOperand dst) fun d hd => ?_
      exact .pure (.cons (.toRegister (by decide) ha)
        (.single (Instr.Settles.ofMemory hd hpointer).forget))
    | store ptr src =>
      refine .bind (yields_operand ptr) fun a ha => .bind (yields_operand src) fun s hs => ?_
      exact .pure (.cons (.toRegister (by decide) ha)
        (.single (Instr.Settles.toMemory hs hpointer).forget))
    | call dst callee args =>
      exact (FormRules.keeps_call (R := .lowered ctx true true true) (fun _ _ _ => rfl)
        fun _ _ _ => rfl).mono fun _ h => h.steady
    | _ => cases hregisters

theorem leads_params (ps : List Variable) :
    Yields (ctx.params ps) fun code => Leads Instr.Settles .full code .full := by
  refine (Keeps.mapM_forall_mem ?_).mono fun _ h => .of_forall_mem h
  rintro ⟨v, place⟩ hx
  refine .bind (yields_variableOperand v) fun d hd => .pure ?_
  cases place with
  | stack n => exact .ofMemory hd (Nat.le_refl _)
  | reg r => exact .ofRegister hd (bits_le _)

theorem steady_body {body : Listing ThreeAddress.Instr}
    (htype : ∀ i ∈ body, i.typeDefect? returns arity? = none) : Yields (ctx.body body) Steady := by
  have hret : Steady [.bare .ret []] := .single .ret
  refine (keeps_body (fun i hi => steady_instr (htype i hi)) hret).mono ?_
  rintro _ ⟨blocks, rfl, hblocks⟩
  refine .flatten fun block hblock => ?_
  obtain ⟨_, -, hsteady⟩ := exists_of_forall₂_of_mem hblocks hblock
  exact hsteady

end LoweringContext

/-! ### Functions -/

theorem leads_lowerFunction {program : Program} {f : Function} {q : Procedure}
    (hq : lowerFunction program platform f constants = .ok (q, constants'))
    (htype : ∀ i ∈ f.body, i.typeDefect? f.returnType program.arity? = none) :
    ∃ known : Bounds, (∀ r, known r ≤ 64) ∧ Leads Instr.Settles known q.body Bounds.base := by
  obtain ⟨params, body, st₁, st₂, hparams, hbody, rfl⟩ := exists_of_lowerFunction hq
  have hfront := (LoweringContext.leads_params f.params).of_run hparams
  have hback : Steady body := (LoweringContext.steady_body htype).of_run hbody
  by_cases hempty : params ++ body = []
  · rw [hempty]
    exact ⟨.base, baseBound_le, .nil _⟩
  · by_cases hnil : body = []
    · rw [hnil, append_nil] at hempty ⊢
      exact ⟨_, fun _ => Nat.le_refl 64, Leads.weaken hfront hempty baseBound_le⟩
    · exact ⟨_, fun _ => Nat.le_refl 64,
        hfront.append (Leads.strengthen hback hnil baseBound_le)⟩

theorem outline_settles (p : Procedure) (e : Setting) :
    Outline (p.machine e (e.checks false)) Instr.Settles Bounds.base Bounds.Hold where
  next := fun hstep hm hnext => hstep.next hm hnext
  jump := by
    intro known _ i l m m' hstep hm hjump
    obtain ⟨-, rfl, -⟩ := Procedure.execute_jump_cases hjump
    exact fun r => (known.base_le r).trans (hm r)
  label := by
    intro known known' i l hstep hl
    have hop := op_of_flow_label hl
    have hle := hstep.label hl
    obtain ⟨op, w, operands⟩ := i
    cases hop
    exact {
      strict := fun _ => rfl
      next := by
        intro p e m m' hm hnext r
        cases hnext
        exact (hle r).trans (hm r)
      label := hstep.label }

/-- Whether reading too much is checked makes no difference to the code of a function whose caller
has set all registers. -/
theorem lowerFunction_strict {program : Program} {f : Function} {q : Procedure}
    (hq : lowerFunction program platform f constants = .ok (q, constants'))
    (htype : ∀ i ∈ f.body, i.typeDefect? f.returnType program.arity? = none) (e : Setting)
    (hm : ∀ r, 64 ≤ m.determined (.reg r)) :
    Preserves (q.machine e (e.checks false)) q.body m (q.machine e (e.checks true)) q.body m := by
  obtain ⟨known, hknown, hcode⟩ := leads_lowerFunction hq htype
  exact (outline_settles q e).preserves hcode (fun r => (hknown r).trans (hm r))
    (fun hstep hm => hstep.strict hm) rfl rfl rfl

end ThreeAddress.Amd64
