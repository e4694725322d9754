import ThreeAddress.Proofs.Amd64.FoldedCode
import ThreeAddress.Proofs.Semantics.HalvedRounding

/-!
# Conversions of integers to doubles

An integer is converted to a double by rounding it.  Which integer the bits of a constant stand for
is decided in three places: by folding, by the code for a constant, and by the code for a variable.
Folding goes by the type of the constant.  The code goes by the conversion, except that it goes by
the type for bytes, and for constants of 32 bits that are taken as unsigned.

The three agree if the conversion fits the signedness of the type.  Otherwise they agree on bytes,
and on numbers without a sign bit, and on nothing else.
-/

namespace ThreeAddress.Amd64

open ThreeAddress.Const NameSupply SourceState Width Option Layout LoweringContext Std.ExtTreeMap

variable {t : ScalarType} {c : Const} {conversion : Conversion}

/-- The hardware rounds integers and sums to the nearest double. -/
structure Hardware.Rounds (h : Hardware) : Prop where
  ofInteger : ∀ w x, h.ofInteger w x = (Binary64.ofInt (w.ofWord x).toInt).bits
  add : ∀ x y, h.double .add x y = (Binary64.add (.ofBits x) (.ofBits y)).bits

/-- The integer that the code of a conversion rounds, for a constant or for a variable that has its
value. -/
def roundedInCode (conversion : Conversion) (isConstant : Bool) (c : Const) : Int :=
  if Width.ofType c.type = .byte then c.value
  else if conversion = .uintToDouble then
    if isConstant ∧ Width.ofType c.type = .long then c.value else c.bits.toNat
  else c.bits.toInt

/-- Code that assigns to a variable what can be computed from the state before.  It may jump to
labels of its own. -/
def Layout.Completes {ctx : LoweringContext} {e : Setting} (L : Layout ctx e) (code : List Instr)
    (v : Variable) (value : SourceState → Option Const) : Prop :=
  ∀ ⦃p : Procedure⦄, p.Hosts L → ∀ ⦃top s m c⦄, L.Matches top s m → value s = some c →
    ∃ m', (p.machine e (e.checks true)).Leads code 0 m code.length m' ∧
      L.Matches top (s.assign ctx e v c) m'

section

variable {ctx : LoweringContext} {e : Setting} {L : Layout ctx e} {p : Procedure} {A : Sketch}
  {s : SourceState} {top : Option Const} {dst : Variable} {a b c : Const} {i : Instr} {o : Operand}
  {src : Value} {st : LoweringState} {code : List Instr} {value : SourceState → Option Const}

theorem Layout.Assigns.completes (h : L.Assigns code dst value) : L.Completes code dst value := by
  rintro p hp top s m c ⟨A, hm, hA⟩ hc
  obtain ⟨B, hrun, hB⟩ := h hp hA hc
  obtain ⟨m', hblock, hm'⟩ := hrun m hm
  exact ⟨m', Machine.leads_block [] [] hblock (by simp) rfl (by simp), B, hm', hB⟩

section

variable {D : Place} {d : Operand} (hh : e.hardware.Rounds) (hd : A.place? p e d = some D)
  (hD : e.Writable .double D)

include hh hd hD

theorem Procedure.Runs.ofInteger (ho : A.read? p e o c.type = some c) :
    p.Runs e [⟨.cvtsi2sd (.ofType c.type), .double, [d, o]⟩] A
      (A.set D (.ofBinary64 (.ofInt c.bits.toInt))) := by
  have hinteger : ((ofType c.type).ofWord c.raw).toInt = c.bits.toInt :=
    apply_ofWord (bits_ofType c.type) (fun _ x => x.toInt) c.bits
  have hrun : p.Runs e [⟨.cvtsi2sd (.ofType c.type), .double, [d, o]⟩] A _ :=
    .convert rfl ho hd hD
  rwa [hh.ofInteger, hinteger] at hrun

theorem Procedure.Runs.double {x : Binary64} (hx : A.read? p e d .double = some (.ofBinary64 x)) :
    p.Runs e [⟨.add, .double, [d, d]⟩] A
      ((A.set D (.ofBinary64 (x.add x))).withFlags none) := by
  have hsum (f : Flags) : (e.hardware.combine .add .double (ofBinary64 x).raw
      (ofBinary64 x).raw f).1 = (x.add x).bits := by
    exact hh.add x.bits x.bits
  have hrun := combine (i := ⟨.add, .double, [d, d]⟩) rfl hsum hx hx hd hD
  have hvalue : ofWord (ofBinary64 x).type (x.add x).bits = .ofBinary64 (x.add x) :=
    congrArg (Const.mk .double) (BitVec.setWidth_eq _)
  rwa [hvalue] at hrun

end

theorem Sketch.Agrees.convertInteger (hA : A.Agrees L top s) (hp : p.Hosts L) (hdst : L.Has dst)
    (hd : dst.type = .double) (hh : e.hardware.Rounds) (ho : A.read? p e o c.type = some c) :
    ∃ B, p.Runs e [⟨.cvtsi2sd (.ofType c.type), .double, [ctx.variableOperandOf dst, o]⟩] A B ∧
      B.Agrees L top (s.assign ctx e dst (.ofBinary64 (.ofInt c.bits.toInt))) :=
  ⟨_, .ofInteger hh (hp.place?_variable hdst.1) (hd ▸ hdst.writable) ho,
    hA.set_variable hdst hd.symm⟩

/-! ### Large integers -/

/-- What is known whatever is in two temporaries, the flags and a destination. -/
structure Sketch.Ignores (I : Sketch → Prop) (x y : String) (D : Place) : Prop where
  first : ∀ {B c}, I B → I (B.set (.cell (.pseudo x)) c)
  second : ∀ {B c}, I B → I (B.set (.cell (.pseudo y)) c)
  flags : ∀ {B f}, I B → I (B.withFlags f)
  destination : ∀ {B c}, c.type = .double → I B → I (B.set D c)

theorem Sketch.read?_pseudo {x : String} (hx : p.isAliased x = false)
    (hc : A.cells (.pseudo x) = some c) : A.read? p e (.pseudo x) c.type = some c := by
  rw [read?, place?, hx, if_neg Bool.false_ne_true, bind_some,
    fetch?_cell hc (Nat.le_refl _), ofWord_raw]

theorem toInt_halved (x : Word) : (x >>> 1 ||| x &&& 1#64).toInt = halved x.toNat := by
  have hnat : (x >>> 1 ||| x &&& 1#64).toNat = halved x.toNat := by
    rw [BitVec.toNat_or, BitVec.toNat_ushiftRight, BitVec.toNat_and, Nat.shiftRight_one,
      BitVec.toNat_one (by decide), Nat.and_one_is_mod, halved]
  have hlt : halved x.toNat < 2 ^ 63 := by
    rw [halved_eq]
    split <;> omega
  rw [BitVec.toInt_eq_toNat_of_lt (by omega), hnat]

/-- The code for an integer that is at least `2 ^ 63`. -/
def largeCode (d s halved lowBit : Operand) : List Instr := [
  ⟨.mov, .quad, [lowBit, s]⟩,
  ⟨.mov, .quad, [halved, lowBit]⟩,
  ⟨.shr, .quad, [halved, .imm 1]⟩,
  ⟨.and, .quad, [lowBit, .imm 1]⟩,
  ⟨.or, .quad, [halved, lowBit]⟩,
  ⟨.cvtsi2sd .quad, .double, [d, halved]⟩,
  ⟨.add, .double, [d, d]⟩]

theorem width_of_quad (ht : Width.ofType t = .quad) : t.width = 64 := by
  rw [← bits_ofType, ht]
  rfl

theorem raw_ofWord_of_quad (ht : Width.ofType t = .quad) (x : Word) :
    (Const.ofWord t x).raw = x := by
  rw [raw_ofWord, width_of_quad ht]
  exact BitVec.setWidth_eq x

namespace Hardware

variable (h : Hardware) (x y : Word) (f : Flags)

theorem shift_shr_quad : (h.shift .shr .quad x 1#64 f).1 = x >>> 1 := by
  show ((x.setWidth 64) >>> 1).setWidth 64 = x >>> 1
  rw [BitVec.setWidth_eq, BitVec.setWidth_eq]

theorem combine_and_quad : (h.combine .and .quad x y f).1 = x &&& y := by
  show ((x.setWidth 64) &&& (y.setWidth 64)).setWidth 64 = x &&& y
  rw [BitVec.setWidth_eq, BitVec.setWidth_eq, BitVec.setWidth_eq]

theorem combine_or_quad : (h.combine .or .quad x y f).1 = x ||| y := by
  show ((x.setWidth 64) ||| (y.setWidth 64)).setWidth 64 = x ||| y
  rw [BitVec.setWidth_eq, BitVec.setWidth_eq, BitVec.setWidth_eq]

end Hardware

theorem toInt_ofWord_of_quad (ht : Width.ofType t = .quad) (x : Word) :
    (Const.ofWord t x).bits.toInt = x.toInt := by
  have hcast : ∀ n, n = 64 → (x.setWidth n).toInt = x.toInt := by
    rintro _ rfl
    rw [BitVec.setWidth_eq]
  exact hcast _ (width_of_quad ht)

theorem toNat_raw (c : Const) : c.raw.toNat = c.bits.toNat := by
  rw [raw, BitVec.toNat_setWidth_of_le c.type.width_le]

theorem Layout.assigns_small (hdst : L.Has dst) (hsrc : L.HasValue src) (hd : dst.type = .double)
    (hh : e.hardware.Rounds) :
    L.Assigns [⟨.cvtsi2sd (.ofType src.type), .double,
      [ctx.variableOperandOf dst, ctx.operandOf src]⟩]
      dst fun s => (s.eval? ctx e src).map fun c => .ofBinary64 (.ofInt c.bits.toInt) := by
  intro p hp top A s c hA hc
  obtain ⟨a, ha, rfl⟩ := map_eq_some_iff.mp hc
  have hta := eval?_type ha
  have hread := hA.read?_operand hp hsrc ha
  rw [← hta] at hread ⊢
  obtain ⟨B, hrun, hB⟩ := hA.convertInteger hp hdst hd hh hread
  exact ⟨B, hrun, hB⟩

/-- The code for an unsigned integer of 64 bits. -/
def wideCode (d s : Operand) (big done : Label) (halved lowBit : Operand) : List Instr :=
  Machine.fork [⟨.cmp, .quad, [s, .imm 0]⟩] ⟨.jcc .l, .quad, [.label big]⟩
    [⟨.cvtsi2sd .quad, .double, [d, s]⟩] ⟨.jmp, .quad, [.label done]⟩ (.label big)
    (largeCode d s halved lowBit) (.label done)

section

variable {I : Sketch → Prop} {x y : String} {D : Place} {d o : Operand}
  (hI : Sketch.Ignores I x y D) (hx : p.isAliased x = false) (hy : p.isAliased y = false)
  (hne : x ≠ y) (hd : ∀ B : Sketch, B.place? p e d = some D) (hD : e.Writable .double D)
  (hh : e.hardware.Rounds) (hquad : Width.ofType a.type = .quad) (hA : I A)
  (ho : A.read? p e o a.type = some a)

include hI hx hy hne hd hD hh hquad hA ho

theorem Procedure.Runs.large (hmsb : a.bits.msb = true) :
    ∃ B, I B ∧ p.Runs e (largeCode d o (.pseudo x) (.pseudo y)) A
      (B.set D (.ofBinary64 (.ofInt a.bits.toNat))) := by
  have hword := raw_ofWord_of_quad hquad
  have hplace {z : String} (hz : p.isAliased z = false) (B : Sketch) :
      B.place? p e (.pseudo z) = some (.cell (.pseudo z)) := by
    rw [Sketch.place?, hz, if_neg Bool.false_ne_true]
  have hcell : Location.pseudo (R := Register) y ≠ .pseudo x :=
    fun h => hne (Location.pseudo.inj h).symm
  -- The bit is kept in one temporary while the other is shifted.
  let A₁ := A.set (.cell (.pseudo y)) a
  let A₂ := A₁.set (.cell (.pseudo x)) a
  let A₃ := (A₂.set (.cell (.pseudo x)) (.ofWord a.type (a.raw >>> 1))).withFlags none
  let A₄ := (A₃.set (.cell (.pseudo y)) (.ofWord a.type (a.raw &&& 1#64))).withFlags none
  let A₅ := (A₄.set (.cell (.pseudo x))
    (.ofWord a.type (a.raw >>> 1 ||| a.raw &&& 1#64))).withFlags none
  have hrun₁ :=
    hquad ▸ move ho (hplace hy A) trivial
  have hrun₂ :=
    hquad ▸ move (Sketch.read?_pseudo hy Sketch.cells_set_self) (hplace hx A₁) trivial
  have hrun₃ : p.Runs e [⟨.shr, .quad, [.pseudo x, .imm 1]⟩] A₂ A₃ :=
    combine (b := .ofWord .uchar 1#64) (by rw [hquad]; rfl)
      (e.hardware.shift_shr_quad a.raw) (Sketch.read?_pseudo hx Sketch.cells_set_self) rfl
      (hplace hx A₂) trivial
  have hlow : A₃.cells (.pseudo y) = some a :=
    (Sketch.cells_set_of_ne hcell).trans ((Sketch.cells_set_of_ne hcell).trans
      Sketch.cells_set_self)
  have hrun₄ : p.Runs e [⟨.and, .quad, [.pseudo y, .imm 1]⟩] A₃ A₄ :=
    combine (b := .ofWord a.type 1#64)
      (by rw [Const.ofWord_type, hquad]; rfl)
      (fun f => by rw [hword, Hardware.combine_and_quad]) (Sketch.read?_pseudo hy hlow) rfl
      (hplace hy A₃) trivial
  have hhalf : A₄.cells (.pseudo x) = some (.ofWord a.type (a.raw >>> 1)) :=
    (Sketch.cells_set_of_ne hcell.symm).trans Sketch.cells_set_self
  have hrun₅ : p.Runs e [⟨.or, .quad, [.pseudo x, .pseudo y]⟩] A₄ A₅ :=
    combine (a := .ofWord a.type (a.raw >>> 1))
      (by rw [Const.ofWord_type, Const.ofWord_type, hquad]; rfl)
      (fun f => by rw [hword, hword, Hardware.combine_or_quad]) (Sketch.read?_pseudo hx hhalf)
      (Sketch.read?_pseudo hy Sketch.cells_set_self) (hplace hx A₄) trivial
  have hrun₆ := ofInteger hh (hd A₅) hD (Sketch.read?_pseudo hx Sketch.cells_set_self)
  rw [toInt_ofWord_of_quad hquad, toInt_halved, toNat_raw, Const.ofWord_type, hquad] at hrun₆
  have hrun₇ := double hh (hd (A₅.set D (.ofBinary64 (.ofInt (halved a.bits.toNat))))) hD (by
      rw [Sketch.read?, hd]
      exact Sketch.fetch?_set_self (c := .ofBinary64 _) hD)
  have hlarge : 2 ^ 63 ≤ a.bits.toNat := by
    rw [BitVec.msb_eq_decide, decide_eq_true_eq, ← toNat_raw, width_of_quad hquad] at hmsb
    rwa [← toNat_raw]
  have hlt : a.bits.toNat < 2 ^ 64 := by
    rw [← toNat_raw]
    exact a.raw.isLt
  rw [Binary64.add_ofInt_halved hlarge hlt, Sketch.withFlags_set_comm] at hrun₇
  refine ⟨_, ?_, hrun₁.cons (hrun₂.cons (hrun₃.cons (hrun₄.cons (hrun₅.cons (hrun₆.cons hrun₇)))))⟩
  exact hI.flags (hI.destination rfl (hI.flags (hI.first (hI.flags (hI.second (hI.flags
    (hI.first (hI.first (hI.second hA)))))))))

/-- An integer with its highest bit set is converted by the second part of the code, and every other
one by the first. -/
theorem Procedure.leads_wide {big done : Label} (hlabels : big ≠ done) {m : Storage}
    (hm : A.Describes e m) : ∃ m' B, I B ∧ (p.machine e (e.checks true)).Leads
        (wideCode d o big done (.pseudo x) (.pseudo y)) 0 m
        (wideCode d o big done (.pseudo x) (.pseudo y)).length m' ∧
      (B.set D (.ofBinary64 (.ofInt a.bits.toNat))).Describes e m' := by
  have hdouble : a.type ≠ .double := by
    intro h
    rw [h] at hquad
    cases hquad
  obtain ⟨m₁, hcmp, hm₁⟩ := Runs.cmpZero hdouble ho m hm
  rw [hquad] at hcmp
  have hflags : Condition.l.holds m₁.flags = a.bits.msb := by
    rw [hm₁.flags _ rfl, holds_l_ofSub, BitVec.slt_zero_eq_msb]
  have hbranch : p.execute e (e.checks true) m₁ ⟨.jcc .l, .quad, [.label big]⟩ =
      if a.bits.msb then .jump big m₁ else .next m₁ := by
    rw [← hflags]
    rfl
  have hA₁ := hI.flags (f := some (.ofSub a.bits 0#a.type.width)) hA
  cases hmsb : a.bits.msb with
  | false =>
    rw [hmsb] at hbranch
    have hrun := Runs.ofInteger hh (hd _) hD
      (A := A.withFlags (some (.ofSub a.bits 0#a.type.width))) ho
    rw [hquad, BitVec.toInt_eq_toNat_of_msb hmsb] at hrun
    obtain ⟨m', hblock, hm'⟩ := hrun m₁ hm₁
    exact ⟨m', _, hA₁, Machine.leads_fork_first hcmp hbranch hblock rfl rfl, hm'⟩
  | true =>
    rw [hmsb] at hbranch
    obtain ⟨B, hB, hrun⟩ := Runs.large hI hx hy hne hd hD hh hquad hA₁ ho hmsb
    obtain ⟨m', hblock, hm'⟩ := hrun m₁ hm₁
    refine ⟨m', B, hB, ?_, hm'⟩
    refine Machine.leads_fork_second hcmp hbranch hblock rfl rfl hlabels ?_
    intro i hi
    simp only [largeCode, List.mem_cons, List.not_mem_nil, or_false] at hi
    rcases hi with rfl | rfl | rfl | rfl | rfl | rfl | rfl <;> rintro ⟨⟩

end

theorem Layout.completes_wide {n n' : Nat} {big done : Label} (hL : L.Ordinary) (hdst : L.Has dst)
    (hsrc : L.HasValue src) (hd : dst.type = .double) (hquad : Width.ofType src.type = .quad)
    (hh : e.hardware.Rounds) (hne : n ≠ n') (hlabels : big ≠ done) :
    L.Completes (wideCode (ctx.variableOperandOf dst) (ctx.operandOf src) big done
        (.pseudo (NameSupply.temporary n)) (.pseudo (NameSupply.temporary n'))) dst fun s =>
      (s.eval? ctx e src).map fun c => .ofBinary64 (.ofInt c.bits.toNat) := by
  rintro p hp top s m c ⟨A, hm, hA⟩ hc
  obtain ⟨a, ha, rfl⟩ := map_eq_some_iff.mp hc
  have hta := eval?_type ha
  have hread := hA.read?_operand hp hsrc ha
  rw [← hta] at hread hquad
  -- The state is the one before, up to the variable that is assigned.
  have hI : Sketch.Ignores (fun B => ∃ s', B.Agrees L top s' ∧
      ∀ c, s'.assign ctx e dst c = s.assign ctx e dst c) (temporary n)
      (temporary n') (ctx.home e dst.name) := by
    constructor
    · exact fun ⟨s', hB, heq⟩ => ⟨s', hB.set_scratch (hL.isScratch n), heq⟩
    · exact fun ⟨s', hB, heq⟩ => ⟨s', hB.set_scratch (hL.isScratch n'), heq⟩
    · exact fun ⟨s', hB, heq⟩ => ⟨s', hB.withFlags _, heq⟩
    · rintro B c ht ⟨s', hB, heq⟩
      exact ⟨_, hB.set_variable hdst (ht.trans hd.symm), fun c => by
        rw [assign_assign, heq]⟩
  obtain ⟨m', B, ⟨s', hB, heq⟩, hleads, hm'⟩ := Procedure.leads_wide hI (hp.isAliased_temporary n)
    (hp.isAliased_temporary n') (fun h => hne (temporary_injective h))
    (fun _ => hp.place?_variable hdst.1) (hd ▸ hdst.writable) hh hquad ⟨s, hA, fun _ => rfl⟩ hread
    hlabels hm
  exact ⟨m', hleads, _, hm', heq _ ▸ hB.set_variable hdst hd.symm⟩

/-! ### Narrow integers -/

theorem toInt_ofWord_wordOf (hlong : Width.ofType c.type = .long) :
    (Const.ofWord .long (BitVec.ofInt 64 (wordOf c))).bits.toInt = c.value := by
  obtain ⟨t, x⟩ := c
  have hbounds : -2 ^ 31 ≤ (⟨t, x⟩ : Const).value ∧ (⟨t, x⟩ : Const).value < 2 ^ 32 := by
    cases t with
    | int =>
      have hlower := BitVec.le_toInt x
      have hupper := BitVec.toInt_lt (x := x)
      exact ⟨hlower, Int.lt_trans hupper (by decide)⟩
    | uint =>
      have hlt := BitVec.isLt x
      rw [Const.value_unsigned rfl]
      exact ⟨Int.le_trans (by decide) (Int.natCast_nonneg _), by exact_mod_cast hlt⟩
    | _ => cases hlong
  have hword : wordOf ⟨t, x⟩ = (⟨t, x⟩ : Const).value := by
    refine Const.wordOf_eq_value ?_ (.inr (by omega))
    rintro rfl
    cases hlong
  rw [hword]
  show ((BitVec.ofInt 64 (⟨t, x⟩ : Const).value).setWidth 64).toInt = _
  rw [BitVec.setWidth_eq, BitVec.toInt_ofInt_eq_self (by decide) (by omega) (by omega)]

theorem toInt_widened (hbyte : Width.ofType c.type = .byte) : c.widened.bits.toInt = c.value := by
  have hwidth := width_of_byte hbyte
  have hvalue := value_widened (c := c) (by omega)
  cases hs : c.type.isSigned with
  | true =>
    rw [← hvalue, value_signed (by rw [isSigned_widened, hs])]
  | false =>
    rw [value_unsigned (by rw [isSigned_widened, hs]), value_unsigned hs] at hvalue
    have hlt : c.bits.toNat < 2 ^ 8 :=
      Nat.lt_of_lt_of_le c.bits.isLt (Nat.pow_le_pow_right (by decide) (Nat.le_of_eq hwidth))
    rw [value_unsigned hs, ← hvalue]
    refine BitVec.toInt_eq_toNat_of_lt ?_
    have hpow : 2 ^ c.widened.type.width = 2 ^ 32 := by rw [c.width_widened]
    omega

theorem Layout.Provides.assigns_byte {first last : Nat} (hprovides : L.Provides first last code o
      fun s => (s.eval? ctx e src).map Const.widened) (hdst : L.Has dst) (hd : dst.type = .double)
    (hbyte : Width.ofType src.type = .byte) (hh : e.hardware.Rounds) :
    L.Assigns (code ++ [⟨.cvtsi2sd .long, .double, [ctx.variableOperandOf dst, o]⟩]) dst fun s =>
      (s.eval? ctx e src).map fun c => .ofBinary64 (.ofInt c.value) := by
  intro p hp top A s c hA hc
  obtain ⟨a, ha, rfl⟩ := map_eq_some_iff.mp hc
  obtain ⟨B, hrun, hB, -, hread⟩ := hprovides hp hA (congrArg (Option.map widened) ha)
  obtain ⟨C, hconvert, hC⟩ := hB.convertInteger hp hdst hd hh (hread B hB fun _ _ _ => rfl)
  rw [ofType_widened] at hconvert
  rw [toInt_widened (by rw [eval?_type ha, hbyte])] at hC
  exact ⟨C, hrun.append hconvert, hC⟩

theorem Layout.assigns_longConstant (hdst : L.Has dst) (hd : dst.type = .double)
    (hlong : Width.ofType c.type = .long) (hh : e.hardware.Rounds) :
    L.Assigns [⟨.cvtsi2sd .quad, .double, [ctx.variableOperandOf dst, .imm (wordOf c)]⟩]
      dst fun s => (s.eval? ctx e (.const c)).map fun c => .ofBinary64 (.ofInt c.value) := by
  intro p hp top A s c' hA hc
  cases hc
  obtain ⟨B, hrun, hB⟩ := hA.convertInteger hp hdst hd hh
    (c := .ofWord .long (.ofInt 64 (wordOf c))) (A.read?_imm p e _ _)
  rw [toInt_ofWord_wordOf hlong] at hB
  exact ⟨B, hrun, hB⟩

theorem Layout.assigns_longVariable {v : Variable} {n : Nat} (hL : L.Ordinary) (hdst : L.Has dst)
    (hv : L.Has v) (hd : dst.type = .double) (hlong : Width.ofType v.type = .long)
    (hh : e.hardware.Rounds) :
    L.Assigns [⟨.movzx .long, .quad, [.pseudo (NameSupply.temporary n), ctx.variableOperandOf v]⟩,
        ⟨.cvtsi2sd .quad, .double, [ctx.variableOperandOf dst, .pseudo (NameSupply.temporary n)]⟩]
      dst fun s => (s.eval? ctx e (.var v)).map fun c => .ofBinary64 (.ofInt c.bits.toNat) := by
  intro p hp top A s c hA hc
  obtain ⟨a, ha, rfl⟩ := map_eq_some_iff.mp hc
  have hta : a.type = v.type := eval?_type ha
  have hread := hA.read?_variable hp hv ha
  rw [← hta] at hread hlong
  -- The upper half of the temporary is cleared, so the word is not negative.
  have hextend := Procedure.Runs.convert (t := .ulong)
    (i := ⟨.movzx .long, .quad, [.pseudo (temporary n), ctx.variableOperandOf v]⟩)
    (by rw [hlong]; rfl) hread (hp.place?_temporary n) trivial
  have hword : low long.bits a.raw = a.raw := by
    rw [← hlong, bits_ofType, a.low_raw]
  have hlt : a.bits.toNat < 2 ^ 32 := by
    refine Nat.lt_of_lt_of_le a.bits.isLt (Nat.pow_le_pow_right (by decide) ?_)
    rw [← bits_ofType, hlong]
    exact Nat.le_refl _
  rw [hword] at hextend
  have hA₁ := hA.set_scratch (c := .ofWord .ulong a.raw) (hL.isScratch n)
  obtain ⟨B, hrun, hB⟩ := hA₁.convertInteger hp hdst hd hh (hp.read?_set_temporary n)
  rw [toInt_ofWord_of_quad rfl, BitVec.toInt_eq_toNat_of_lt (by rw [toNat_raw]; omega),
    toNat_raw] at hB
  exact ⟨B, hextend.cons hrun, hB⟩

/-! ### Lowering -/

theorem Layout.Completes.congr {f g : Const → Int}
    (h : L.Completes code dst fun s => (s.eval? ctx e src).map fun c => .ofBinary64 (.ofInt (f c)))
    (hfg : ∀ c, c.type = src.type → g c = f c) :
    L.Completes code dst fun s => (s.eval? ctx e src).map fun c => .ofBinary64 (.ofInt (g c)) := by
  intro p hp top s m c hm hc
  refine h hp hm ?_
  rw [← hc]
  refine map_congr fun a ha => ?_
  rw [hfg a (eval?_type ha)]

namespace LoweringContext

theorem gives_freshLabel {name : String} (h : st.labels.highestOf name < Label.maxSubscript) :
    Lower.Gives (ctx.freshLabel name) st fun l st' =>
      l = ctx.qualified ⟨name, st.labels.highestOf name + 1⟩ ∧
        ∀ name', name' ≠ name → st'.labels.highestOf name' = st.labels.highestOf name' := by
  have hnext : st.labels.next? name = some (⟨name, st.labels.highestOf name + 1⟩,
      ⟨st.labels.highest.insert name (st.labels.highestOf name + 1)⟩) := if_pos h
  refine ⟨_, { st with
    labels := ⟨st.labels.highest.insert name (st.labels.highestOf name + 1)⟩ }, ?_, rfl, ?_⟩
  · rw [run_freshLabel, hnext]
  · intro name' hne
    rw [LabelSupply.highestOf, getD_insert,
      if_neg fun heq => hne (Std.LawfulEqOrd.eq_of_compare heq).symm]
    rfl

theorem name_of_qualified_eq {l l' : Label} (h : ctx.qualified l = ctx.qualified l') :
    l.name = l'.name := by
  have hname := congrArg Label.name h
  simpa [qualified] using hname

/-- The labels that a conversion may need are not used up. -/
def HasLabels (st : LoweringState) : Prop :=
  st.labels.highestOf "u2d_big" < Label.maxSubscript ∧
    st.labels.highestOf "u2d_end" < Label.maxSubscript

theorem gives_operandOf (ht : src.type ≠ .double) : Lower.Gives (ctx.operand src) st fun o st' =>
    o = ctx.operandOf src ∧ st'.labels = st.labels := by
  cases src with
  | const c =>
    refine ⟨immediate c, st, ?_, rfl, rfl⟩
    rw [operand, toBinary64?_eq_none_iff.mpr ht]
    rfl
  | var v =>
    by_cases hstatic : v.name ∈ ctx.statics
    · refine ⟨_, st, ?_, rfl, rfl⟩
      simp [operand, variableOperand, operandOf, variableOperandOf, hstatic]
      rfl
    · refine ⟨_, ctx.noted st v, ?_, rfl, rfl⟩
      simp [operand, variableOperand, operandOf, variableOperandOf, hstatic]
      rfl

theorem gives_wide (hquad : Width.ofType src.type = .quad) (hst : HasLabels st) (d : Operand) :
    Lower.Gives (ctx.uintToDouble d src) st fun code st' => ∃ n n' big done, n ≠ n' ∧ big ≠ done ∧
      code = wideCode d (ctx.operandOf src) big done (.pseudo (NameSupply.temporary n))
        (.pseudo (NameSupply.temporary n')) ∧
      ∀ k ∈ [n, n'], st'.pseudos[NameSupply.temporary k]? = some ⟨.quad, false⟩ := by
  have hdouble : src.type ≠ .double := by
    intro h
    rw [h] at hquad
    cases hquad
  unfold uintToDouble
  simp only [hquad]
  refine (gives_operandOf hdouble).bind ?_
  rintro _ st₁ ⟨rfl, h₁⟩
  refine (gives_freshLabel (h₁ ▸ hst.1)).bind ?_
  rintro _ st₂ ⟨rfl, h₂⟩
  have hroom : st₂.labels.highestOf "u2d_end" < Label.maxSubscript := by
    rw [h₂ "u2d_end" (by decide), h₁]
    exact hst.2
  refine (gives_freshLabel hroom).bind ?_
  rintro _ st₃ ⟨rfl, -⟩
  have hdrawn (st : LoweringState) : Lower.Gives (.temporary .quad) st fun o st' =>
      ∃ n, o = .pseudo (temporary n) ∧ st.temporaries.last < n ∧ st'.temporaries.last = n ∧
        st'.pseudos = st.pseudos.insert (temporary n) ⟨.quad, false⟩ :=
    ⟨_, _, rfl, _, rfl, le_firstFree .., rfl, rfl⟩
  refine (hdrawn st₃).bind ?_
  rintro _ st₄ ⟨n, rfl, -, hn, hpseudos⟩
  refine (hdrawn st₄).bind ?_
  rintro _ st₅ ⟨n', rfl, hn', -, hpseudos'⟩
  have hlabels : ctx.qualified ⟨"u2d_big", st₁.labels.highestOf "u2d_big" + 1⟩ ≠
      ctx.qualified ⟨"u2d_end", st₂.labels.highestOf "u2d_end" + 1⟩ := by
    intro heq
    have hname : "u2d_big" = "u2d_end" := name_of_qualified_eq heq
    exact absurd hname (by decide)
  refine .pure ⟨n, n', _, _, by omega, hlabels, rfl, ?_⟩
  rw [hpseudos', hpseudos]
  simp only [List.forall_mem_cons, List.not_mem_nil, false_implies, implies_true, and_true]
  constructor
  · rw [getElem?_insert, if_neg, getElem?_insert_self]
    intro heq
    have := temporary_injective (Std.LawfulEqOrd.eq_of_compare heq)
    omega
  · exact getElem?_insert_self

theorem gives_uintToDouble (hL : L.Ordinary) (hdst : L.Has dst) (hsrc : L.HasValue src)
    (hd : dst.type = .double) (hs : src.type ≠ .double) (hh : e.hardware.Rounds)
    (hst : HasLabels st) :
    Lower.Gives (ctx.uintToDouble (ctx.variableOperandOf dst) src) st fun code _ =>
      L.Completes code dst fun s => (s.eval? ctx e src).map fun c =>
        .ofBinary64 (.ofInt (roundedInCode .uintToDouble src.var?.isNone c)) := by
  unfold uintToDouble
  cases hw : ofType src.type with
  | byte =>
    refine .bind (gives_widenByte hL hsrc hw) ?_
    rintro ⟨o, widen⟩ st₁ ⟨-, hprovides⟩
    refine .pure ((hprovides.assigns_byte hdst hd hw hh).completes.congr fun c hc => ?_)
    simp [roundedInCode, hc, hw]
  | long =>
    cases src with
    | const c =>
      refine .pure ((assigns_longConstant hdst hd hw hh).completes.congr fun c hc => ?_)
      simp [roundedInCode, hc, hw, Value.var?]
    | var v =>
      refine .bind (ctx.gives_temporary _) ?_
      rintro _ st₁ ⟨-, n, rfl, -⟩
      refine .bind (gives_variableOperand hL (hsrc v rfl).1) ?_
      rintro _ st₂ ⟨-, rfl⟩
      refine .pure ((assigns_longVariable hL hdst (hsrc v rfl) hd hw hh).completes.congr
        fun c hc => ?_)
      simp [roundedInCode, hc, hw, Value.var?]
  | quad =>
    obtain ⟨code, st', hrun, n, n', big, done, hne, hlabels, rfl, -⟩ :=
      gives_wide hw hst (ctx.variableOperandOf dst)
    simp only [uintToDouble, hw] at hrun
    refine ⟨_, st', hrun, (completes_wide hL hdst hsrc hd hw hh hne hlabels).congr fun c hc => ?_⟩
    simp [roundedInCode, hc, hw]
  | double =>
    exfalso
    cases ht : src.type <;> rw [ht] at hw hs <;> first | exact hs rfl | cases hw

theorem types_of_toDouble {u : ScalarType} (hvalid : conversion.isValid t u = true)
    (hconversion : conversion = .intToDouble ∨ conversion = .uintToDouble) :
    t ≠ .double ∧ u = .double := by
  have hboth : t.isInteger = true ∧ u.isDouble = true := by
    rcases hconversion with rfl | rfl <;> simpa [Conversion.isValid] using hvalid
  refine ⟨fun h => ?_, by simpa [ScalarType.isDouble] using hboth.2⟩
  rw [h] at hboth
  cases hboth.1

theorem gives_toDouble (hL : L.Ordinary) (hdst : L.Has dst) (hsrc : L.HasValue src)
    (hvalid : conversion.isValid src.type dst.type = true)
    (hconversion : conversion = .intToDouble ∨ conversion = .uintToDouble) (hh : e.hardware.Rounds)
    (hst : HasLabels st) :
    Lower.Gives (ctx.convert dst conversion src) st fun code _ =>
      L.Completes code dst fun s => (s.eval? ctx e src).map fun c =>
        .ofBinary64 (.ofInt (roundedInCode conversion src.var?.isNone c)) := by
  obtain ⟨hs, hd⟩ := types_of_toDouble hvalid hconversion
  refine .bind (gives_variableOperand hL hdst.1) ?_
  rintro _ st₁ ⟨h₁, rfl⟩
  rcases hconversion with rfl | rfl
  · by_cases hbyte : ofType src.type = .byte
    · simp only [if_pos hbyte]
      refine .bind (gives_widenByte hL hsrc hbyte) ?_
      rintro ⟨o, widen⟩ st₂ ⟨-, hprovides⟩
      refine .pure ((hprovides.assigns_byte hdst hd hbyte hh).completes.congr fun c hc => ?_)
      simp [roundedInCode, hc, hbyte]
    · simp only [if_neg hbyte]
      refine .bind (gives_operand hL hsrc hs) ?_
      rintro _ st₂ ⟨-, rfl⟩
      refine .pure ((assigns_small hdst hsrc hd hh).completes.congr fun c hc => ?_)
      simp [roundedInCode, hc, hbyte]
  · exact gives_uintToDouble hL hdst hsrc hd hs hh (by rwa [HasLabels, h₁.labels])

end LoweringContext

/-! ### Agreement -/

theorem toInt_eq_toNat_iff {n : Nat} (x : BitVec n) : x.toInt = x.toNat ↔ x.msb = false := by
  rw [BitVec.toInt_eq_msb_cond]
  cases x.msb with
  | false => simp
  | true =>
    simp only [if_true, Bool.true_eq_false, iff_false]
    omega

theorem roundedInCode_eq_value_iff
    (hconversion : conversion = .intToDouble ∨ conversion = .uintToDouble) :
    (∀ isConstant, roundedInCode conversion isConstant c = c.value) ↔
      c.type.size = 1 ∨ (c.type.isSigned = true ↔ conversion = .intToDouble) ∨
        c.bits.msb = false := by
  rw [← toInt_eq_toNat_iff]
  have hbyte : ofType c.type = .byte ↔ c.type.size = 1 := by
    cases c.type <;> simp [ofType, ScalarType.size]
  by_cases hb : ofType c.type = .byte
  · exact iff_of_true (fun isConstant => if_pos hb) (.inl (hbyte.mp hb))
  · have hsize : c.type.size ≠ 1 := fun h => hb (hbyte.mpr h)
    cases hs : c.type.isSigned with
    | true =>
      rcases hconversion with rfl | rfl
      · simp [roundedInCode, hb, value, hs]
      · -- The code for a variable takes the bits as unsigned, whatever their type.
        have hright : (c.type.size = 1 ∨ (true = true ↔ Conversion.uintToDouble = .intToDouble) ∨
            c.bits.toInt = c.bits.toNat) ↔ c.bits.toInt = c.bits.toNat := by
          simp [hsize]
        rw [hright]
        constructor
        · intro h
          have hvariable := h false
          simpa [roundedInCode, hb, value_signed hs] using hvariable.symm
        · intro h isConstant
          simp [roundedInCode, hb, value_signed hs, ← h]
    | false =>
      rcases hconversion with rfl | rfl
      · simp [roundedInCode, hb, value, hs, hsize]
      · simp [roundedInCode, hb, value, hs]

/-- The code of an instruction leaves a double in a variable, if it is started where a value is
known. -/
def Layout.Leaves (L : Layout ctx e) (st : LoweringState) (i : ThreeAddress.Instr) (dst : Variable)
    (x : Value) (c : Const) (d : Binary64) : Prop :=
  ∃ code st', (ctx.instr i).run st = .ok (code, st') ∧
    ∀ p : Procedure, p.Hosts L → ∀ top s m, L.Matches top s m → s.eval? ctx e x = some c →
      ∃ m', (p.machine e (e.checks true)).Leads code 0 m code.length m' ∧
        p.read? e (e.checks true) m' (ctx.variableOperandOf dst) .double = some d.bits

theorem Layout.leaves_toDouble (st : LoweringState) (conversion : Conversion) (src : Value)
    (c : Const) (hL : L.Ordinary) (hdst : L.Has dst) (hsrc : L.HasValue src)
    (hvalid : conversion.isValid src.type dst.type = true)
    (hconversion : conversion = .intToDouble ∨ conversion = .uintToDouble)
    (hh : e.hardware.Rounds) (hst : LoweringContext.HasLabels st) :
    L.Leaves st (.convert dst conversion src) dst src c
      (.ofInt (roundedInCode conversion src.var?.isNone c)) := by
  have hd := (types_of_toDouble hvalid hconversion).2
  obtain ⟨code, st', hrun, hcompletes⟩ : Lower.Gives
    (ctx.instr (.convert dst conversion src)) st _ :=
    gives_toDouble hL hdst hsrc hvalid hconversion hh hst
  refine ⟨code, st', hrun, fun p hp top s m hm hc => ?_⟩
  obtain ⟨m', hleads, A, hm', hA⟩ := hcompletes hp hm (congrArg (Option.map _) hc)
  refine ⟨m', hleads, ?_⟩
  have heval : (s.assign ctx e dst (.ofBinary64
      (.ofInt (roundedInCode conversion src.var?.isNone c)))).eval? ctx e (.var dst) = _ :=
    eval?_assign_self
  have hread := hm'.read? (hA.read?_variable hp hdst heval)
  rw [hd] at hread
  exact hread.trans (congrArg some (BitVec.setWidth_eq _))

/-- A conversion of an integer constant to a double has one meaning exactly if the constant is a
byte, or the conversion fits its signedness, or it has no sign bit.  Folding rounds its value.  What
the code rounds, for the constant or for a variable that has its value, may be another integer. -/
theorem LoweringContext.conversion_agrees_iff (st : LoweringState) (conversion : Conversion)
    (dst v : Variable) (c : Const) (hL : L.Ordinary) (hdst : L.Has dst) (hv : L.Has v)
    (hc : c.type = v.type) (hvalid : conversion.isValid v.type dst.type = true)
    (hconversion : conversion = .intToDouble ∨ conversion = .uintToDouble)
    (hh : e.hardware.Rounds) (hst : HasLabels st) :
    (ThreeAddress.Instr.convert dst conversion (.const c)).fold =
        some (.copy dst (.const (.ofBinary64 (.ofInt c.value)))) ∧
      L.Leaves st (.convert dst conversion (.const c)) dst (.const c) c
        (.ofInt (roundedInCode conversion true c)) ∧
      L.Leaves st (.convert dst conversion (.var v)) dst (.var v) c
        (.ofInt (roundedInCode conversion false c)) ∧
      ((roundedInCode conversion true c = c.value ∧ roundedInCode conversion false c = c.value) ↔
        c.type.size = 1 ∨ (c.type.isSigned = true ↔ conversion = .intToDouble) ∨
          c.bits.msb = false) := by
  have hdouble : c.type ≠ .double := hc ▸ (types_of_toDouble hvalid hconversion).1
  refine ⟨?_, ?_, ?_, ?_⟩
  · rcases hconversion with rfl | rfl <;>
      simp only [ThreeAddress.Instr.fold, Const.convert?, Const.toInt?_eq hdouble, map_some] <;>
      rfl
  · exact leaves_toDouble st conversion (.const c) c hL hdst (by rintro _ ⟨⟩)
      (by rw [← hc] at hvalid; exact hvalid) hconversion hh hst
  · exact leaves_toDouble st conversion (.var v) c hL hdst (fun u hu => by cases hu; exact hv)
      hvalid hconversion hh hst
  · rw [← roundedInCode_eq_value_iff hconversion, Bool.forall_bool, and_comm]

end

/-! ### The greatest integer, and a negative one taken as unsigned -/

/-- A setting whose hardware rounds integers and sums. -/
def roundingSetting : Setting where
  __ := quietSetting
  hardware :=
    { quietSetting.hardware with
      double := fun _ x y => (Binary64.add (.ofBits x) (.ofBits y)).bits
      ofInteger := fun w x => (Binary64.ofInt (w.ofWord x).toInt).bits }

theorem rounds_roundingSetting : roundingSetting.hardware.Rounds := ⟨fun _ _ => rfl, fun _ _ => rfl⟩

/-- The layout of an integer and a double that are not in memory. -/
def pairLayout (t : ScalarType) : Layout plainContext roundingSetting where
  used := {"x", "d"}
  types := fun x => if x = "d" then .double else t
  shared := by
    intro x _ a ha
    cases ha
  apart := by
    intro x _ y _ _ a b ha
    cases ha

theorem ordinary_pairLayout (t : ScalarType) : (pairLayout t).Ordinary := by
  refine ordinary_of_not_isPrefix fun x hx => ?_
  rcases hx with rfl | rfl <;> decide

/-- The state in which the integer has a value. -/
def pairState (c : Const) : SourceState :=
  ⟨fun x => if x = "x" then some c else none, fun _ => 0#8, []⟩

theorem matches_pair (c : Const) :
    (pairLayout c.type).Matches none (pairState c) (uniformStorage c) := by
  refine ⟨⟨fun l => if l = .pseudo "x" then some c else none, fun _ => 0#8, none, []⟩,
    ⟨?_, ?_, fun _ _ => rfl, (nofun), rfl⟩, ?_, ?_, rfl, rfl, rfl⟩
  · intro l c' _
    exact c'.type.width_le
  · intro l c' hc'
    dsimp only at hc'
    split at hc' <;> cases hc'
    exact c.low_raw
  · simp [pairState]
  · intro x _ _ c' hc'
    simp only [pairState] at hc'
    split at hc' <;> cases hc'
    rename_i hx
    rw [hx]
    rfl

def plainProcedure : Procedure := ⟨"f", true, [], ∅, [], ∅⟩

theorem hosts_plainProcedure (t : ScalarType) : plainProcedure.Hosts (pairLayout t) where
  isAliased_variable := by
    simp [Procedure.isAliased, plainProcedure, plainContext]
  isAliased_temporary := by
    simp [Procedure.isAliased, plainProcedure]

theorem hasLabels_plainState : LoweringContext.HasLabels plainState := by
  simp [HasLabels, plainState, LabelSupply.empty, LabelSupply.highestOf, Label.maxSubscript]

/-- What the code of an instruction leaves in the double, if it is started with a value of the
integer. -/
theorem Layout.Leaves.exists_read {i : ThreeAddress.Instr} {d : Binary64} (hc : c.type = t)
    (h : (pairLayout t).Leaves plainState i ⟨"d", .double⟩ (.var ⟨"x", t⟩) c d) :
    ∃ code st', (plainContext.instr i).run plainState = .ok (code, st') ∧
      ∃ m', (plainProcedure.machine roundingSetting (roundingSetting.checks true)).Leads code 0
          (uniformStorage c) code.length m' ∧
        plainProcedure.read? roundingSetting (roundingSetting.checks true) m'
          (.pseudo "d") .double =
          some d.bits := by
  subst hc
  obtain ⟨code, st', hrun, hcode⟩ := h
  refine ⟨code, st', hrun, hcode plainProcedure (hosts_plainProcedure _) none (pairState c) _
    (matches_pair c) ?_⟩
  exact congrArg some c.as_self

/-- The greatest integer of 64 bits is folded to the double nearest to it, and its code, which
halves it, leaves this double in the variable. -/
theorem greatest_conversion_agrees :
    (ThreeAddress.Instr.convert ⟨"d", .double⟩ .uintToDouble (.const (.ofInt .ulong (-1)))).fold =
        some (.copy ⟨"d", .double⟩ (.const (.ofBinary64 (.ofInt (2 ^ 64 - 1))))) ∧
      ∃ code st', (plainContext.instr (.convert ⟨"d", .double⟩ .uintToDouble
          (.var ⟨"x", .ulong⟩))).run plainState = .ok (code, st') ∧
        ∃ m', (plainProcedure.machine roundingSetting (roundingSetting.checks true)).Leads code 0
            (uniformStorage (.ofInt .ulong (-1))) code.length m' ∧
          plainProcedure.read? roundingSetting (roundingSetting.checks true) m' (.pseudo "d")
            .double = some (Binary64.ofInt (2 ^ 64 - 1)).bits := by
  have hvalue : (Const.ofInt .ulong (-1)).value = 2 ^ 64 - 1 := by decide
  obtain ⟨hfold, -, hvariable, hagree⟩ := conversion_agrees_iff
    plainState .uintToDouble ⟨"d", .double⟩ ⟨"x", .ulong⟩ (.ofInt .ulong (-1))
    (ordinary_pairLayout .ulong) ⟨Or.inr rfl, rfl⟩ ⟨Or.inl rfl, rfl⟩ rfl rfl
      (Or.inr rfl) rounds_roundingSetting
    hasLabels_plainState
  have hrounded := (hagree.mpr (Or.inr (Or.inl (by decide)))).2
  exact ⟨hfold, hvariable.exists_read rfl⟩

/-- The integer -1 is folded to -1, but as a variable it is converted to 4294967295. -/
theorem minusOne_conversion_disagrees :
    (ThreeAddress.Instr.convert ⟨"d", .double⟩ .uintToDouble (.const (.ofInt .int (-1)))).fold =
        some (.copy ⟨"d", .double⟩ (.const (.ofBinary64 (.ofInt (-1))))) ∧
      (∃ code st', (plainContext.instr (.convert ⟨"d", .double⟩ .uintToDouble
          (.var ⟨"x", .int⟩))).run plainState = .ok (code, st') ∧
        ∃ m', (plainProcedure.machine roundingSetting (roundingSetting.checks true)).Leads code 0
            (uniformStorage (.ofInt .int (-1))) code.length m' ∧
          plainProcedure.read? roundingSetting (roundingSetting.checks true) m' (.pseudo "d")
            .double = some (Binary64.ofInt 4294967295).bits) ∧
      Binary64.ofInt (-1) ≠ Binary64.ofInt 4294967295 := by
  have hrounded : roundedInCode .uintToDouble false (.ofInt .int (-1)) = 4294967295 := by decide
  have hdst : (pairLayout .int).Has ⟨"d", .double⟩ := ⟨Or.inr rfl, rfl⟩
  have hvariable := leaves_toDouble plainState .uintToDouble (.var ⟨"x", .int⟩)
    (.ofInt .int (-1)) (ordinary_pairLayout .int) hdst
    (fun v hv => by cases hv; exact ⟨Or.inl rfl, rfl⟩) rfl (Or.inr rfl) rounds_roundingSetting
    hasLabels_plainState
  exact ⟨by decide, hvariable.exists_read rfl, by decide⟩

end ThreeAddress.Amd64
