import ThreeAddress.Proofs.Amd64.Arithmetic
import ThreeAddress.Proofs.Amd64.LoweringSteps
import ThreeAddress.Proofs.Optimise.Folding

/-!
# Lowered operators

The code of every operator on integers and pointers assigns what the operator yields.  It does so
whether the operands are constants or variables, wherever the variables are, and also if the
destination is one of the operands.
-/

namespace ThreeAddress.Amd64

open ThreeAddress.Const SourceState Sketch Option Procedure.Runs ScalarType LoweringContext

variable {o : Operand} {t : ScalarType} {value value' : SourceState → Option Const}
  {result : Register}

/-- Code that assigns to a variable what can be computed from the state before. -/
def Layout.Assigns {ctx : LoweringContext} {e : Setting} (L : Layout ctx e) (code : List Instr)
    (v : Variable) (value : SourceState → Option Const) : Prop :=
  ∀ ⦃p : Procedure⦄, p.Hosts L → ∀ ⦃top A s c⦄, A.Agrees L top s → value s = some c →
    ∃ B, p.Runs e code A B ∧ B.Agrees L top (s.assign ctx e v c)

section

variable {ctx : LoweringContext} {e : Setting} {L : Layout ctx e} {p : Procedure} {A B : Sketch}
  {s : SourceState} {top : Option Const} {v dst : Variable} {c a b : Const} {o : Operand}
  {st : LoweringState} {lhs rhs x : Value} {op : BinaryOp}

/-! ### Temporaries -/

theorem Procedure.Hosts.read?_temporary {n : Nat} (hp : p.Hosts L)
    (h : A.cells (.pseudo (NameSupply.temporary n)) = some c) :
    A.read? p e (.pseudo (NameSupply.temporary n)) c.type = some c := by
  rw [Sketch.read?, hp.place?_temporary n, bind_some,
    fetch?_cell h (Nat.le_refl _), ofWord_raw]

theorem Procedure.Hosts.read?_set_temporary (hp : p.Hosts L) (n : Nat) :
    (A.set (.cell (.pseudo (NameSupply.temporary n))) c).read? p e
      (.pseudo (NameSupply.temporary n)) c.type = some c :=
  hp.read?_temporary cells_set_self

theorem Layout.Ordinary.pseudo_temporary_ne (hL : L.Ordinary) (n : Nat) (hv : v.name ∈ L.used) :
    Operand.pseudo (NameSupply.temporary n) ≠ ctx.variableOperandOf v := by
  unfold variableOperandOf
  split
  · simp
  · rename_i hstatic
    intro heq
    rw [← Operand.pseudo.inj heq] at hv hstatic
    exact hstatic (hL n hv)

/-! ### Writing to variables -/

namespace Sketch.Agrees

theorem read?_eval (hA : A.Agrees L top s) (hp : p.Hosts L) (hx : L.HasValue x)
    (hc : s.eval? ctx e x = some c) : A.read? p e (ctx.operandOf x) c.type = some c := by
  rw [eval?_type hc]
  exact hA.read?_operand hp hx hc

theorem move (hA : A.Agrees L top s) (hp : p.Hosts L) (hv : L.Has v)
    (ho : A.read? p e o v.type = some c) :
    p.Runs e [⟨.mov, .ofType v.type, [ctx.variableOperandOf v, o]⟩] A
        (A.set (ctx.home e v.name) c) ∧
      (A.set (ctx.home e v.name) c).Agrees L top (s.assign ctx e v c) :=
  ⟨.move ho (hp.place?_variable hv.1) hv.writable, hA.set_variable hv (read?_type ho)⟩

theorem move_change {i : Instr} (hA : A.Agrees L top s) (hp : p.Hosts L) (hv : L.Has v)
    (ho : A.read? p e o v.type = some a)
    (hi : ∀ B : Sketch, B = A.set (ctx.home e v.name) a → B.Agrees L top (s.assign ctx e v a) →
      B.read? p e (ctx.variableOperandOf v) a.type = some a →
      B.place? p e (ctx.variableOperandOf v) = some (ctx.home e v.name) →
      e.Writable a.type (ctx.home e v.name) →
      p.Runs e [i] B ((B.set (ctx.home e v.name) c).withFlags none)) (hc : c.type = a.type) :
    ∃ B, p.Runs e [⟨.mov, .ofType a.type, [ctx.variableOperandOf v, o]⟩, i] A B ∧
      B.Agrees L top (s.assign ctx e v c) := by
  have htype := read?_type ho
  obtain ⟨hmove, hA₁⟩ := hA.move hp hv ho
  have hwritable := hv.writable
  rw [← htype] at hmove hwritable
  have hself : (A.set (ctx.home e v.name) a).read? p e
    (ctx.variableOperandOf v) a.type = some a := by
    rw [read?, hp.place?_variable hv.1]
    exact fetch?_set_self hwritable
  have hA₂ := (hA₁.set_variable hv (hc.trans htype)).withFlags none
  rw [assign_assign] at hA₂
  exact ⟨_, hmove.cons (hi _ rfl hA₁ hself (hp.place?_variable hv.1) hwritable), hA₂⟩

theorem setByFlags {f : Flags} (cond : Condition) (hA : A.Agrees L top s) (hp : p.Hosts L)
    (hv : L.Has v) (htype : v.type = .int) (hf : A.flags = some f) :
    ∃ B, p.Runs e (LoweringContext.setByFlags (ctx.variableOperandOf v) cond) A B ∧
      B.Agrees L top (s.assign ctx e v (.ofBool (cond.holds f))) := by
  have hread : A.read? p e (.imm 0) v.type = some (.zero .int) := by
    rw [htype]
    rfl
  obtain ⟨hmove, hA₁⟩ := hA.move hp hv hread
  have hwritable : e.Writable .int (ctx.home e v.name) := htype ▸ hv.writable
  have hset :=
    setByte cond (A := A.set (ctx.home e v.name) (.zero .int))
      ((A.flags_set _ _).trans hf) (hp.place?_variable hv.1) hwritable
      (fetch?_set_self hwritable)
  rw [htype] at hmove
  have hA₂ := hA₁.set_variable (c := .ofBool (cond.holds f)) hv htype.symm
  rw [assign_assign] at hA₂
  exact ⟨_, hmove.cons hset, hA₂⟩

end Sketch.Agrees

/-! ### Comparisons -/

theorem Hardware.comparison_eq (h : Hardware) (ha : a.type ≠ .double) (hab : b.type = a.type) :
    h.comparison (.ofType a.type) a.raw b.raw = .ofSub a.bits (b.bits.setWidth a.type.width) := by
  obtain ⟨t, x⟩ := a
  obtain ⟨u, y⟩ := b
  obtain rfl : u = t := hab
  have hw : Width.ofType u ≠ .double := by
    cases u <;> first | exact absurd rfl ha | decide
  rw [comparison, if_neg hw, BitVec.setWidth_eq]
  exact Width.apply_ofWord₂ (Width.bits_ofType u) (fun _ x y => Flags.ofSub x y) x y

theorem Procedure.Runs.cmp {d : Operand} (ha : a.type ≠ .double) (hab : b.type = a.type)
    (hd : A.read? p e d a.type = some a) (ho : A.read? p e o b.type = some b) :
    p.Runs e [⟨.cmp, .ofType a.type, [d, o]⟩] A
      (A.withFlags (some (.ofSub a.bits (b.bits.setWidth a.type.width)))) := by
  rw [← e.hardware.comparison_eq ha hab]
  exact compare rfl hab hd ho

theorem Procedure.Runs.cmpZero (ha : a.type ≠ .double) (ho : A.read? p e o a.type = some a) :
    p.Runs e [⟨.cmp, .ofType a.type, [o, .imm 0]⟩] A
      (A.withFlags (some (.ofSub a.bits 0#a.type.width))) := by
  have hzero : A.read? p e (.imm 0) (zero a.type).type = some (.zero a.type) := by
    simp [Sketch.read?, Sketch.place?, fetch?, Const.ofWord, zero]
  have hrun := cmp (b := .zero a.type) ha rfl ho hzero
  rwa [show (zero a.type).bits.setWidth a.type.width = 0#a.type.width from
    BitVec.setWidth_eq _] at hrun

theorem holds_e_ofSub_zero (ha : a.type ≠ .double) :
    Condition.e.holds (.ofSub a.bits 0#a.type.width) = a.isZero := by
  rw [holds_e_ofSub, isZero, toBinary64?_eq_none_iff.mpr ha]
  rfl

theorem ScalarType.isDouble_eq_false (h : t ≠ .double) : t.isDouble = false := by
  simpa [isDouble] using h

theorem ScalarType.not_isDouble (h : t ≠ .double) : ¬t.isDouble = true := by
  simp [isDouble_eq_false h]

theorem BinaryOp.eval_eq_evalInteger (ha : a.type ≠ .double) (hb : b.type ≠ .double) :
    op.eval a b = op.evalInteger a b := by
  unfold BinaryOp.eval
  rw [toBinary64?_eq_none_iff.mpr ha, toBinary64?_eq_none_iff.mpr hb]

/-- What an operation on the values of two operands yields. -/
def resultOf (ctx : LoweringContext) (e : Setting) (lhs rhs : Value)
    (f : Const → Const → Option Const) (s : SourceState) : Option Const :=
  (s.eval? ctx e lhs).bind fun a => (s.eval? ctx e rhs).bind fun b => f a b

theorem resultOf_eq_some {f : Const → Const → Option Const}
    (h : resultOf ctx e lhs rhs f s = some c) :
    ∃ a b, s.eval? ctx e lhs = some a ∧ s.eval? ctx e rhs = some b ∧ a.type = lhs.type ∧
      b.type = rhs.type ∧ f a b = some c := by
  obtain ⟨a, ha, h⟩ := bind_eq_some_iff.mp h
  obtain ⟨b, hb, h⟩ := bind_eq_some_iff.mp h
  exact ⟨a, b, ha, hb, eval?_type ha, eval?_type hb, h⟩

theorem LoweringContext.gives_comparison (hL : L.Ordinary) (hdst : L.Has dst)
    (hlhs : L.HasValue lhs) (hrhs : L.HasValue rhs) (hop : op.isComparison = true)
    (htype : dst.type = .int) (hl : lhs.type ≠ .double) (hr : rhs.type = lhs.type) :
    ctx.Gives (dst :: (lhs.var?.toList ++ rhs.var?.toList)) (ctx.comparison dst op lhs rhs) st
      fun code _ => L.Assigns code dst (resultOf ctx e lhs rhs op.eval) := by
  refine .subset (.withVariable hL hdst fun _ => .withOperand hL hlhs hl fun _ =>
    .withOperand hL hrhs (hr ▸ hl) fun _ => .ifNeg (ScalarType.not_isDouble hl) (.pure ?_))
      (by simp)
  intro p hp top A s c hA hc
  obtain ⟨a, b, ha, hb, hta, htb, hc⟩ := resultOf_eq_some hc
  have hab : b.type = a.type := by rw [hta, htb, hr]
  rw [← hta] at hl ⊢
  obtain ⟨B, hset, hB⟩ := (hA.withFlags (some _)).setByFlags
    (comparisonCondition a.type.isSigned op) hp hdst htype rfl
  have hcmp := cmp hl hab (hA.read?_eval hp hlhs ha) (hA.read?_eval hp hrhs hb)
  refine ⟨B, hcmp.cons hset, ?_⟩
  rw [comparisonCondition_holds _ _ hop] at hB
  rw [BinaryOp.eval_eq_evalInteger hl (hab ▸ hl), BinaryOp.evalInteger,
    if_neg (by cases op <;> simp_all [BinaryOp.isShift, BinaryOp.isComparison]), if_pos hop] at hc
  cases hc
  exact hB

/-! ### Unary operators -/

theorem Layout.Assigns.mono {code : List Instr} (h : L.Assigns code dst value)
    (himp : ∀ s c, value' s = some c → value s = some c) : L.Assigns code dst value' :=
  fun _ hp _ _ s c hA hc => h hp hA (himp s c hc)

theorem Layout.Assigns.congr {code : List Instr} {f g : Const → Const → Option Const}
    (h : L.Assigns code dst (resultOf ctx e lhs rhs f))
    (heq : ∀ a b, a.type = lhs.type → b.type = rhs.type → g a b = f a b) :
    L.Assigns code dst (resultOf ctx e lhs rhs g) := by
  refine h.mono fun s c hc => ?_
  obtain ⟨a, b, ha, hb, hta, htb, hc⟩ := resultOf_eq_some hc
  rw [resultOf, ha, hb, ← hc, heq a b hta htb]
  rfl

theorem Layout.assigns_modify {i : Instr} {g : Word → Flags → Word × Flags} {src : Value}
    (change : (n : Nat) → BitVec n → BitVec n) (hdst : L.Has dst) (hsrc : L.HasValue src)
    (htype : dst.type = src.type)
    (hi : i.computation? e.hardware =
      some (.modify (ctx.variableOperandOf dst) (.ofType src.type) g))
    (hg : ∀ x f, (g x f).1 = (change _ ((Width.ofType src.type).ofWord x)).setWidth 64) :
    L.Assigns [⟨.mov, .ofType src.type, [ctx.variableOperandOf dst, ctx.operandOf src]⟩, i] dst
      fun s => (s.eval? ctx e src).map fun a => ⟨a.type, change _ a.bits⟩ := by
  intro p hp top A s c hA hc
  obtain ⟨a, ha, rfl⟩ := map_eq_some_iff.mp hc
  rw [← eval?_type ha] at hi hg htype ⊢
  refine hA.move_change hp hdst (htype ▸ hA.read?_eval hp hsrc ha)
    (fun B _ _ hself hplace hwritable => ?_) rfl
  have hbits := Width.apply_ofWord (Width.bits_ofType a.type) (fun n x => (change n x).setWidth 64)
    a.bits
  have hrun := modify hi (fun f => (hg a.raw f).trans hbits) hself hplace hwritable
  rwa [ofWord_setWidth] at hrun

theorem LoweringContext.gives_unary {op : UnaryOp} {src : Value} (hL : L.Ordinary)
    (hdst : L.Has dst) (hsrc : L.HasValue src) (ht : src.type ≠ .double)
    (htype : dst.type = if op = .not then .int else src.type) :
    ctx.Gives (dst :: src.var?.toList) (ctx.unary dst op src) st
      fun code _ => L.Assigns code dst fun s => (s.eval? ctx e src).bind op.eval := by
  refine .subset (.withVariable hL hdst fun _ => .withOperand (w := []) hL hsrc ht fun _ => ?_)
    (by simp)
  cases op with
  | not =>
    refine .ifNeg (ScalarType.not_isDouble ht) (.pure ?_)
    intro p hp top A s c hA hc
    obtain ⟨a, ha, hc⟩ := bind_eq_some_iff.mp hc
    have hta := eval?_type ha
    rw [← hta] at ht ⊢
    have hcmp := cmpZero ht (hA.read?_eval hp hsrc ha)
    obtain ⟨B, hset, hB⟩ := (hA.withFlags (some _)).setByFlags .e hp hdst htype rfl
    rw [holds_e_ofSub_zero ht] at hB
    cases hc
    exact ⟨B, hcmp.cons hset, hB⟩
  | negate =>
    refine .ifNeg (ScalarType.not_isDouble ht) (.pure ((L.assigns_modify (fun _ x => -x) hdst hsrc
      htype rfl fun _ _ => rfl).mono fun s c hc => ?_))
    obtain ⟨a, ha, hc⟩ := bind_eq_some_iff.mp hc
    rw [← eval?_type ha] at ht
    rw [UnaryOp.eval, toBinary64?_eq_none_iff.mpr ht] at hc
    rw [ha, ← hc]
    rfl
  | complement =>
    refine .pure ((L.assigns_modify (fun _ x => ~~~x) hdst hsrc htype rfl fun _ _ => rfl).mono
      fun s c hc => ?_)
    obtain ⟨a, ha, hc⟩ := bind_eq_some_iff.mp hc
    rw [← eval?_type ha] at ht
    rw [UnaryOp.eval, if_neg (ScalarType.not_isDouble ht)] at hc
    rw [ha, ← hc]
    rfl

/-! ### Two operands -/

/-- An instruction that combines its first operand with the second. -/
def Opcode.Combines (op : Opcode) (h : Hardware) (w : Width) : Prop :=
  ∀ d o : Operand, d ≠ o →
    (⟨op, w, [d, o]⟩ : Instr).computation? h = some (.combine d w o w (h.combine op w))

theorem Procedure.Runs.arithmetic (op : Opcode) {d : Operand} {D : Place}
    (hi : (⟨op, .ofType a.type, [d, o]⟩ : Instr).computation? e.hardware =
      some (.combine d (.ofType a.type) o (.ofType a.type)
        (e.hardware.combine op (.ofType a.type))))
    (ha : a.type ≠ .double) (hab : b.type = a.type) (hd : A.read? p e d a.type = some a)
    (ho : A.read? p e o b.type = some b) (hplace : A.place? p e d = some D)
    (hD : e.Writable a.type D) :
    p.Runs e [⟨op, .ofType a.type, [d, o]⟩] A ((A.set D (op.onConsts a b)).withFlags none) := by
  have hw : Width.ofType a.type ≠ .double := by
    cases h : a.type <;> first | exact absurd h ha | decide
  have hrun := combine (by rw [hab]; exact hi)
    (fun f => e.hardware.combine_fst op hw _ _ f) hd ho hplace hD
  rwa [ofWord_apply₂ hab op.onBits] at hrun

section

variable {op : Opcode} {lhs rhs : Value} (hdst : L.Has dst) (hlhs : L.HasValue lhs)
  (hrhs : L.HasValue rhs) (hl : lhs.type ≠ .double) (hd : dst.type = lhs.type)
  (hr : rhs.type = lhs.type) (hop : op.Combines e.hardware (.ofType lhs.type))

include hdst hlhs hrhs hl hd hr hop

theorem Layout.assigns_inPlace (hne : ctx.operandOf rhs ≠ ctx.variableOperandOf dst) :
    L.Assigns
      [⟨.mov, .ofType lhs.type, [ctx.variableOperandOf dst, ctx.operandOf lhs]⟩,
        ⟨op, .ofType lhs.type, [ctx.variableOperandOf dst, ctx.operandOf rhs]⟩]
      dst (resultOf ctx e lhs rhs fun a b => some (op.onConsts a b)) := by
  intro p hp top A s c hA hc
  obtain ⟨a, b, ha, hb, hta, htb, ⟨⟩⟩ := resultOf_eq_some hc
  -- The right operand is another variable, or a constant.
  have hb₁ : (s.assign ctx e dst a).eval? ctx e rhs = some b := by
    cases rhs with
    | const c => exact hb
    | var u =>
      rw [eval?_assign_of_ne hdst (hrhs u rfl), hb]
      intro hname
      exact hne (by simp [operandOf, variableOperandOf, hname])
  rw [← hta] at hl hd hr hop ⊢
  refine hA.move_change hp hdst (hd ▸ hA.read?_eval hp hlhs ha)
    (fun B _ hB hself hplace hwritable => ?_) rfl
  exact .arithmetic op (hop _ _ hne.symm) hl (htb.trans hr) hself
    (hB.read?_eval hp hrhs hb₁) hplace hwritable

variable (hL : L.Ordinary)

include hL

theorem Layout.assigns_throughTemporary (n : Nat)
    (hne : Operand.pseudo (NameSupply.temporary n) ≠ ctx.operandOf rhs) :
    L.Assigns
      [⟨.mov, .ofType lhs.type, [.pseudo (NameSupply.temporary n), ctx.operandOf lhs]⟩,
        ⟨op, .ofType lhs.type, [.pseudo (NameSupply.temporary n), ctx.operandOf rhs]⟩,
        ⟨.mov, .ofType lhs.type, [ctx.variableOperandOf dst, .pseudo (NameSupply.temporary n)]⟩]
      dst (resultOf ctx e lhs rhs fun a b => some (op.onConsts a b)) := by
  intro p hp top A s c hA hc
  obtain ⟨a, b, ha, hb, hta, htb, ⟨⟩⟩ := resultOf_eq_some hc
  rw [← hta] at hl hop hr hd ⊢
  have hscratch := hL.isScratch n
  have hmove := move (hA.read?_eval hp hlhs ha) (hp.place?_temporary n) trivial
  have hA₁ := hA.set_scratch (c := a) hscratch
  have hcombine := arithmetic op (hop _ _ hne) hl (htb.trans hr)
    (hp.read?_set_temporary n) (hA₁.read?_eval hp hrhs hb) (hp.place?_temporary n) trivial
  have hA₂ := (hA₁.set_scratch (c := op.onConsts a b) hscratch).withFlags none
  have hresult := hp.read?_set_temporary n (A := A.set (.cell (.pseudo (NameSupply.temporary n))) a)
    (c := op.onConsts a b)
  rw [← read?_withFlags _ p e none] at hresult
  obtain ⟨hfinal, hA₃⟩ := hA₂.move hp hdst (hd ▸ hresult)
  exact ⟨_, hmove.cons (hcombine.cons (hd ▸ hfinal)), hA₃⟩

theorem LoweringContext.gives_twoOperand :
    ctx.Gives (dst :: (lhs.var?.toList ++ rhs.var?.toList)) (ctx.twoOperand dst op lhs rhs) st
      fun code _ => L.Assigns code dst
        (resultOf ctx e lhs rhs fun a b => some (op.onConsts a b)) := by
  refine .subset (.withVariable hL hdst fun _ => .withOperand hL hlhs hl fun st₁ =>
    .withOperand (w := []) hL hrhs (hr ▸ hl) fun _ => ?_) (by simp)
  by_cases hsame : ctx.operandOf rhs = ctx.variableOperandOf dst
  · -- The destination is needed until the end.
    rw [if_pos hsame]
    refine (ctx.gives_temporary _).bind ?_
    rintro _ _ - ⟨n, rfl, -⟩
    have hne := hL.pseudo_temporary_ne n hdst.1
    simp only [if_neg hne]
    exact .pure (L.assigns_throughTemporary hdst hlhs hrhs hl hd hr hop hL n (hsame ▸ hne))
  · rw [if_neg hsame, pure_bind]
    simp only [if_true]
    exact .pure (L.assigns_inPlace hdst hlhs hrhs hl hd hr hop hsame)

end

/-! ### Bytes and other operands of products and quotients -/

abbrev temporaryCell (n : Nat) : Location Register := .pseudo (NameSupply.temporary n)

theorem cells_set_temporary {m n : Nat} (h : m ≠ n) :
    (A.set (.cell (temporaryCell n)) c).cells (temporaryCell m) = A.cells (temporaryCell m) :=
  cells_set_of_ne fun heq => h (NameSupply.temporary_injective (Location.pseudo.inj heq))

/-- Code that makes a constant available in an operand.  It uses temporaries with some numbers only,
and the operand stays as it is unless these temporaries or the variables change. -/
def Layout.Provides {ctx : LoweringContext} {e : Setting} (L : Layout ctx e) (first last : Nat)
    (code : List Instr) (o : Operand) (value : SourceState → Option Const) : Prop :=
  ∀ ⦃p : Procedure⦄, p.Hosts L → ∀ ⦃top : Option Const⦄ ⦃A : Sketch⦄ ⦃s : SourceState⦄ ⦃c : Const⦄,
    A.Agrees L top s → value s = some c →
    ∃ B, p.Runs e code A B ∧ B.Agrees L top s ∧
      (∀ n ≤ first, B.cells (temporaryCell n) = A.cells (temporaryCell n)) ∧
      ∀ C : Sketch, C.Agrees L top s →
        (∀ n, first < n → n ≤ last → C.cells (temporaryCell n) = B.cells (temporaryCell n)) →
        C.read? p e o c.type = some c

theorem Layout.Provides.both {first middle last : Nat} {code code' : List Instr} {o' : Operand}
    {c c' : Const} (h : L.Provides first middle code o value)
    (h' : L.Provides middle last code' o' value') (hp : p.Hosts L) (hlast : middle ≤ last)
    (hA : A.Agrees L top s) (hc : value s = some c) (hc' : value' s = some c') :
    ∃ B, p.Runs e (code ++ code') A B ∧ B.Agrees L top s ∧ ∀ C : Sketch, C.Agrees L top s →
        (∀ n ≤ last, C.cells (temporaryCell n) = B.cells (temporaryCell n)) →
        C.read? p e o c.type = some c ∧ C.read? p e o' c'.type = some c' := by
  obtain ⟨B, hrun, hB, -, hread⟩ := h hp hA hc
  obtain ⟨C, hrun', hC, hkept, hread'⟩ := h' hp hB hc'
  refine ⟨C, hrun.append hrun', hC, fun D hD hcells => ⟨?_, ?_⟩⟩
  · exact hread D hD fun n _ hn => (hcells n (by omega)).trans (hkept n hn)
  · exact hread' D hD fun n _ hn => hcells n hn

theorem LoweringContext.gives_widenByte (hL : L.Ordinary) (hx : L.HasValue x)
    (hbyte : Width.ofType x.type = .byte) :
    ctx.Gives x.var?.toList (ctx.widenByte x) st fun r st' =>
      L.Provides st.temporaries.last st'.temporaries.last r.2 r.1
        fun s => (s.eval? ctx e x).map Const.widened := by
  cases x with
  | const c =>
    refine .pure ?_
    intro p hp top A s c₁ hA hc
    cases hc
    refine ⟨A, .nil, hA, fun _ _ => rfl, fun B' _ _ => ?_⟩
    rw [read?_imm, widened_of_byte hbyte]
  | var v =>
    refine (ctx.gives_temporary _).bind ?_
    rintro _ st₁ - ⟨n, rfl, hlast, hnext⟩
    refine (gives_variableOperand hL (hx v rfl).1).bind ?_
    rintro _ st₂ h₂ rfl
    refine .pure ?_
    intro p hp top A s c hA hc
    obtain ⟨b, hb, rfl⟩ := map_eq_some_iff.mp hc
    have htype : b.type = v.type := eval?_type hb
    have hread : A.read? p e (ctx.variableOperandOf v) v.type = some b :=
      hA.read?_operand hp hx hb
    have hwidth : Width.ofType b.type = .byte := htype ▸ hbyte
    rw [← htype] at hread
    refine ⟨A.set (.cell (temporaryCell n)) b.widened, ?_, hA.set_scratch (hL.isScratch n), ?_, ?_⟩
    · rw [← htype]
      cases hs : b.type.isSigned with
      | true =>
        rw [widened_signed hs hwidth]
        exact .convert (g := fun x => (Width.byte.ofWord x).signExtend 64)
          (by rw [hwidth]; rfl) hread (hp.place?_temporary n) trivial
      | false =>
        rw [widened_unsigned hs hwidth]
        exact .convert (by rw [hwidth]; rfl) hread (hp.place?_temporary n) trivial
    · intro m hm
      exact cells_set_temporary (by omega)
    · intro C _ hC
      have hcell := hC n hlast (by rw [← hnext]; exact h₂.last)
      have hset : (A.set (.cell (temporaryCell n)) b.widened).cells (temporaryCell n) =
          some b.widened := Function.update_self _ _ _
      exact hp.read?_temporary (hcell.trans hset)

theorem LoweringContext.gives_byteProduct (hL : L.Ordinary) (hdst : L.Has dst)
    (hlhs : L.HasValue lhs) (hrhs : L.HasValue rhs) (hbyte : Width.ofType lhs.type = .byte)
    (hd : dst.type = lhs.type) (hr : rhs.type = lhs.type) :
    ctx.Gives (lhs.var?.toList ++ (rhs.var?.toList ++ [dst])) (ctx.byteProduct dst lhs rhs) st
      fun code _ => L.Assigns code dst
        (resultOf ctx e lhs rhs fun a b => some (Opcode.imul.onConsts a b)) := by
  refine (gives_widenByte hL hlhs hbyte).bind ?_
  rintro ⟨l, widenL⟩ st₁ - hprovL
  refine (gives_widenByte hL hrhs (hr ▸ hbyte)).bind ?_
  rintro ⟨r, widenR⟩ st₂ h₂ hprovR
  refine (ctx.gives_temporary _).bind ?_
  rintro _ _ - ⟨n, rfl, hlast, -⟩
  refine .withVariable hL hdst fun _ => .pure ?_
  intro p hp top A s c hA hc
  obtain ⟨a, b, ha, hb, hta, htb, ⟨⟩⟩ := resultOf_eq_some hc
  obtain ⟨B, hrun, hB, hreads⟩ := hprovL.both hprovR hp h₂.last hA
    (congrArg (Option.map widened) ha) (congrArg (Option.map widened) hb)
  -- The product is computed in a temporary of its own.
  have hscratch := hL.isScratch n
  have hmove := move (hreads B hB fun _ _ => rfl).1 (hp.place?_temporary n) trivial
  have hB₁ := hB.set_scratch (c := a.widened) hscratch
  have hreadR := (hreads _ hB₁ fun m hm => cells_set_temporary (by omega)).2
  have hab : b.type = a.type := by rw [hta, htb, hr]
  have hab' : b.widened.type = a.widened.type := by rw [widened_type, widened_type, hab]
  have hwidth : a.type.width = 8 := by
    rw [← Width.bits_ofType, hta, hbyte]
    rfl
  have hcombine := arithmetic .imul rfl a.widened_ne_double hab'
    (hp.read?_set_temporary n) hreadR (hp.place?_temporary n) trivial
  have hB₂ :=
    (hB₁.set_scratch (c := Opcode.imul.onConsts a.widened b.widened) hscratch).withFlags none
  -- The lowest byte of the product is what was asked for.
  have hproduct : .ofWord dst.type (Opcode.imul.onConsts a.widened b.widened).raw =
      Opcode.imul.onConsts a b := by
    rw [hd, ← hta]
    exact ofWord_product hab hab' (value_widened (by omega))
      (value_widened (by rw [hab]; omega)) (by rw [hwidth, width_widened]; decide)
  have hresult : ((((B.set (.cell (temporaryCell n)) a.widened).set (.cell (temporaryCell n))
      (Opcode.imul.onConsts a.widened b.widened)).withFlags none).read? p e
        (.pseudo (NameSupply.temporary n)) dst.type) = some (Opcode.imul.onConsts a b) := by
    rw [read?, hp.place?_temporary n, bind_some, ← hproduct]
    refine fetch?_cell (Function.update_self _ _ _) ?_
    rw [hd, ← hta, hwidth]
    exact Nat.le_trans (by decide) (Nat.le_of_eq a.width_widened.symm)
  obtain ⟨hfinal, hB₃⟩ := hB₂.move hp hdst hresult
  rw [hd, hbyte] at hfinal
  rw [ofType_widened] at hmove hcombine
  exact ⟨_, hrun.append (hmove.cons (hcombine.cons hfinal)), hB₃⟩

/-! ### Division -/

theorem LoweringContext.gives_divisionOperand {isByte : Bool} (hL : L.Ordinary) (hx : L.HasValue x)
    (hd : x.type ≠ .double) (hbyte : isByte = (Width.ofType x.type == .byte)) :
    ctx.Gives x.var?.toList (ctx.divisionOperand isByte x) st fun r st' =>
      L.Provides st.temporaries.last st'.temporaries.last r.2 r.1
        fun s => (s.eval? ctx e x).map Const.dividing := by
  unfold divisionOperand
  by_cases h : Width.ofType x.type = .byte
  · rw [if_pos (by simp [hbyte, h])]
    refine (gives_widenByte hL hx h).imp (List.Subset.refl _) fun r st' hprovides =>
      fun p hp top A s c hA hc => hprovides hp hA ?_
    obtain ⟨b, hb, rfl⟩ := map_eq_some_iff.mp hc
    have hwidth : Width.ofType b.type = .byte := by rw [eval?_type hb, h]
    simp [hb, dividing, hwidth]
  · refine .ifNeg (by simp [hbyte, h]) (.subset (.withOperand hL hx hd fun _ => .pure ?_) (by simp))
    intro p hp top A s c hA hc
    obtain ⟨b, hb, rfl⟩ := map_eq_some_iff.mp hc
    have hdividing : b.dividing = b := by
      rw [dividing, if_neg (by rwa [eval?_type hb])]
    refine ⟨A, .nil, hA, fun _ _ => rfl, fun C hC _ => ?_⟩
    rw [hdividing]
    exact hC.read?_eval hp hx hb

def divideCode (signed : Bool) (w : Width) (r : Operand) : List Instr :=
  if signed then [⟨.cdq, w, []⟩, ⟨.idiv, w, [r]⟩]
  else [⟨.xor, .long, [.reg .rdx, .reg .rdx]⟩, ⟨.div, w, [r]⟩]

section

variable {a b : Const} {r : Operand}

theorem Sketch.read?_reg_of_le {q : Register} (h : A.cells (.reg q) = some c)
    (ht : t.width ≤ c.type.width) : A.read? p e (.reg q) t = some (.ofWord t c.raw) :=
  fetch?_cell (e := e) h ht

theorem Sketch.read?_reg {q : Register} (h : A.cells (.reg q) = some c) :
    A.read? p e (.reg q) c.type = some c := by
  rw [read?_reg_of_le h (Nat.le_refl _), ofWord_raw]

theorem Procedure.Runs.division (hwidth : (Width.ofType a.type).divides = true)
    (hab : b.type = a.type) (hA : A.cells (.reg .rax) = some a)
    (hr : ∀ c, (A.set (.cell (.reg .rdx)) c).read? p e r a.type = some b)
    (hdefined : isUndefinedQuotient a.type.isSigned a.bits (b.bits.setWidth a.type.width) = false) :
    ∃ upper, p.Runs e (divideCode a.type.isSigned (.ofType a.type) r) A
      ((((A.set (.cell (.reg .rdx)) upper).set (.cell (.reg .rax)) (a.quotient b)).set
        (.cell (.reg .rdx)) (a.remainder b)).withFlags none) := by
  have hbits := Width.bits_ofType a.type
  have hrax (c : Const) : (A.set (.cell (.reg .rdx)) c).cells (.reg .rax) = some a := by
    rw [cells_set_of_ne (by decide), hA]
  have hrdx (c : Const) : (A.set (.cell (.reg .rdx)) c).cells (.reg .rdx) = some c :=
    cells_set_self
  have hundefined : isUndefinedQuotient a.type.isSigned ((Width.ofType a.type).ofWord a.raw)
      ((Width.ofType a.type).ofWord b.raw) = false := by
    rw [← hdefined, raw_eq_setWidth hab]
    exact Width.apply_ofWord₂ hbits (fun _ x y => isUndefinedQuotient a.type.isSigned x y) a.bits _
  cases hs : a.type.isSigned with
  | true =>
    have hdivided := quotients_signed (Width.ofType a.type).bits_pos (hs ▸ hundefined)
    have hupper : (Width.ofType a.type).ofWord
        (ofWord a.type (signWord (.ofType a.type) a.raw)).raw =
          signs ((Width.ofType a.type).ofWord a.raw) := by
      rw [← setWidth_signWord]
      refine setWidth_eq_of_low_eq ?_
      rw [raw_ofWord, hbits, low_low]
    rw [← hupper] at hdivided
    have hextend : p.Runs e [⟨.cdq, .ofType a.type, []⟩] A _ :=
      convert (t := a.type) (d := .reg .rdx) (g := signWord (.ofType a.type))
        (by simp [Instr.computation?, hwidth]) (read?_reg hA) rfl trivial
    have hread := read?_reg (p := p) (e := e)
      (hrdx (.ofWord a.type (signWord (.ofType a.type) a.raw)))
    have hdivide : p.Runs e [⟨.idiv, .ofType a.type, [r]⟩] _ _ :=
      divide (a := a) (by simp [Instr.computation?, hwidth]; rfl) hread
        (read?_reg (hrax _)) (hr _) hdivided
    rw [ofWord_apply₂ hab fun _ x y => x.sdiv y, ofWord_apply₂ hab fun _ x y => x.srem y] at hdivide
    rw [quotient, remainder, if_pos hs, if_pos hs]
    exact ⟨_, hextend.cons hdivide⟩
  | false =>
    have hdivided := quotients_unsigned (hs ▸ hundefined)
    have hupper : (Width.ofType a.type).ofWord (ofWord a.type (zero .ulong).raw).raw =
        0#(Width.ofType a.type).bits := by
      simp [Width.ofWord, zero, raw, ofWord]
    rw [← hupper] at hdivided
    have hclear : p.Runs e [⟨.xor, .long, [.reg .rdx, .reg .rdx]⟩] A _ := clear
    have hread : ((A.set (.cell (.reg .rdx)) (.zero .ulong)).withFlags none).read? p e (.reg .rdx)
        a.type = some (.ofWord a.type (zero .ulong).raw) :=
      read?_reg_of_le (hrdx _) a.type.width_le
    have hdivide : p.Runs e [⟨.div, .ofType a.type, [r]⟩]
        ((A.set (.cell (.reg .rdx)) (.zero .ulong)).withFlags none) _ :=
      divide (by simp [Instr.computation?, hwidth]; rfl) hread
        (read?_reg (hrax (.zero .ulong))) (hr (.zero .ulong)) hdivided
    rw [ofWord_apply₂ hab fun _ x y => x.udiv y, ofWord_apply₂ hab fun _ x y => x.umod y] at hdivide
    have hunsigned : ¬a.type.isSigned = true := by simp [hs]
    rw [quotient, remainder, if_neg hunsigned, if_neg hunsigned]
    exact ⟨_, hclear.cons hdivide⟩

end

theorem Layout.isScratch_reg {r : Register} (h : r ≠ .rsp) : L.IsScratch (.reg r) := h

/-- What a division leaves in a register. -/
def divided (result : Register) (a b : Const) : Option Const :=
  if isUndefinedQuotient a.type.isSigned a.bits (b.bits.setWidth a.type.width) then none
  else some (if result = .rax then a.quotient b else a.remainder b)

theorem LoweringContext.gives_division (hL : L.Ordinary) (hdst : L.Has dst) (hlhs : L.HasValue lhs)
    (hrhs : L.HasValue rhs) (hl : lhs.type ≠ .double) (hd : dst.type = lhs.type)
    (hr : rhs.type = lhs.type) (hresult : result = .rax ∨ result = .rdx) :
    ctx.Gives (lhs.var?.toList ++ (rhs.var?.toList ++ [dst])) (ctx.division dst result lhs rhs) st
      fun code _ => L.Assigns code dst (resultOf ctx e lhs rhs (divided result)) := by
  refine (gives_divisionOperand hL hlhs hl rfl).bind ?_
  rintro ⟨l, widenL⟩ st₁ - hprovL
  refine (gives_divisionOperand hL hrhs (hr ▸ hl) (by rw [hr])).bind ?_
  rintro ⟨r, widenR⟩ st₂ h₂ hprovR
  refine .withVariable hL hdst fun _ => .pure ?_
  intro p hp top A s c hA hc
  obtain ⟨a, b, ha, hb, hta, htb, hc⟩ := resultOf_eq_some hc
  obtain ⟨hdefined, ⟨⟩⟩ := ite_none_left_eq_some.mp hc
  rw [Bool.not_eq_true] at hdefined
  have hdouble : a.type ≠ .double := hta ▸ hl
  have hab : b.type = a.type := by rw [hta, htb, hr]
  have hab' := dividing_type_eq hab
  obtain ⟨B, hrun, hB, hreads⟩ := hprovL.both hprovR hp h₂.last hA
    (congrArg (Option.map dividing) ha) (congrArg (Option.map dividing) hb)
  have hmove := move (d := .reg .rax) (hreads B hB fun _ _ => rfl).1 rfl trivial
  have hB₁ := hB.set_scratch (c := a.dividing) (L.isScratch_reg (r := .rax) (by decide))
  have hreadR (c : Const) : ((B.set (.cell (.reg .rax)) a.dividing).set (.cell (.reg .rdx)) c).read?
      p e r a.dividing.type = some b.dividing := by
    rw [← hab']
    refine (hreads _ (hB₁.set_scratch (L.isScratch_reg (by decide))) fun n _ => ?_).2
    rw [cells_set_of_ne (by simp), cells_set_of_ne (by simp)]
  obtain ⟨upper, hdivide⟩ := Procedure.Runs.division (divides_dividing hdouble) hab'
    cells_set_self hreadR
    (isQuotient_of_value hab hab' value_dividing value_dividing
      width_le_dividing hdouble (dividing_ne_double hdouble) isSigned_dividing hdefined)
  have hB₂ := (((hB₁.set_scratch (c := upper) (L.isScratch_reg (r := .rdx) (by decide))).set_scratch
    (c := a.dividing.quotient b.dividing) (L.isScratch_reg (r := .rax) (by decide))).set_scratch
    (c := a.dividing.remainder b.dividing) (L.isScratch_reg (r := .rdx) (by decide))).withFlags none
  have htd : dst.type = a.type := hd.trans hta.symm
  have hle := htd ▸ width_le_dividing
  -- The low bits of the result are those of the result at the type of the operands.
  have hread : (((((B.set (.cell (.reg .rax)) a.dividing).set (.cell (.reg .rdx)) upper).set
      (.cell (.reg .rax)) (a.dividing.quotient b.dividing)).set (.cell (.reg .rdx))
        (a.dividing.remainder b.dividing)).withFlags none).read? p e (.reg result) dst.type =
      some (if result = .rax then a.quotient b else a.remainder b) := by
    rw [read?_withFlags]
    rcases hresult with rfl | rfl
    · rw [← ofWord_raw_quotient hab hab' value_dividing value_dividing width_le_dividing, ← htd]
      refine read?_reg_of_le ?_ hle
      exact (cells_set_of_ne (by decide)).trans cells_set_self
    · rw [← ofWord_raw_remainder hab hab' value_dividing value_dividing width_le_dividing, ← htd]
      exact read?_reg_of_le cells_set_self hle
  obtain ⟨hfinal, hB₃⟩ := hB₂.move hp hdst hread
  refine ⟨_, ?_, hB₃⟩
  rw [isSigned_dividing, ofType_dividing, hta] at hdivide
  rw [ofType_dividing, hta] at hmove
  exact ((hrun.append hmove).append hdivide).append hfinal

/-! ### Shifts -/

theorem Sketch.cells_set_home {r : Register} :
    (A.set (ctx.home e v.name) c).cells (.reg r) = A.cells (.reg r) := by
  unfold home
  split
  · rfl
  · exact cells_set_of_ne (by simp)

theorem computation?_shiftOpcode (h : Hardware) (isLeft signed : Bool) (w : Width) (d o : Operand) :
    (⟨shiftOpcode isLeft signed, w, [d, o]⟩ : Instr).computation? h =
      some (.combine d w o .byte (h.shift (shiftOpcode isLeft signed) w)) := by
  cases isLeft <;> cases signed <;> rfl

theorem BinaryOp.eval_shift (hop : op.isShift = true) (ha : a.type ≠ .double)
    (hb : b.type ≠ .double) (h : op.eval a b = some c) : 0 ≤ b.value ∧ b.value < a.type.width ∧
      c = ⟨a.type, op.shiftBits a.type.isSigned a.bits b.value.toNat⟩ := by
  rw [BinaryOp.eval_eq_evalInteger ha hb, BinaryOp.evalInteger, if_pos hop, toInt?_eq hb,
    bind_some] at h
  split at h
  · cases h
  · exact ⟨by omega, by omega, (some.inj h).symm⟩

theorem LoweringContext.gives_shiftAmount (hL : L.Ordinary) (hx : L.HasValue x)
    (ht : x.type ≠ .double) :
    ctx.Gives x.var?.toList (ctx.shiftAmount x) st fun r _ => ∀ ⦃p : Procedure⦄, p.Hosts L →
      ∀ ⦃top A s b⦄, A.Agrees L top s → s.eval? ctx e x = some b → 0 ≤ b.value → b.value < 64 →
      ∃ B, p.Runs e r.2 A B ∧ B.Agrees L top s ∧
        ∀ C : Sketch, C.cells (.reg .rcx) = B.cells (.reg .rcx) →
          C.read? p e r.1 .uchar = some (.ofInt .uchar b.value) := by
  cases x with
  | const c =>
    refine .pure ?_
    intro p hp top A s b hA hb hn hlt
    cases hb
    refine ⟨A, .nil, hA, fun C _ => ?_⟩
    rw [read?_imm, wordOf_eq_value ht (.inr (by omega)), Int.emod_eq_of_lt hn (by omega),
      ofWord_ofInt (by decide)]
  | var v =>
    refine .withVariable hL (hx v rfl) fun _ => .pure ?_
    intro p hp top A s b hA hb hn hlt
    have hmove := move (d := .reg .rcx) (hA.read?_variable hp (hx v rfl) hb) rfl trivial
    refine ⟨_, hmove, hA.set_scratch (L.isScratch_reg (by decide)), fun C hC => ?_⟩
    have hle : uchar.width ≤ b.type.width := by
      cases b.type <;> decide
    rw [read?_reg_of_le hC hle, ofInt_eq (by decide), ofInt_value_of_le hle, ofWord, raw,
      BitVec.setWidth_setWidth_of_le _ (by decide)]

theorem LoweringContext.gives_shift (op : BinaryOp) (hL : L.Ordinary) (hdst : L.Has dst)
    (hlhs : L.HasValue lhs) (hrhs : L.HasValue rhs) (hop : op.isShift = true)
    (hl : lhs.type ≠ .double) (hd : dst.type = lhs.type) (hr : rhs.type ≠ .double) :
    ctx.Gives (rhs.var?.toList ++ dst :: lhs.var?.toList)
      (ctx.shift dst (op == .shiftLeft) lhs rhs) st
      fun code _ => L.Assigns code dst (resultOf ctx e lhs rhs op.eval) := by
  rw [shift_eq]
  refine (gives_shiftAmount hL hrhs hr).bind ?_
  rintro ⟨amount, load⟩ st₁ - hamount
  refine .subset (.withVariable hL hdst fun _ => .withOperand hL hlhs hl fun _ => .pure ?_)
    (by simp)
  intro p hp top A s c hA hc
  obtain ⟨a, b, ha, hb, hta, htb, hc⟩ := resultOf_eq_some hc
  obtain ⟨hn, hlt, rfl⟩ := BinaryOp.eval_shift hop (hta ▸ hl) (htb ▸ hr) hc
  have hlt64 : b.value < 64 := by have := a.type.width_le; omega
  obtain ⟨B, hload, hB, hread⟩ := hamount hp hA hb hn hlt64
  rw [← hta] at hl hd ⊢
  have hraw := toNat_raw_count hn hlt64
  obtain ⟨C, hrun, hC⟩ := hB.move_change hp hdst (hd ▸ hB.read?_eval hp hlhs ha)
    (fun C hC _ hself hplace hwritable => .combine (b := .ofInt .uchar b.value)
      (computation?_shiftOpcode ..) (fun _ => shifted_eq hl hop (by omega)) hself
      (hread C (hC ▸ cells_set_home)) hplace hwritable) rfl
  rw [ofWord_setWidth, hraw] at hC
  exact ⟨C, hload.append hrun, hC⟩

/-! ### Binary operators -/

section

variable {op : BinaryOp} {lhs rhs : Value}

theorem BinaryOp.eval_eq_evalBits (ha : a.type ≠ .double) (hb : b.type = a.type)
    (hshift : op.isShift = false) (hcomparison : op.isComparison = false) :
    op.eval a b = (op.evalBits a.type.isSigned a.bits (b.bits.setWidth a.type.width)).map
      (⟨a.type, ·⟩) := by
  rw [BinaryOp.eval_eq_evalInteger ha (hb ▸ ha), BinaryOp.evalInteger,
    if_neg (by simp [hshift]), if_neg (by simp [hcomparison])]

theorem BinaryOp.eval_eq_divided (ha : a.type ≠ .double) (hb : b.type = a.type)
    (hop : op = .divide ∧ result = .rax ∨ op = .remainder ∧ result = .rdx) :
    op.eval a b = divided result a b := by
  rcases hop with ⟨rfl, rfl⟩ | ⟨rfl, rfl⟩ <;>
    rw [BinaryOp.eval_eq_evalBits ha hb rfl rfl, divided, BinaryOp.evalBits] <;>
    split <;> simp [quotient, remainder]

theorem LoweringContext.gives_binary (hL : L.Ordinary) (hdst : L.Has dst)
    (hlhs : L.HasValue lhs) (hrhs : L.HasValue rhs)
    (htyped : binaryDefect? dst.type op lhs.type rhs.type = none) (hl : lhs.type ≠ .double)
    (hr : rhs.type ≠ .double) :
    ctx.Gives (dst :: (lhs.var?.toList ++ rhs.var?.toList)) (ctx.binary dst op lhs rhs) st
      fun code _ => L.Assigns code dst (resultOf ctx e lhs rhs op.eval) := by
  obtain ⟨hright, hresult⟩ := types_of_binaryDefect? htyped
  -- The operators that have an instruction of their own.
  have hother (hshift : op.isShift = false) : rhs.type = lhs.type :=
    hright.resolve_left (by simp [hshift])
  have hbits (code : Opcode) (hshift : op.isShift = false) (hcomparison : op.isComparison = false)
      (hcode : ∀ (signed : Bool) (n : Nat) (x y : BitVec n),
        op.evalBits signed x y = some (code.onBits n x y)) (a b : Const) (ha : a.type = lhs.type)
      (hb : b.type = rhs.type) : op.eval a b = some (code.onConsts a b) := by
    rw [BinaryOp.eval_eq_evalBits (ha ▸ hl) (by rw [ha, hb, hother hshift]) hshift hcomparison,
      hcode]
    rfl
  have htwo (code : Opcode) (hshift : op.isShift = false) (hcomparison : op.isComparison = false)
      (hcode : ∀ (signed : Bool) (n : Nat) (x y : BitVec n),
        op.evalBits signed x y = some (code.onBits n x y))
      (hcombines : code.Combines e.hardware (.ofType lhs.type)) :
      ctx.Gives (dst :: (lhs.var?.toList ++ rhs.var?.toList)) (ctx.twoOperand dst code lhs rhs) st
        fun code _ => L.Assigns code dst (resultOf ctx e lhs rhs op.eval) := by
    rw [if_neg (by simp [hcomparison])] at hresult
    exact (gives_twoOperand hdst hlhs hrhs hl hresult (hother hshift) hcombines hL).imp
      (List.Subset.refl _) fun _ _ h => h.congr (hbits code hshift hcomparison hcode)
  have hdivide {result : Register} (hresult : dst.type = lhs.type) (hshift : op.isShift = false)
      (hop : op = .divide ∧ result = .rax ∨ op = .remainder ∧ result = .rdx) :
      ctx.Gives (dst :: (lhs.var?.toList ++ rhs.var?.toList)) (ctx.division dst result lhs rhs) st
        fun code _ => L.Assigns code dst (resultOf ctx e lhs rhs op.eval) :=
    (gives_division hL hdst hlhs hrhs hl hresult (hother hshift) (by grind)).imp (by simp)
      fun _ _ h => h.congr fun a b ha hb =>
        BinaryOp.eval_eq_divided (ha ▸ hl) (by rw [ha, hb, hother hshift]) hop
  cases op with
  | add => exact htwo .add rfl rfl (fun _ _ _ _ => rfl) fun _ _ _ => rfl
  | subtract => exact htwo .sub rfl rfl (fun _ _ _ _ => rfl) fun _ _ _ => rfl
  | bitAnd => exact htwo .and rfl rfl (fun _ _ _ _ => rfl) fun _ _ _ => rfl
  | bitOr => exact htwo .or rfl rfl (fun _ _ _ _ => rfl) fun _ _ _ => rfl
  | bitXor => exact htwo .xor rfl rfl (fun _ _ _ _ => rfl) fun d o hne => if_neg hne
  | multiply =>
    unfold binary
    by_cases hbyte : Width.ofType lhs.type = .byte
    · simp only [hbyte, if_true]
      exact (gives_byteProduct hL hdst hlhs hrhs hbyte hresult (hother rfl)).imp (by simp)
        fun _ _ h => h.congr (hbits .imul rfl rfl fun _ _ _ _ => rfl)
    · simp only [hbyte, if_false]
      exact htwo .imul rfl rfl (fun _ _ _ _ => rfl) fun _ _ _ => rfl
  | divide => exact .ifNeg (ScalarType.not_isDouble hl) (hdivide hresult rfl (by simp))
  | remainder => exact .ifNeg (ScalarType.not_isDouble hl) (hdivide hresult rfl (by simp))
  | shiftLeft =>
    exact (gives_shift .shiftLeft hL hdst hlhs hrhs rfl hl hresult hr).subset (by simp)
  | shiftRight =>
    exact (gives_shift .shiftRight hL hdst hlhs hrhs rfl hl hresult hr).subset (by simp)
  | _ =>
    exact gives_comparison hL hdst hlhs hrhs rfl hresult hl (hother rfl)

end

end

end ThreeAddress.Amd64
