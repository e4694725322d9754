import ThreeAddress.Proofs.Amd64.NumberedConstants
import ThreeAddress.Proofs.Fresh.DrawnLabels

/-!
# Labels that lowering generates

Comparisons and conversions of doubles need labels of their own.  Which names they have depends on
the instruction only, so lowering a function draws labels of known names from the supply, in the
order of the instructions.  It fails exactly if the supply does, and so never for a function without
doubles.  The code defines the labels of the function and those that were drawn, each of them once.

Lowering also numbers temporaries, one after another.  The code of an instruction needs three of
them at most, for the product of two bytes, so the length of a function bounds the last number.
-/

namespace ThreeAddress.Amd64

open List LoweringContext

variable {constants : ConstantPool} {returns : Option ScalarType} {arity? : String → Option Nat}

def labelNames : ThreeAddress.Instr → List String
  | .unary _ .not src => if src.type.isDouble then ["nan"] else []
  | .binary _ .equal lhs _ | .binary _ .notEqual lhs _ => if lhs.type.isDouble then ["nan"] else []
  | .jumpIfZero cond _ => if cond.type.isDouble then ["nan"] else []
  | .convert _ .uintToDouble src =>
    if Width.ofType src.type = .quad then ["u2d_big", "u2d_end"] else []
  | .convert dst .doubleToUInt _ =>
    if Width.ofType dst.type = .quad then ["d2u_big", "d2u_end"] else []
  | _ => []

/-- The names of all labels that are needed. -/
def drawnNames : List String := ["nan", "u2d_big", "u2d_end", "d2u_big", "d2u_end"]

theorem labelNames_sublist (i : ThreeAddress.Instr) : (labelNames i).Sublist drawnNames := by
  unfold labelNames
  split <;> first | exact nil_sublist _ | (split <;> decide)

/-! ### The labels of code -/

def Instr.defined? (i : Instr) : Option Label :=
  match i.flow with
  | .label l => some l
  | _ => none

/-- The labels that code defines, in order. -/
def codeLabels (code : List Instr) : List Label := code.filterMap Instr.defined?

theorem Instr.defined?_of_op {i : Instr} (h : i.op ≠ .label) : i.defined? = none := by
  unfold defined? flow
  split
  · rename_i l hl
    split at hl <;> first | exact absurd ‹_› h | cases hl
  · rfl

@[simp] theorem codeLabels_append (code code' : List Instr) :
    codeLabels (code ++ code') = codeLabels code ++ codeLabels code' :=
  filterMap_append

theorem codeLabels_cons (i : Instr) (code : List Instr) :
    codeLabels (i :: code) = i.defined?.toList ++ codeLabels code := by
  unfold codeLabels
  rw [filterMap_cons]
  cases i.defined? <;> rfl

theorem codeLabels_of_forall {code : List Instr} (h : ∀ i ∈ code, i.op ≠ .label) :
    codeLabels code = [] :=
  filterMap_eq_nil_iff.mpr fun i hi => Instr.defined?_of_op (h i hi)

theorem codeLabels_flatten {codes : List (List Instr)} (h : ∀ code ∈ codes, codeLabels code = []) :
    codeLabels codes.flatten = [] := by
  induction codes with
  | nil => rfl
  | cons code rest ih =>
    obtain ⟨hcode, hrest⟩ := forall_mem_cons.mp h
    rw [flatten_cons, codeLabels_append, hcode, ih hrest]
    rfl

/-! ### Steps that draw labels -/

/-- Constants are added and stay numbered, and no more than a number of temporaries are taken from a
supply that avoids no names. -/
structure LoweringState.Grows (platform : Platform) (n : Nat) (st st' : LoweringState) : Prop where
  entries : st.constants.entries <+: st'.constants.entries
  numbered : st.constants.Numbered platform → st'.constants.Numbered platform
  temporaries : st.temporaries.avoided = ∅ → st'.temporaries.avoided = ∅ ∧
    st'.temporaries.last ≤ st.temporaries.last + n

namespace LoweringState.Grows

variable {platform : Platform} {n m : Nat} {st st₁ st₂ : LoweringState}

theorem of_eq (hconstants : st₁.constants = st.constants)
    (htemporaries : st₁.temporaries = st.temporaries) : st.Grows platform n st₁ :=
  ⟨hconstants ▸ prefix_rfl, fun h => hconstants ▸ h, fun h =>
    ⟨htemporaries ▸ h, htemporaries ▸ Nat.le_add_right _ _⟩⟩

theorem trans (h : st.Grows platform n st₁) (h' : st₁.Grows platform m st₂) :
    st.Grows platform (m + n) st₂ := by
  refine ⟨h.entries.trans h'.entries, fun hst => h'.numbered (h.numbered hst), fun hst => ?_⟩
  obtain ⟨hst₁, hlast₁⟩ := h.temporaries hst
  obtain ⟨hst₂, hlast₂⟩ := h'.temporaries hst₁
  exact ⟨hst₂, by omega⟩

end LoweringState.Grows

/-- A step of lowering gives something, also with every pool that has the constants it leaves. -/
structure Lower.Runs {α : Type} (x : Lower α) (st : LoweringState) (a : α) (st' : LoweringState) :
    Prop where
  run_eq : x.run st = .ok (a, st')
  rerun_eq : ∀ pool : ConstantPool, st'.constants.entries <+: pool.entries →
    x.run { st with constants := pool } = .ok (a, { st' with constants := pool })

theorem Lower.Runs.bind {α β : Type} {x : Lower α} {f : α → Lower β} {st st₁ st₂ : LoweringState}
    {a : α} {b : β} (hx : x.Runs st a st₁) (hf : (f a).Runs st₁ b st₂)
    (hle : st₁.constants.entries <+: st₂.constants.entries) : (x >>= f).Runs st b st₂ := by
  refine ⟨?_, fun pool hpool => ?_⟩
  · rw [StateT.run_bind, hx.run_eq]
    exact hf.run_eq
  · rw [StateT.run_bind, hx.rerun_eq pool (hle.trans hpool)]
    exact hf.rerun_eq pool hpool

/-- A step of lowering draws labels of some names from the supply, and gives something that is
related to them.  It fails if the supply does.  It takes no more than `n` temporaries. -/
def Lower.Draws (platform : Platform) (names : List String) (n : Nat) {α : Type} (x : Lower α)
    (P : List Label → α → Prop) : Prop :=
  ∀ st : LoweringState, match st.labels.draw? names with
    | none => x.run st = .error .subscriptOverflow
    | some (ls, labels) => ∃ a st', x.Runs st a st' ∧ st'.labels = labels ∧
        st.Grows platform n st' ∧ P ls a

namespace Lower.Draws

variable {platform : Platform} {names names' : List String} {n m : Nat} {α β : Type}
  {x y : Lower α} {f : α → Lower β} {P P' : List Label → α → Prop} {Q : List Label → β → Prop}

theorem pure {a : α} (h : P [] a) : Draws platform [] n (Pure.pure a) P :=
  fun st => ⟨a, st, ⟨rfl, fun _ _ => rfl⟩, rfl, .of_eq rfl rfl, h⟩

theorem append (hx : Draws platform names n x P)
    (hf : ∀ ls a, P ls a → Draws platform names' m (f a) fun ls' => Q (ls ++ ls')) :
    Draws platform (names ++ names') (m + n) (x >>= f) Q := by
  intro st
  have hfirst := hx st
  rw [LabelSupply.draw?_append]
  cases hdraw : st.labels.draw? names with
  | none =>
    rw [hdraw] at hfirst
    rw [StateT.run_bind, show x.run st = .error .subscriptOverflow from hfirst]
    rfl
  | some drawn =>
    rw [hdraw] at hfirst
    obtain ⟨a, st₁, hrun, hlabels, hst₁, ha⟩ := hfirst
    have hsecond := hf drawn.1 a ha st₁
    rw [hlabels] at hsecond
    simp only [Option.bind_some]
    cases hdraw' : drawn.2.draw? names' with
    | none =>
      rw [hdraw'] at hsecond
      rw [StateT.run_bind, hrun.run_eq]
      exact hsecond
    | some drawn' =>
      rw [hdraw'] at hsecond
      obtain ⟨b, st₂, hrun', hlabels', hst₂, hb⟩ := hsecond
      exact ⟨b, st₂, hrun.bind hrun' hst₂.entries, hlabels', hst₁.trans hst₂, hb⟩

theorem bind {R : α → Prop} (hx : Draws platform [] n x fun _ => R)
    (hf : ∀ a, R a → Draws platform names m (f a) Q) :
    Draws platform names (m + n) (x >>= f) Q := by
  have hempty : Draws platform [] n x fun ls a => ls = [] ∧ R a := by
    intro st
    obtain ⟨a, st', hrun, hlabels, hst', ha⟩ := hx st
    exact ⟨a, st', hrun, hlabels, hst', rfl, ha⟩
  refine append hempty fun ls a ⟨hls, ha⟩ => ?_
  rw [hls]
  exact hf a ha

theorem andThen (hx : Draws platform [] 0 x fun _ _ => True)
    (hf : ∀ a, Draws platform names n (f a) Q) : Draws platform names n (x >>= f) Q :=
  bind hx fun a _ => hf a

theorem mono (hx : Draws platform names n x P) (h : ∀ ls a, P ls a → P' ls a) :
    Draws platform names n x P' := by
  intro st
  have hdraws := hx st
  cases hdraw : st.labels.draw? names with
  | none =>
    rw [hdraw] at hdraws
    exact hdraws
  | some drawn =>
    rw [hdraw] at hdraws
    obtain ⟨a, st', hrun, hlabels, hst', ha⟩ := hdraws
    exact ⟨a, st', hrun, hlabels, hst', h _ a ha⟩

theorem ite {c : Prop} [Decidable c] (hx : c → Draws platform names n x P)
    (hy : ¬c → Draws platform names n y P) : Draws platform names n (if c then x else y) P := by
  split
  · exact hx (by assumption)
  · exact hy (by assumption)

theorem mapM_forall_mem {xs : List α} {R : β → Prop}
    (hf : ∀ a ∈ xs, Draws platform [] 0 (f a) fun _ => R) :
    Draws platform [] 0 (xs.mapM f) fun _ bs => ∀ b ∈ bs, R b := by
  induction xs with
  | nil => exact pure nofun
  | cons a rest ih =>
    obtain ⟨ha, hrest⟩ := forall_mem_cons.mp hf
    rw [mapM_cons]
    refine bind ha fun b hb => bind (ih hrest) fun bs hbs => pure ?_
    exact forall_mem_cons.mpr ⟨hb, hbs⟩

theorem take {w : Width} {f : Operand → Lower β} (hf : ∀ t, Draws platform names n (f t) Q) :
    Draws platform names (n + 1) (Lower.temporary w >>= f) Q := by
  refine bind (R := fun _ => True) (fun st => ⟨_, _, ⟨rfl, fun _ _ => rfl⟩, rfl,
    ⟨prefix_rfl, id, fun hst => ⟨hst, ?_⟩⟩, trivial⟩) fun t _ => hf t
  rw [hst]
  exact Nat.le_refl _

theorem doubleConstant (c : Binary64) (alignment : Nat) :
    Draws platform [] n (Lower.doubleConstant c alignment) fun _ _ => True := by
  intro st
  obtain ⟨hle, hsame⟩ := st.constants.intern_prefix c alignment
  refine ⟨_, _, ⟨rfl, fun pool hpool => ?_⟩, rfl, ⟨hle, fun hst => hst.intern c alignment,
    fun hst => ⟨hst, Nat.le_add_right _ _⟩⟩, trivial⟩
  show Except.ok (Operand.data (pool.intern c alignment).1,
    ({ st with constants := (pool.intern c alignment).2 } : LoweringState)) = _
  rw [hsame pool hpool]
  rfl

theorem noteArguments (symbol : String) (registers : List Register) :
    Draws platform [] n (Lower.noteArguments symbol registers) fun _ _ => True :=
  fun _ => ⟨_, _, ⟨rfl, fun _ _ => rfl⟩, rfl, .of_eq rfl rfl, trivial⟩

theorem of_run (hx : Draws platform names n x P) {st st' : LoweringState} {a : α}
    (hrun : x.run st = .ok (a, st')) : x.Runs st a st' ∧ st.Grows platform n st' := by
  have hdraws := hx st
  split at hdraws
  · rw [hrun] at hdraws
    cases hdraws
  · obtain ⟨_, _, hruns, -, hgrows, -⟩ := hdraws
    cases hrun.symm.trans hruns.run_eq
    exact ⟨hruns, hgrows⟩

end Lower.Draws

namespace LoweringContext

open Lower

variable {ctx : LoweringContext} {platform : Platform} {names : List String} {n : Nat}
  {dst : Variable} {lhs rhs src v : Value} {d l r : Operand} {arity? : String → Option Nat}
  {returns : Option ScalarType} {body : Listing ThreeAddress.Instr} {op : BinaryOp}

/-- The code of a step defines the labels that were drawn for it. -/
def DefinesDrawn (ctx : LoweringContext) (ls : List Label) (code : List Instr) : Prop :=
  codeLabels code = ls.map ctx.qualified

theorem draws_freshLabel (name : String) :
    Draws platform [name] 0 (ctx.freshLabel name) fun ls l => ls.map ctx.qualified = [l] := by
  intro st
  cases hnext : st.labels.next? name with
  | none =>
    simp only [LabelSupply.draw?, hnext, Option.bind_none]
    rw [run_freshLabel, hnext]
  | some next =>
    simp only [LabelSupply.draw?, hnext, Option.bind_some, Option.map_some]
    refine ⟨ctx.qualified next.1, { st with labels := next.2 }, ⟨?_, fun pool _ => ?_⟩, rfl,
      .of_eq rfl rfl, rfl⟩ <;> simp only [run_freshLabel, hnext]

theorem draws_fresh {β : Type} {name : String} {f : Label → Lower β} {Q : List Label → β → Prop}
    (hf : ∀ l, Draws platform names n (f (ctx.qualified l)) fun ls => Q (l :: ls)) :
    Draws platform (name :: names) n (ctx.freshLabel name >>= f) Q := by
  refine .append (draws_freshLabel name) fun ls a hls => ?_
  obtain ⟨l, rfl⟩ : ∃ l, ls = [l] := length_eq_one_iff.mp (by simpa using congrArg length hls)
  obtain rfl : ctx.qualified l = a := by simpa using hls
  exact hf l

theorem draws_variableOperand (x : Variable) :
    Draws platform [] n (ctx.variableOperand x) fun _ _ => True :=
  .ite (fun _ => .pure trivial) fun _ _ =>
    ⟨_, _, ⟨rfl, fun _ _ => rfl⟩, rfl, .of_eq rfl rfl, trivial⟩

theorem draws_operand (v : Value) : Draws platform [] n (ctx.operand v) fun _ _ => True := by
  cases v with
  | var x => exact draws_variableOperand x
  | const c =>
    rw [operand]
    cases c.toBinary64? with
    | some x => exact .doubleConstant x 8
    | none => exact .pure trivial

/-! ### Operators -/

theorem draws_doubleEquality (ctx : LoweringContext) (d l r : Operand) (equal : Bool) :
    Draws platform ["nan"] n (ctx.doubleEquality d l r equal) ctx.DefinesDrawn :=
  draws_fresh fun _ => .pure rfl

theorem draws_doubleComparison (hop : op.isComparison = true) (hdouble : lhs.type.isDouble = true) :
    Draws platform (labelNames (.binary dst op lhs rhs)) n (ctx.doubleComparison op d l r)
      ctx.DefinesDrawn := by
  cases op with
  | equal =>
    simp only [labelNames, hdouble, if_true]
    exact draws_doubleEquality ctx d l r true
  | notEqual =>
    simp only [labelNames, hdouble, if_true]
    exact draws_doubleEquality ctx d l r false
  | lessThan | lessOrEqual | greaterThan | greaterOrEqual => exact .pure rfl
  | _ => cases hop

theorem draws_unary {op : UnaryOp} :
    Draws platform (labelNames (.unary dst op src)) n (ctx.unary dst op src) ctx.DefinesDrawn := by
  refine .andThen (draws_variableOperand dst) fun d => .andThen (draws_operand src) fun a => ?_
  cases op with
  | not =>
    simp only [labelNames]
    cases src.type.isDouble with
    | true => exact .andThen (.doubleConstant _ _) fun zero =>
      draws_doubleEquality ctx d a zero true
    | false => exact .pure rfl
  | negate =>
    refine .ite (fun _ => ?_) fun _ => .pure rfl
    exact .andThen (.doubleConstant _ _) fun zero => .pure rfl
  | complement => exact .pure rfl

theorem draws_comparison (hop : op.isComparison = true) :
    Draws platform (labelNames (.binary dst op lhs rhs)) n (ctx.comparison dst op lhs rhs)
      ctx.DefinesDrawn := by
  refine .andThen (draws_variableOperand dst) fun d => .andThen (draws_operand lhs) fun a => ?_
  refine .andThen (draws_operand rhs) fun b => ?_
  cases hdouble : lhs.type.isDouble with
  | false =>
    have hnone : labelNames (.binary dst op lhs rhs) = [] := by
      cases op <;> simp [labelNames, hdouble]
    rw [hnone]
    exact .pure rfl
  | true => exact draws_doubleComparison hop hdouble

theorem draws_twoOperand {op : Opcode} (hop : op ≠ .label) :
    Draws platform [] 3 (ctx.twoOperand dst op lhs rhs) ctx.DefinesDrawn := by
  refine .andThen (draws_variableOperand dst) fun d => .andThen (draws_operand lhs) fun a => ?_
  refine .andThen (draws_operand rhs) fun b => ?_
  have hdone (t : Operand) : ctx.DefinesDrawn []
      ([⟨.mov, .ofType lhs.type, [t, a]⟩, ⟨op, .ofType lhs.type, [t, b]⟩] ++
        if t = d then [] else [⟨.mov, .ofType lhs.type, [d, t]⟩]) := by
    refine codeLabels_of_forall ?_
    split <;> simpa using hop
  refine .ite (fun _ => ?_) fun _ => ?_
  · exact .take fun t => .pure (hdone t)
  · exact .andThen (.pure trivial) fun t => .pure (hdone t)

theorem draws_widenByte (v : Value) :
    Draws platform [] 1 (ctx.widenByte v) fun _ y => codeLabels y.2 = [] := by
  cases v with
  | const c => exact .pure rfl
  | var x =>
    refine .take fun wide => .andThen (draws_variableOperand x) fun a => .pure ?_
    refine codeLabels_of_forall ?_
    cases x.type.isSigned <;> simp

theorem draws_byteProduct : Draws platform [] 3 (ctx.byteProduct dst lhs rhs) ctx.DefinesDrawn := by
  refine .bind (draws_widenByte lhs) fun a ha => .bind (draws_widenByte rhs) fun b hb => ?_
  refine .take fun product => .andThen (draws_variableOperand dst) fun d => .pure ?_
  simp only [DefinesDrawn, codeLabels_append, ha, hb]
  rfl

theorem draws_divisionOperand (isByte : Bool) (v : Value) :
    Draws platform [] 1 (ctx.divisionOperand isByte v) fun _ y => codeLabels y.2 = [] :=
  .ite (fun _ => draws_widenByte v) fun _ => .andThen (draws_operand v) fun _ => .pure rfl

theorem draws_division {result : Register} :
    Draws platform [] 3 (ctx.division dst result lhs rhs) ctx.DefinesDrawn := by
  refine .bind (draws_divisionOperand _ lhs) fun a ha => ?_
  refine .bind (draws_divisionOperand _ rhs) fun b hb => ?_
  refine .andThen (draws_variableOperand dst) fun d => .pure ?_
  simp only [DefinesDrawn, codeLabels_append, ha, hb]
  cases lhs.type.isSigned <;> rfl

theorem draws_shift {isLeft : Bool} :
    Draws platform [] n (ctx.shift dst isLeft lhs rhs) ctx.DefinesDrawn := by
  have hop : ∀ op ∈ [Opcode.sal, .sar, .shr], op ≠ .label := by decide
  have hamount : Draws platform [] 0 (ctx.shiftAmount rhs) fun _ amount =>
      codeLabels amount.2 = [] := by
    cases rhs with
    | const c => exact .pure rfl
    | var x => exact .andThen (draws_variableOperand x) fun _ => .pure rfl
  rw [shift_eq]
  refine .bind hamount fun amount h => .andThen (draws_variableOperand dst) fun d =>
    .andThen (draws_operand lhs) fun a => .pure ?_
  simp only [DefinesDrawn, codeLabels_append, h]
  exact codeLabels_of_forall (by simpa using hop _ (shiftOpcode_mem ..))

theorem draws_binary (htype : binaryDefect? dst.type op lhs.type rhs.type = none) :
    Draws platform (labelNames (.binary dst op lhs rhs)) 3 (ctx.binary dst op lhs rhs)
      ctx.DefinesDrawn := by
  cases op with
  | add | subtract | bitAnd | bitOr | bitXor => exact draws_twoOperand (by decide)
  | multiply => exact .ite (fun _ => draws_byteProduct) fun _ => draws_twoOperand (by decide)
  | divide => exact .ite (fun _ => draws_twoOperand (by decide)) fun _ => draws_division
  | remainder =>
    refine .ite (fun hdouble => ?_) fun _ => draws_division
    simp [binaryDefect?, BinaryOp.isIntegerOnly, hdouble] at htype
  | shiftLeft | shiftRight => exact draws_shift
  | _ =>
    exact draws_comparison rfl

/-! ### Conversions -/

theorem draws_uintToDouble (hinteger : src.type.isInteger = true) :
    Draws platform (if Width.ofType src.type = .quad then ["u2d_big", "u2d_end"] else []) 3
      (ctx.uintToDouble d src) ctx.DefinesDrawn := by
  have hw : Width.ofType src.type ≠ .double := by
    intro hw
    rw [(src.type.isDouble_iff).mp (Width.ofType_eq_double hw)] at hinteger
    cases hinteger
  unfold uintToDouble
  cases hwidth : Width.ofType src.type with
  | byte =>
    refine .bind (draws_widenByte src) fun a ha => .pure ?_
    simp only [DefinesDrawn, codeLabels_append, ha]
    rfl
  | long =>
    cases src with
    | const c => exact .pure rfl
    | var x =>
      exact .take fun _ => .andThen (draws_variableOperand x) fun _ => .pure rfl
  | quad =>
    refine .andThen (draws_operand src) fun a => draws_fresh fun big => draws_fresh fun done => ?_
    exact .take fun _ => .take fun _ => .pure rfl
  | double => exact absurd hwidth hw

theorem draws_doubleToUInt {w : Width} (hw : w ≠ .double) :
    Draws platform (if w = .quad then ["d2u_big", "d2u_end"] else []) 3
      (ctx.doubleToUInt d w src) ctx.DefinesDrawn := by
  refine .andThen (draws_operand src) fun a => ?_
  cases w with
  | byte | long => exact .take fun _ => .pure rfl
  | quad =>
    refine .andThen (.doubleConstant _ _) fun limit => draws_fresh fun big =>
      draws_fresh fun done => ?_
    exact .take fun _ => .pure rfl
  | double => exact absurd rfl hw

theorem draws_convert {conversion : Conversion}
    (hvalid : conversion.isValid src.type dst.type = true) :
    Draws platform (labelNames (.convert dst conversion src)) 3 (ctx.convert dst conversion src)
      ctx.DefinesDrawn := by
  refine .andThen (draws_variableOperand dst) fun d => ?_
  cases conversion with
  | signExtend | zeroExtend => exact .andThen (draws_operand src) fun _ => .pure rfl
  | truncate =>
    cases src with
    | const c => exact .andThen (.pure trivial) fun _ => .pure rfl
    | var x => exact .andThen (draws_variableOperand x) fun _ => .pure rfl
  | intToDouble =>
    refine .ite (fun _ => ?_) fun _ => .andThen (draws_operand src) fun _ => .pure rfl
    refine .bind (draws_widenByte src) fun a ha => .pure ?_
    simp only [DefinesDrawn, codeLabels_append, ha]
    rfl
  | uintToDouble => exact draws_uintToDouble (Bool.and_eq_true_iff.mp hvalid).1
  | doubleToInt =>
    refine .andThen (draws_operand src) fun a => .ite (fun _ => ?_) fun _ => .pure rfl
    exact .take fun _ => .pure rfl
  | doubleToUInt =>
    refine draws_doubleToUInt fun hw => ?_
    have hinteger := (Bool.and_eq_true_iff.mp hvalid).2
    rw [(dst.type.isDouble_iff).mp (Width.ofType_eq_double hw)] at hinteger
    cases hinteger

/-! ### Control flow and calls -/

theorem draws_ret (value : Option Value) :
    Draws platform [] n (ctx.ret value) ctx.DefinesDrawn := by
  cases value with
  | none => exact .pure rfl
  | some v => exact .andThen (draws_operand v) fun _ => .pure rfl

theorem draws_conditionalJump (ctx : LoweringContext) (v : Value) (target : Label) (ifZero : Bool) :
    Draws platform (if v.type.isDouble && ifZero then ["nan"] else []) n
      (ctx.conditionalJump v target ifZero) ctx.DefinesDrawn := by
  refine .andThen (draws_operand v) fun a => ?_
  cases v.type.isDouble with
  | false => exact .pure rfl
  | true =>
    refine .andThen (.doubleConstant _ _) fun zero => ?_
    cases ifZero with
    | true => exact draws_fresh fun ordered => .pure rfl
    | false => exact .pure rfl

theorem draws_call (dst : Option Variable) (callee : String) (args : List Value) :
    Draws platform [] n (ctx.call dst callee args) ctx.DefinesDrawn := by
  refine .bind (.mapM_forall_mem (R := fun code => codeLabels code = []) fun v _ => ?_)
    fun pushes hpushes => ?_
  · exact .andThen (draws_operand v) fun _ => .ite (fun _ => .pure rfl) fun _ => .pure rfl
  refine .bind (.mapM_forall_mem (R := fun i => i.op ≠ .label) fun x _ => ?_) fun moves hmoves => ?_
  · exact .andThen (draws_operand x.1) fun _ => .pure nofun
  refine .andThen (.noteArguments _ _) fun _ => ?_
  have hdone {pad unpad result : List Instr} {call : Instr} (hpad : codeLabels pad = [])
      (hcall : codeLabels [call] = []) (hunpad : codeLabels unpad = [])
      (hresult : codeLabels result = []) :
      ctx.DefinesDrawn [] (pad ++ pushes.flatten ++ moves ++ [call] ++ unpad ++ result) := by
    simp only [DefinesDrawn, codeLabels_append, hpad, codeLabels_flatten hpushes,
      codeLabels_of_forall hmoves, hcall, hunpad, hresult]
    rfl
  have hstack {c : Prop} [Decidable c] {i : Instr} (hi : codeLabels [i] = []) :
      codeLabels (if c then [] else [i]) = [] := by
    split
    · rfl
    · exact hi
  cases dst with
  | none =>
    refine .bind (n := 0) (.pure (P := fun _ code => codeLabels code = []) rfl)
      fun result hresult => .pure ?_
    exact hdone (hstack rfl) rfl (hstack rfl) hresult
  | some x =>
    refine .andThen (draws_variableOperand x) fun d => ?_
    refine .bind (n := 0) (.pure (P := fun _ code => codeLabels code = []) rfl)
      fun result hresult => .pure ?_
    exact hdone (hstack rfl) rfl (hstack rfl) hresult

/-! ### Instructions and functions -/

/-- The code of an instruction needs labels of its names.  It defines them, and the label that the
instruction defines. -/
theorem draws_instr {i : ThreeAddress.Instr} (htype : i.typeDefect? returns arity? = none) :
    Draws platform (labelNames i) 3 (ctx.instr i) fun ls code =>
      codeLabels code = (i.label?.toList ++ ls).map ctx.qualified := by
  cases i with
  | ret value => exact draws_ret value
  | unary dst op src => exact draws_unary
  | binary dst op lhs rhs => exact draws_binary htype
  | convert dst conversion src => exact draws_convert (isValid_of_typeDefect? htype)
  | copy dst src | addressOf dst src =>
    exact .andThen (draws_variableOperand dst) fun _ => .andThen (draws_operand src) fun _ =>
      .pure rfl
  | load dst ptr =>
    exact .andThen (draws_operand ptr) fun _ => .andThen (draws_variableOperand dst) fun _ =>
      .pure rfl
  | store ptr src =>
    exact .andThen (draws_operand ptr) fun _ => .andThen (draws_operand src) fun _ => .pure rfl
  | jump target | label l => exact .pure rfl
  | jumpIfZero cond target =>
    have hnames : labelNames (.jumpIfZero cond target) =
        if cond.type.isDouble && true then ["nan"] else [] := by rw [Bool.and_true]; rfl
    rw [hnames]
    exact ctx.draws_conditionalJump cond target true
  | jumpIfNotZero cond target =>
    have hnames : labelNames (.jumpIfNotZero cond target) =
        if cond.type.isDouble && false then ["nan"] else [] := by rw [Bool.and_false]; rfl
    rw [hnames]
    exact ctx.draws_conditionalJump cond target false
  | call dst callee args => exact draws_call dst callee args

theorem draws_instrs (htype : ∀ i ∈ body, i.typeDefect? returns arity? = none) :
    Draws platform (body.flatMap labelNames) (3 * body.length) (body.mapM ctx.instr) fun ls codes =>
      (codeLabels codes.flatten).Perm
        ((body.filterMap ThreeAddress.Instr.label? ++ ls).map ctx.qualified) := by
  induction body with
  | nil => exact .pure .nil
  | cons i rest ih =>
    obtain ⟨hi, hrest⟩ := forall_mem_cons.mp htype
    rw [mapM_cons, flatMap_cons, length_cons, Nat.mul_succ]
    refine .append (draws_instr hi) fun ls code hcode => ?_
    rw [← append_nil (rest.flatMap labelNames), ← Nat.zero_add (3 * rest.length)]
    refine .append (ih hrest) fun ls' blocks hblocks => .pure ?_
    have hlabels : (i :: rest).filterMap Instr.label? =
        i.label?.toList ++ rest.filterMap Instr.label? := by
      rw [filterMap_cons]
      cases i.label? <;> rfl
    rw [flatten_cons, codeLabels_append, hcode, hlabels, append_nil, append_assoc]
    refine ((Perm.refl _).append hblocks).trans ?_
    rw [← map_append]
    refine .map _ ?_
    -- The labels of the first instruction stand before all that come from the others.
    rw [append_assoc]
    refine (Perm.refl _).append ?_
    rw [← append_assoc, ← append_assoc]
    exact perm_append_comm.append_right _

theorem draws_body (ctx : LoweringContext) (platform : Platform)
    (htype : ∀ i ∈ body, i.typeDefect? returns arity? = none) :
    Draws platform (body.flatMap labelNames) (3 * body.length) (ctx.body body) fun ls code =>
      (codeLabels code).Perm
        ((body.filterMap ThreeAddress.Instr.label? ++ ls).map ctx.qualified) := by
  have hending : codeLabels (ending body) = [] := by
    unfold ending
    split <;> rfl
  rw [body_eq, ← append_nil (body.flatMap labelNames), ← Nat.zero_add (3 * body.length)]
  refine .append (draws_instrs htype) fun ls blocks hblocks => .pure ?_
  rw [codeLabels_append, hending, append_nil, append_nil]
  exact hblocks

theorem draws_params (ctx : LoweringContext) (platform : Platform) (ps : List Variable) :
    Draws platform [] 0 (ctx.params ps) fun _ code => codeLabels code = [] := by
  refine (Draws.mapM_forall_mem fun x _ => ?_).mono
    fun _ _ h => codeLabels_of_forall h
  exact .andThen (draws_variableOperand x.1) fun _ => .pure nofun

/-! ### Code without doubles -/

theorem labelNames_eq_nil {i : ThreeAddress.Instr} (hdouble : i.usesDouble = false)
    (htype : i.typeDefect? returns arity? = none) : labelNames i = [] := by
  simp only [Instr.usesDouble, Bool.or_eq_false_iff, any_eq_false, Bool.not_eq_true] at hdouble
  obtain ⟨⟨hwritten, hreads⟩, -⟩ := hdouble
  cases i with
  | unary dst op src => cases op <;> simp [labelNames, hreads src (.head _)]
  | binary dst op lhs rhs => cases op <;> simp [labelNames, hreads lhs (.head _)]
  | jumpIfZero cond target => simp [labelNames, hreads cond (.head _)]
  | convert dst conversion src =>
    have hvalid := isValid_of_typeDefect? htype
    have hdst : dst.type.isDouble = false := hwritten
    have hsrc := hreads src (.head _)
    cases conversion with
    | uintToDouble => simp [Conversion.isValid, hdst] at hvalid
    | doubleToUInt => simp [Conversion.isValid, hsrc] at hvalid
    | _ => rfl
  | _ => rfl

theorem succeeds_params (ctx : LoweringContext) (ps : List Variable) (st : LoweringState) :
    ∃ r, (ctx.params ps).run st = .ok r := by
  obtain ⟨code, st', hrun, -⟩ := ctx.draws_params .linux ps st
  exact ⟨_, hrun.run_eq⟩

/-- A body without doubles is lowered in every state. -/
theorem succeeds_body (ctx : LoweringContext) (hdouble : ∀ i ∈ body, i.usesDouble = false)
    (htype : ∀ i ∈ body, i.typeDefect? returns arity? = none) (st : LoweringState) :
    ∃ r, (ctx.body body).run st = .ok r := by
  have hnames : body.flatMap labelNames = [] :=
    flatMap_eq_nil_iff.mpr fun i hi => labelNames_eq_nil (hdouble i hi) (htype i hi)
  have hdraws := ctx.draws_body .linux htype
  rw [hnames] at hdraws
  obtain ⟨code, st', hrun, -⟩ := hdraws st
  exact ⟨_, hrun.run_eq⟩

end LoweringContext

/-- What becomes of a function depends on the labels that its instructions need.  If the supply has
them, the function is lowered, and its code defines them and the labels of the function. -/
theorem labels_lowerFunction {p : Program} {platform : Platform} {f : Function}
    (htype : ∀ i ∈ f.body, i.typeDefect? returns arity? = none)
    (hconstants : constants.Numbered platform) :
    match (LabelSupply.ofListing f.body).draw? (f.body.flatMap labelNames) with
    | none => lowerFunction p platform f constants = .error .subscriptOverflow
    | some (ls, _) => ∃ q constants', lowerFunction p platform f constants = .ok (q, constants') ∧
        constants'.Numbered platform ∧
        (codeLabels q.body).Perm ((f.body.filterMap ThreeAddress.Instr.label? ++ ls).map
          (LoweringContext.of p platform f).qualified) := by
  obtain ⟨params, st₁, hparams, hlabels, hst₁, hnone⟩ :=
    (of p platform f).draws_params platform f.params (.initial f constants)
  have hbody := (of p platform f).draws_body platform htype st₁
  rw [show st₁.labels = .ofListing f.body from hlabels] at hbody
  cases hdraw : (LabelSupply.ofListing f.body).draw? (f.body.flatMap labelNames) with
  | none =>
    rw [hdraw] at hbody
    simp only [lowerFunction, StateT.run_bind, hparams.run_eq]
    show Except.bind (.bind (((of p platform f).body f.body).run st₁) _) _ = _
    rw [show ((of p platform f).body f.body).run st₁ = _ from hbody]
    rfl
  | some drawn =>
    rw [hdraw] at hbody
    obtain ⟨body, st₂, hrun, -, hst₂, hperm⟩ := hbody
    refine ⟨_, _, lowerFunction_eq_ok hparams.run_eq hrun.run_eq,
      hst₂.numbered (hst₁.numbered hconstants), ?_⟩
    rw [codeLabels_append, hnone]
    exact hperm

theorem numbered_lowerFunction {p : Program} {platform : Platform} {f : Function}
    {constants' : ConstantPool} {q : Procedure}
    (htype : ∀ i ∈ f.body, i.typeDefect? returns arity? = none)
    (hconstants : constants.Numbered platform)
    (hq : lowerFunction p platform f constants = .ok (q, constants')) :
    constants'.Numbered platform := by
  have hlabels := labels_lowerFunction (p := p) htype hconstants
  split at hlabels
  · rw [hlabels] at hq
    cases hq
  · obtain ⟨q', constants'', hq', hnumbered, -⟩ := hlabels
    rw [hq'] at hq
    cases hq
    exact hnumbered

end ThreeAddress.Amd64
