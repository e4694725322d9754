import ThreeAddress.Proofs.Amd64.LoweredOperators
import ThreeAddress.Proofs.Control.BlockSimulation

/-!
# Lowered instructions

The code of an assignment assigns what the instruction yields, and a conditional jump is taken by
the machine exactly if it is taken by three-address code.
-/

namespace ThreeAddress

open Instr ScalarType Option ThreeAddress.Const

variable {ptr : Value}

namespace Const

theorem setWidth_signExtend {m n k : Nat} (x : BitVec m) (h : k ≤ n) :
    (x.signExtend n).setWidth k = x.signExtend k := by
  apply BitVec.eq_of_getLsbD_eq
  intro i hi
  rw [BitVec.getLsbD_setWidth, BitVec.getLsbD_signExtend, BitVec.getLsbD_signExtend,
    decide_eq_true hi, decide_eq_true (by omega), Bool.true_and]

theorem ofWord_raw_eq_as {t : ScalarType} (c : Const) : ofWord t c.raw = c.as t := by
  rw [ofWord, raw, BitVec.setWidth_setWidth_of_le _ t.width_le]
  rfl

end Const

namespace Amd64

/-- A storage in which all variables have the values that they have in a state of three-address
code. -/
def Layout.Matches {ctx : LoweringContext} {e : Setting} (L : Layout ctx e) (top : Option Const)
    (s : SourceState) (m : Storage) : Prop := ∃ A : Sketch, A.Describes e m ∧ A.Agrees L top s

/-- An outcome of machine code is that of three-address code. -/
def Layout.Follows {ctx : LoweringContext} {e : Setting} (L : Layout ctx e) (top : Option Const) :
    SourceState.Step → Procedure.Step → Prop :=
  Outcome.Follows (L.Matches top) (fun s m => m.trace = s.trace) ctx.qualified

/-- Machine code that does what an instruction of three-address code does. -/
def Procedure.Simulates (p : Procedure) {ctx : LoweringContext} {e : Setting} (L : Layout ctx e)
    (top : Option Const) (code : List Instr) (i : ThreeAddress.Instr) : Prop :=
  ∀ ⦃s m⦄, L.Matches top s m →
    L.Follows top (s.execute ctx e i) ((p.machine e (e.checks true)).block m code)

section

variable {ctx : LoweringContext} {e : Setting} {L : Layout ctx e} {p : Procedure} {A B : Sketch}
  {s : SourceState} {top : Option Const} {v dst : Variable} {c : Const} {o : Operand} {d : Place}
  {t t' : ScalarType} {st : LoweringState} {src : Value}

/-! ### Reading at another type -/

theorem Sketch.fetch?_of_le (h : A.fetch? e t d = some c) (ht : t'.size ≤ t.size) :
    A.fetch? e t' d = some (c.as t') := by
  have hwidth : t'.width ≤ t.width := by
    rw [width, width]
    omega
  rw [← ofWord_raw_eq_as]
  cases d with
  | value x =>
    cases h
    exact congrArg some (ofWord_congr (low_eq_of_le hwidth (low_low _ _)).symm)
  | cell l =>
    obtain ⟨c₁, hl, hc⟩ := bind_eq_some_iff.mp h
    split at hc
    · rename_i hle
      cases hc
      rw [fetch?_cell hl (Nat.le_trans hwidth hle)]
      exact congrArg some (ofWord_congr (low_eq_of_le hwidth (low_low _ _)).symm)
    · cases hc
  | address a =>
    simp only [fetch?] at h ⊢
    split at h
    · rename_i hshared
      cases h
      rw [if_pos fun i hi => hshared i (by omega)]
      have hload := low_loadBytes A.bytes a ht t.size_le
      refine congrArg some (ofWord_congr ?_)
      rw [raw_ofWord, low_eq_of_le hwidth (low_low _ _), width, hload,
        low_loadBytes A.bytes a (Nat.le_refl _) t'.size_le]
    · cases h

theorem Sketch.read?_of_le (h : A.read? p e o t = some c) (ht : t'.size ≤ t.size) :
    A.read? p e o t' = some (c.as t') := by
  obtain ⟨d, hd, hfetch⟩ := bind_eq_some_iff.mp h
  rw [read?, hd]
  exact fetch?_of_le hfetch ht

/-! ### Conversions and copies -/

theorem SourceState.assign_as : s.assign ctx e v (c.as v.type) = s.assign ctx e v c := by
  unfold SourceState.assign
  rw [as_as_self]

namespace LoweringContext

theorem assigns_extension {op : Opcode} {g : Word → Word} (value : Const → Const)
    (hdst : L.Has dst) (hsrc : L.HasValue src)
    (hop : Instr.computation? e.hardware
      ⟨op, .ofType dst.type, [ctx.variableOperandOf dst, ctx.operandOf src]⟩ = some (.convert (ctx.variableOperandOf dst) (.ofType dst.type) (ctx.operandOf src)
        (.ofType src.type) g))
    (hvalue : ∀ c : Const, c.type = src.type → Const.ofWord dst.type (g c.raw) = value c) :
    L.Assigns [⟨op, .ofType dst.type, [ctx.variableOperandOf dst, ctx.operandOf src]⟩] dst
      fun s => (s.eval? ctx e src).map value := by
  intro p hp top A s c hA hc
  obtain ⟨a, ha, rfl⟩ := map_eq_some_iff.mp hc
  have hta := SourceState.eval?_type ha
  rw [← hta] at hop
  rw [← hvalue a hta]
  exact ⟨_, .convert hop (hA.read?_eval hp hsrc ha) (hp.place?_variable hdst.1) hdst.writable,
    hA.set_variable hdst rfl⟩

theorem gives_convert {conversion : Conversion} (hL : L.Ordinary) (hdst : L.Has dst)
    (hsrc : L.HasValue src) (hvalid : conversion.isValid src.type dst.type = true)
    (hs : src.type ≠ .double) (hd : dst.type ≠ .double) :
    ctx.Gives (dst :: src.var?.toList) (ctx.convert dst conversion src) st fun code _ =>
      L.Assigns code dst fun s => (s.eval? ctx e src).bind fun c => conversion.eval c dst.type := by
  have hsource := ScalarType.isDouble_eq_false hs
  have htarget := ScalarType.isDouble_eq_false hd
  refine .withVariable hL hdst fun _ => ?_
  cases conversion with
  | signExtend =>
    refine .subset (.withOperand hL hsrc hs fun _ => .pure ?_) (by simp)
    refine (assigns_extension (fun c => ⟨dst.type, c.bits.signExtend dst.type.width⟩) hdst hsrc
      rfl ?_).mono fun s c h => by simpa [Conversion.eval, map_eq_bind] using h
    intro c hc
    rw [← hc, Const.raw,
      Width.apply_ofWord (Width.bits_ofType c.type) (fun _ x => x.signExtend 64) c.bits]
    exact congrArg (Const.mk dst.type) (Const.setWidth_signExtend _ dst.type.width_le)
  | zeroExtend =>
    refine .subset (.withOperand hL hsrc hs fun _ => .pure ?_) (by simp)
    refine (assigns_extension (fun c => c.as dst.type) hdst hsrc rfl ?_).mono
      fun s c h => by simpa [Conversion.eval, map_eq_bind] using h
    intro c hc
    rw [← hc, Width.bits_ofType, c.low_raw, Const.ofWord_raw_eq_as]
  | truncate =>
    have hsize : dst.type.size ≤ src.type.size := by
      simp only [Conversion.isValid, hsource, htarget, Bool.not_false, Bool.true_and,
        decide_eq_true_eq] at hvalid
      omega
    cases src with
    | const c =>
      refine .pure ?_
      intro p hp top A s c₁ hA hc
      cases hc
      have hvalue : .ofInt dst.type (c.toInt?.getD 0) = c.as dst.type := by
        rw [Const.toInt?_eq hs, getD_some, Const.ofInt_eq hd, Const.ofInt_value_of_le]
        · rfl
        · exact Nat.mul_le_mul_left 8 hsize
      have hread : A.read? p e (immediate (.ofInt dst.type (c.toInt?.getD 0))) dst.type =
          some (c.as dst.type) := by
        rw [hvalue]
        exact congrArg some (c.as dst.type).ofWord_ofInt_toInt
      exact ⟨_, hA.move hp hdst hread⟩
    | var v =>
      refine .withVariable hL (hsrc v rfl) fun _ => .pure ?_
      intro p hp top A s c hA hc
      obtain ⟨a, ha, hc⟩ := bind_eq_some_iff.mp hc
      cases hc
      exact ⟨_, hA.move hp hdst (Sketch.read?_of_le (hA.read?_variable hp (hsrc v rfl) ha) hsize)⟩
  | intToDouble | uintToDouble => simp [Conversion.isValid, htarget] at hvalid
  | _ => simp [Conversion.isValid, hsource] at hvalid

theorem gives_copy (hL : L.Ordinary) (hdst : L.Has dst) (hsrc : L.HasValue src)
    (hs : src.type ≠ .double) (hsize : dst.type.size = src.type.size) :
    ctx.Gives (dst :: src.var?.toList) (ctx.instr (.copy dst src)) st fun code _ =>
      L.Assigns code dst fun s => s.eval? ctx e src := by
  refine .subset (.withVariable hL hdst fun _ => .withOperand hL hsrc hs fun _ => .pure ?_)
    (by simp)
  intro p hp top A s c hA hc
  have hread := Sketch.read?_of_le (hA.read?_operand hp hsrc hc) (Nat.le_of_eq hsize)
  obtain ⟨hmove, hB⟩ := hA.move hp hdst hread
  rw [SourceState.assign_as] at hB
  exact ⟨_, hmove, hB⟩

/-! ### Addresses and memory -/

theorem gives_addressOf (hL : L.Ordinary) (hdst : L.Has dst) (hv : L.Has v)
    (hd : dst.type = .pointer) :
    ctx.Gives [dst, v] (ctx.instr (.addressOf dst (.var v))) st fun code _ =>
      L.Assigns code dst fun _ => (ctx.address? e v.name).map fun a => ⟨.pointer, a⟩ := by
  refine .withVariable hL hdst fun _ => .withVariable hL hv fun _ => .pure ?_
  intro p hp top A s c hA hc
  obtain ⟨a, ha, rfl⟩ := map_eq_some_iff.mp hc
  have hplace := hp.place?_variable (A := A) hv.1
  rw [home, ha] at hplace
  have hlea := Procedure.Runs.lea hplace (hp.place?_variable hdst.1) (hd ▸ hdst.writable)
  exact ⟨_, hlea, hA.set_variable hdst hd.symm⟩

end LoweringContext

theorem Sketch.Agrees.movePointer {a : Const} (hA : A.Agrees L top s) (hp : p.Hosts L)
    (hptr : L.HasValue ptr) (htype : ptr.type = .pointer) (ha : s.eval? ctx e ptr = some a) :
    ∃ B, p.Runs e [⟨.mov, .quad, [.reg .r11, ctx.operandOf ptr]⟩] A B ∧ B.Agrees L top s ∧
      B.place? p e (.memory .r11 0) = some (.address a.raw) := by
  have hread := hA.read?_operand hp hptr ha
  have hta := (SourceState.eval?_type ha).trans htype
  rw [htype] at hread
  have hmove := Procedure.Runs.move (d := .reg .r11) hread rfl trivial
  refine ⟨_, hmove, hA.set_scratch (L.isScratch_reg (by decide)), ?_⟩
  have hfetch : (A.set (.cell (.reg .r11)) a).fetch? e .pointer (.cell (.reg .r11)) = some a := by
    rw [← hta]
    exact fetch?_set_self trivial
  rw [place?, hfetch]
  simp

theorem SourceState.leadsTo_iff {n : Nat} :
    SourceState.leadsTo e c n = true ↔ ∀ i < n, e.region (byteAt c.raw i) = .shared := by
  simp [leadsTo]

namespace LoweringContext

theorem gives_load (hL : L.Ordinary) (hdst : L.Has dst) (hptr : L.HasValue ptr)
    (htype : ptr.type = .pointer) :
    ctx.Gives (ptr.var?.toList ++ [dst]) (ctx.instr (.load dst ptr)) st fun code _ =>
      L.Assigns code dst fun s => s.result? ctx e (.load dst ptr) := by
  refine .withOperand hL hptr (by rw [htype]; decide) fun _ =>
    .withVariable hL hdst fun _ => .pure ?_
  intro p hp top A s c hA hc
  obtain ⟨a, ha, hc⟩ := bind_eq_some_iff.mp hc
  obtain ⟨B, hmove, hB, hplace⟩ := hA.movePointer hp hptr htype ha
  split at hc
  · rename_i hleads
    have hread : B.read? p e (.memory .r11 0) dst.type = some c := by
      rw [Sketch.read?, hplace, bind_some, Sketch.fetch?, hB.bytes]
      rwa [if_pos (SourceState.leadsTo_iff.mp hleads)]
    obtain ⟨hload, hC⟩ := hB.move hp hdst hread
    exact ⟨_, hmove.cons hload, hC⟩
  · cases hc

theorem gives_store (hL : L.Ordinary) (hptr : L.HasValue ptr) (hsrc : L.HasValue src)
    (htype : ptr.type = .pointer) (hs : src.type ≠ .double) :
    ctx.Gives (ptr.var?.toList ++ src.var?.toList) (ctx.instr (.store ptr src)) st fun code _ =>
      ∀ ⦃p : Procedure⦄, p.Hosts L → ∀ ⦃top A s a c s'⦄, A.Agrees L top s →
        s.eval? ctx e ptr = some a → s.eval? ctx e src = some c → s.write? e a c = some s' →
        ∃ B, p.Runs e code A B ∧ B.Agrees L top s' := by
  refine .subset (.withOperand hL hptr (by rw [htype]; decide) fun _ =>
    .withOperand hL hsrc hs fun _ => .pure ?_) (by simp)
  intro p hp top A s a c s' hA ha hc hs'
  obtain ⟨B, hmove, hB, hplace⟩ := hA.movePointer hp hptr htype ha
  have hread := hB.read?_operand hp hsrc hc
  unfold SourceState.write? at hs'
  split at hs'
  · rename_i hleads
    cases hs'
    rw [← SourceState.eval?_type hc] at hread ⊢
    have hstore := Procedure.Runs.move hread hplace (SourceState.leadsTo_iff.mp hleads)
    refine ⟨_, hmove.cons hstore, hB.locals, hB.typed, ?_, hB.trace, hB.stack⟩
    show storeBytes B.bytes a.raw c.type.size c.raw = _
    rw [hB.bytes]
  · cases hs'

end LoweringContext

/-! ### Assignments -/

section

variable {i : ThreeAddress.Instr}

theorem Layout.hasValue_of_variables (h : ∀ v ∈ i.variables, L.Has v) :
    ∀ x ∈ i.reads, L.HasValue x := by
  intro x hx v hv
  refine h v ?_
  simp only [Instr.variables, Instr.readVars, List.mem_append,
    List.mem_filterMap]
  exact .inl (.inr ⟨x, hx, hv⟩)

theorem Layout.has_of_written? (h : ∀ v ∈ i.variables, L.Has v) (hdst : i.written? = some dst) :
    L.Has dst := by
  refine h dst ?_
  simp [Instr.variables, hdst]

theorem LoweringContext.Gives.variables {α : Type} {vs : List Variable} {x : Lower α}
    {P Q : α → LoweringState → Prop} (h : ctx.Gives vs x st P) (haddressed : i.addressed? = none)
    (hwritten : ∀ v, i.written? = some v → v ∈ vs)
    (hreads : ∀ x ∈ i.reads, ∀ v, x.var? = some v → v ∈ vs) (hPQ : ∀ a st', P a st' → Q a st') :
    ctx.Gives i.variables x st Q := by
  refine h.imp (fun v hv => ?_) hPQ
  simp only [Instr.variables, readVars, haddressed, bind_none, toList_none,
    List.append_nil, List.mem_append, mem_toList, List.mem_filterMap] at hv
  rcases hv with hv | ⟨x, hx, hv⟩
  · exact hwritten v hv
  · exact hreads x hx v hv

theorem ne_double_of_mem_reads (h : i.usesDouble = false) : ∀ x ∈ i.reads, x.type ≠ .double := by
  intro x hx htype
  simp only [usesDouble, Bool.or_eq_false_iff, List.any_eq_false] at h
  exact h.1.2 x hx (by simp [isDouble, htype])

theorem ne_double_of_written? (h : i.usesDouble = false) (hdst : i.written? = some dst) :
    dst.type ≠ .double := by
  intro htype
  simp [usesDouble, hdst, htype, isDouble] at h

end

namespace LoweringContext

theorem gives_assignment {i : ThreeAddress.Instr} {returns : Option ScalarType}
    {arity? : String → Option Nat} (hL : L.Ordinary)
    (hvars : ∀ v ∈ i.variables, L.Has v) (hdouble : i.usesDouble = false)
    (htype : i.typeDefect? returns arity? = none) (hpure : i.isPure = true)
    (hdst : i.written? = some dst) :
    ctx.Gives i.variables (ctx.instr i) st fun code _ =>
      L.Assigns code dst fun s => s.result? ctx e i := by
  have hhas := Layout.has_of_written? hvars hdst
  have hvalues := Layout.hasValue_of_variables hvars
  have hreads := ne_double_of_mem_reads hdouble
  have hd := ne_double_of_written? hdouble hdst
  cases i with
  | unary dst' op src =>
    cases hdst
    have hresult : dst.type = if op = .not then .int else src.type := by
      cases op with
      | not => exact eq_of_mismatch? htype
      | negate => exact eq_of_mismatch? htype
      | complement =>
        simp only [typeDefect?] at htype
        split at htype
        · cases htype
        · exact eq_of_mismatch? htype
    exact (gives_unary hL hhas (hvalues src (.head _)) (hreads src (.head _)) hresult).variables rfl
      (by simp [written?]) (by simp +contextual [ThreeAddress.Instr.reads])
      fun _ _ h => h
  | binary dst' op lhs rhs =>
    cases hdst
    exact (gives_binary hL hhas (hvalues lhs (.head _)) (hvalues rhs (.tail _ (.head _))) htype
      (hreads lhs (.head _)) (hreads rhs (.tail _ (.head _)))).variables rfl
      (by simp [written?]) (by simp +contextual [ThreeAddress.Instr.reads])
      fun _ _ h => h
  | copy dst' src =>
    cases hdst
    have hsize : dst.type.size = src.type.size := by
      simp only [typeDefect?] at htype
      split at htype
      · rename_i hcopies
        simp only [copiesTo, Bool.and_eq_true, beq_iff_eq] at hcopies
        exact hcopies.1
      · cases htype
    exact (gives_copy hL hhas (hvalues src (.head _)) (hreads src (.head _)) hsize).variables rfl
      (by simp [written?]) (by simp +contextual [ThreeAddress.Instr.reads])
      fun _ _ h => h
  | addressOf dst' src =>
    cases hdst
    cases src with
    | const c => cases htype
    | var v =>
      have hv : L.Has v := hvars v (by simp [Instr.variables, addressed?, Value.var?])
      exact gives_addressOf hL hhas hv (eq_of_mismatch? htype)
  | load dst' ptr =>
    cases hdst
    exact (gives_load hL hhas (hvalues ptr (.head _)) (eq_of_mismatch? htype)).variables rfl
      (by simp [written?]) (by simp +contextual [ThreeAddress.Instr.reads])
      fun _ _ h => h
  | convert dst' conversion src =>
    cases hdst
    exact (gives_convert hL hhas (hvalues src (.head _)) (isValid_of_typeDefect? htype)
      (hreads src (.head _)) hd).variables rfl
      (by simp [written?]) (by simp +contextual [ThreeAddress.Instr.reads])
      fun _ _ h => h
  | _ => cases hpure

/-! ### Conditional jumps -/

/-- The code of a conditional jump.  The jump is taken exactly if the value is as it should be. -/
theorem gives_conditionalJump {x : Value} {target : Label} {ifZero : Bool} (hL : L.Ordinary)
    (hx : L.HasValue x) (ht : x.type ≠ .double) :
    ctx.Gives x.var?.toList (ctx.conditionalJump x target ifZero) st fun code _ =>
      ∀ ⦃p : Procedure⦄, p.Hosts L → ∀ ⦃top s m c⦄, L.Matches top s m → s.eval? ctx e x = some c →
        ∃ m', L.Matches top s m' ∧ (p.machine e (e.checks true)).block m code =
          if c.isZero = ifZero then .jump (ctx.qualified target) m' else .next m' := by
  refine .subset (.withOperand hL hx ht fun _ => .ifNeg (ScalarType.not_isDouble ht) (.pure ?_))
    (by simp)
  rintro p hp top s m c ⟨A, hm, hA⟩ hc
  rw [← SourceState.eval?_type hc] at ht ⊢
  obtain ⟨m', hblock, hm'⟩ := Procedure.Runs.cmpZero ht (hA.read?_eval hp hx hc) m hm
  refine ⟨m', ⟨_, hm', hA.withFlags _⟩, ?_⟩
  have hflags := hm'.flags _ rfl
  have hf := holds_e_ofSub_zero ht
  -- The condition is that the comparison finds the value equal, or not.
  have hholds : (if ifZero then Condition.e else .ne).holds m'.flags = (c.isZero == ifZero) := by
    cases ifZero with
    | true => simp [hflags, hf]
    | false => simp [hflags, Condition.holds, ← hf]
  rw [← List.singleton_append, Machine.block_append_of_next hblock, Machine.block_singleton]
  show (if (if ifZero then Condition.e else .ne).holds m'.flags = true then _ else _) = _
  simp only [hholds, beq_iff_eq]

end LoweringContext

/-! ### Simulation -/

theorem Layout.Assigns.simulates {code : List Instr} {i : ThreeAddress.Instr}
    (h : L.Assigns code dst fun s => s.result? ctx e i) (hp : p.Hosts L) (hpure : i.isPure = true)
    (hdst : i.written? = some dst) : p.Simulates L top code i := by
  rintro s m ⟨A, hm, hA⟩
  rw [SourceState.execute_of_isPure hpure hdst]
  cases hresult : s.result? ctx e i with
  | none => trivial
  | some c =>
    obtain ⟨B, hrun, hB⟩ := h hp hA hresult
    obtain ⟨m', hblock, hm'⟩ := hrun m hm
    rw [hblock]
    exact ⟨B, hm', hB⟩

theorem LoweringContext.gives_branch {i : ThreeAddress.Instr} {x : Value} {l : Label}
    {ifZero : Bool} (hL : L.Ordinary) (hx : L.HasValue x) (ht : x.type ≠ .double)
    (hexecute : ∀ s, SourceState.execute ctx e s i =
      s.withValue ctx e x fun c => if c.isZero = ifZero then .jump l s else .next s) :
    ctx.Gives x.var?.toList (ctx.conditionalJump x l ifZero) st fun code _ =>
      ∀ ⦃p : Procedure⦄, p.Hosts L → ∀ top, p.Simulates L top code i := by
  refine (gives_conditionalJump hL hx ht).imp (List.Subset.refl _)
    fun code _ hjump p hp top s m h => ?_
  rw [hexecute, SourceState.withValue]
  cases hc : s.eval? ctx e x with
  | none => trivial
  | some c =>
    obtain ⟨m', hm', hblock⟩ := hjump hp h hc
    rw [hblock]
    show L.Follows top (if c.isZero = ifZero then .jump l s else .next s) _
    by_cases hzero : c.isZero = ifZero
    · rw [if_pos hzero, if_pos hzero]
      exact ⟨rfl, hm'⟩
    · rw [if_neg hzero, if_neg hzero]
      exact hm'

theorem LoweringContext.gives_jump {i : ThreeAddress.Instr} {l : Label} (hL : L.Ordinary)
    (hvars : ∀ v ∈ i.variables, L.Has v) (hdouble : i.usesDouble = false)
    (htarget : i.target? = some l) :
    ctx.Gives i.variables (ctx.instr i) st fun code _ =>
      ∀ ⦃p : Procedure⦄, p.Hosts L → ∀ top, p.Simulates L top code i := by
  have hvalues := Layout.hasValue_of_variables hvars
  have hreads := ne_double_of_mem_reads hdouble
  cases i with
  | jump l' =>
    exact .pure fun p hp top s m h => ⟨rfl, h⟩
  | jumpIfZero cond l' =>
    exact (gives_branch hL (hvalues cond (.head _))
      (hreads cond (.head _)) fun _ => rfl).variables rfl
      (by simp [written?]) (by simp [reads]) fun _ _ h => h
  | jumpIfNotZero cond l' =>
    exact (gives_branch hL (hvalues cond (.head _)) (hreads cond (.head _))
      fun _ => SourceState.execute_jumpIfNotZero).variables rfl
      (by simp [written?]) (by simp [reads]) fun _ _ h => h
  | _ => cases htarget

end

end Amd64

end ThreeAddress
