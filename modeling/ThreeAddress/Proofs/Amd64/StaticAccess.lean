import ThreeAddress.Proofs.Amd64.AllocatedBodies
import ThreeAddress.Proofs.Amd64.EncodableParts
import ThreeAddress.Proofs.Amd64.GeneratedLabels

/-!
# Accesses to static variables

Verification gives every name of a function one type, and a static variable that no parameter hides
has its own type (`Program.static_types`).  So the code that is emitted for an instruction accesses
a static variable with all the bytes that are reserved for it (`static_access_width`).  There are
three exceptions.  An instruction that takes the address accesses nothing.  A truncation reads as
many bytes as its result has.  A truth value is written as a whole, and then its lowest byte is set.
-/

namespace ThreeAddress

open List

variable {returns : Option ScalarType} {arity? : String → Option Nat}

/-! ### Types of static variables -/

/-- A static variable is declared with its own type, unless a parameter of another type has its
name. -/
theorem declaredType?_static {params : List Variable} {statics : List StaticVariable}
    {s : StaticVariable} (hdistinct : (statics.map StaticVariable.name).Nodup) (hs : s ∈ statics)
    (hparams : ∀ v ∈ params, v.name = s.name → v.type = s.type) :
    declaredType? params statics s.name = some s.type := by
  rw [declaredType?, find?_of_nodup hdistinct hs]
  cases hfind : params.find? fun v => v.name == s.name with
  | none => rfl
  | some v =>
    have hname : v.name = s.name := by simpa using find?_some hfind
    have hv := hparams v (mem_of_find?_eq_some hfind) hname
    exact congrArg some hv

/-- A variable that has the name of a static variable has its type. -/
def StaticVariable.Types (s : StaticVariable) (v : Variable) : Prop :=
  v.name = s.name → v.type = s.type

/-- The variable of a value has the type of the static variable, if it has its name. -/
def StaticVariable.TypesValue (s : StaticVariable) (x : Value) : Prop := ∀ v ∈ x.var?, s.Types v

/-- Verification gives a static variable its own type wherever its name occurs in a function, if it
has that type as a parameter. -/
theorem Program.static_types {p : Program} {c : Config} {f : Function} {s : StaticVariable}
    (hverify : p.verify c = .ok ()) (hf : f ∈ p.functions)
    (hdistinct : (p.statics.map StaticVariable.name).Nodup) (hs : s ∈ p.statics)
    (hparams : ∀ v ∈ f.params, s.Types v) : ∀ i ∈ f.body, ∀ v ∈ i.variables, s.Types v := by
  obtain ⟨table, hextends, haccepted, -, hnodup⟩ := p.accepted_of_verify hverify hf
  intro i hi v hv hname
  have hstatic := hextends s.name s.type <| by
    rw [TypeTable.getElem?_initial hnodup, declaredType?_static hdistinct hs hparams]
  have htype := haccepted.variable_type i hi v hv
  simpa [hname, hstatic] using htype.symm

namespace Amd64

variable {op : Opcode}

/-! ### Operands -/

/-- How many bytes a directive reserves. -/
def Directive.bytes : Directive → Nat
  | byte _ => 1
  | long _ => 4
  | quad _ => 8
  | zero n => n
  | _ => 0

/-- A static variable has as many bytes as its type. -/
theorem bytes_initialiser (c : Const) : (initialiser c).bytes = c.type.size := by
  unfold initialiser
  split
  · rfl
  · cases c.type <;> rfl

/-- Different names have different symbols. -/
theorem symbol_injective (platform : Platform) : Function.Injective platform.symbol := by
  intro x y h
  cases platform with
  | linux => exact h
  | macos => exact (String.append_right_inj _).mp h

/-- If the operand is the symbol, then the width is that of so many bytes. -/
def Operand.Fits (symbol : String) (size : Nat) (w : Width) (o : Operand) : Prop :=
  o = .data symbol → w.size = size

variable {platform : Platform} {s : StaticVariable} {w v : Width} {o d a b : Operand}
  {t : ScalarType} {symbol : String} {size : Nat} {addressed : Prop}

theorem Operand.fits_of_ne (h : ∀ symbol, o ≠ .data symbol) : o.Fits symbol size w :=
  fun ho => absurd ho (h _)

/-! ### Instructions -/

/-- Instructions that access a symbol with so many bytes, whatever scratch registers are needed to
encode them. -/
inductive Instr.Respects (symbol : String) (size : Nat) (addressed : Prop) : Instr → Prop
  /-- All operands have one width. -/
  | uniform {op : Opcode} {w : Width} {operands : List Operand}
      (hwidths : (⟨op, w, operands⟩ : Instr).operandWidths = operands.map fun _ => w)
      (hlength : operands.length ≤ 2) (h : ∀ o ∈ operands, o.Fits symbol size w) :
      Respects symbol size addressed ⟨op, w, operands⟩
  /-- The operands have widths of their own. -/
  | mixed {op : Opcode} {w v : Width} {a b : Operand}
      (hwidths : (⟨op, w, [a, b]⟩ : Instr).operandWidths = [w, v] ∨ op = .movzx .long ∧ v = .long)
      (ha : a.Fits symbol size w) (hb : b.Fits symbol size v) :
      Respects symbol size addressed ⟨op, w, [a, b]⟩
  /-- The address is loaded. -/
  | address {d a : Operand} (hd : d.Fits symbol size .quad) (ha : a = .data symbol → addressed) :
      Respects symbol size addressed ⟨.lea, .quad, [d, a]⟩

namespace Instr.Respects

theorem one (hwidths : (⟨op, w, [a]⟩ : Instr).operandWidths = [w]) (ha : a.Fits symbol size w) :
    Respects symbol size addressed ⟨op, w, [a]⟩ :=
  .uniform hwidths (by decide : 1 ≤ 2) (by simpa using ha)

theorem two (hwidths : (⟨op, w, [a, b]⟩ : Instr).operandWidths = [w, w])
    (ha : a.Fits symbol size w) (hb : b.Fits symbol size w) :
    Respects symbol size addressed ⟨op, w, [a, b]⟩ :=
  .uniform hwidths (Nat.le_refl 2) (by simp [ha, hb])

end Instr.Respects

/-! ### Lowered code -/

open Operand Instr.Respects

/-- The instruction takes the address of the static variable. -/
def TakesAddress (s : StaticVariable) (source : ThreeAddress.Instr) : Prop :=
  ∃ dst v, source = .addressOf dst (.var v) ∧ v.name = s.name

/-- The forms of instructions that access a symbol with so many bytes. -/
def Forms.respected (symbol : String) (size : Nat) (addressed : Prop) : Forms where
  allows _ := True
  has t o := o = .data symbol → size = t.size
  fits := Fits symbol size
  addressable o := o = .data symbol → addressed
  narrows := False
  registers := True
  calls := True

theorem Instr.HasForm.respects {i : Instr} {targets : Label → Prop}
    (h : i.HasForm (.respected symbol size addressed) targets) :
    i.Respects symbol size addressed := by
  cases h with
  | copy hd hs => exact .two rfl hd.2 hs.2
  | toRegister _ _ hs | store _ hs => exact .two rfl (fits_of_ne nofun) hs.2
  | ofRegister _ hd | ofStack hd | load _ hd => exact .two rfl hd.2 (fits_of_ne nofun)
  | combine hop hd hs =>
    refine .two ?_ hd.2 hs.2
    rcases hop with hop | ⟨rfl, -⟩
    · fin_cases hop <;> rfl
    · rfl
  | modify hop hd => fin_cases hop <;> exact .one rfl hd.2
  | shift hop _ hd | shiftByRegister _ hop hd =>
    fin_cases hop <;> exact .mixed (v := .byte) (.inl rfl) hd.2 (fits_of_ne nofun)
  | compare ha hb | compareDoubles ha hb => exact .two rfl ha.2 hb.2
  | @extend _ v _ _ _ hop hd hs =>
    refine .mixed ?_ hd.2 hs.2
    rcases hop with rfl | rfl
    · exact .inl rfl
    · cases v with
      | long => exact .inr ⟨rfl, rfl⟩
      | _ => exact .inl rfl
  | toDouble hd hs | toInteger hd hs => exact .mixed (.inl rfl) hd.2 hs.2
  | clearUpper => exact .two rfl (fits_of_ne nofun) (fits_of_ne nofun)
  | signUpper | ret => exact .uniform rfl (Nat.zero_le 2) fun _ h => nomatch h
  | divide _ hop _ hs => fin_cases hop <;> exact .one rfl hs.2
  | address hd ha => exact .address hd.2 ha
  | jump | branch | label | call | pushRegister => exact .one rfl (fits_of_ne nofun)
  | push _ hs hsize => exact .one rfl fun ho => (hsize ⟨_, ho⟩).symm.trans (hs.2 ho)
  | moveStack hop => fin_cases hop <;> exact .two rfl (fits_of_ne nofun) (fits_of_ne nofun)
  | truncate h | setByte h => cases h

/-- The rules for instructions that access the static variable as a whole, if no constant has its
symbol. -/
def FormRules.respected (ctx : LoweringContext) (s : StaticVariable)
    (source : ThreeAddress.Instr) : FormRules ctx where
  toForms := .respected (ctx.platform.symbol s.name) s.type.size (TakesAddress s source)
  state st := ctx.platform.symbol s.name ∉ st.constants.entries.map PoolEntry.name ∧
    ∀ k, ctx.platform.symbol s.name ≠ ConstantPool.entryName st.constants.platform k
  accepts := s.TypesValue
  allows_of_ne _ := trivial
  allows_of_accepts _ := trivial
  allows_of_fits _ := trivial
  fits_of_has h ho := (Width.size_ofType _).trans (h ho).symm
  fits_of_size h _ hsize _ ho := hsize.trans (h ho)
  fits_of_ne _ h _ := Operand.fits_of_ne h
  has_of_ne _ h _ ho := absurd ho (h _)
  has_variable h ho :=
    (congrArg ScalarType.size (h _ rfl (symbol_injective _ (Operand.data.inj ho)))).symm
  intern := by
    intro st x n _ ⟨hst, hplatform⟩
    rcases st.constants.intern_cases x n with ⟨e, he, heq⟩ | heq
    · rw [heq]
      exact ⟨⟨hst, hplatform⟩, fun ho => absurd (mem_map.mpr ⟨e, he, Operand.data.inj ho⟩) hst⟩
    · rw [heq]
      refine ⟨⟨?_, hplatform⟩, fun ho => absurd (Operand.data.inj ho).symm (hplatform _)⟩
      rw [map_append, mem_append, not_or]
      exact ⟨hst, by simpa using hplatform _⟩
  state_drawn := id
  state_noted _ _ := id
  state_labels := id
  state_arguments := id

/-- What the code of an instruction is lowered to, by how it accesses a static variable. -/
inductive AccessCode (symbol : String) (s : StaticVariable) (source : ThreeAddress.Instr) :
    List Instr → Prop
  /-- The variable is accessed as a whole. -/
  | whole {code : List Instr}
      (h : ∀ i ∈ code, i.Respects symbol s.type.size (TakesAddress s source)) :
      AccessCode symbol s source code
  /-- The lowest bytes are read. -/
  | truncation {dst v : Variable} {d : Operand} (hsource : source = .convert dst .truncate (.var v))
      (hv : v.name = s.name) (hd : d ≠ .data symbol) :
      AccessCode symbol s source [⟨.mov, .ofType dst.type, [d, .data symbol]⟩]
  /-- A truth value is written, and then its lowest byte is set. -/
  | truth {dst : Variable} (test : TruthTest) (hsource : truthValue? source = some dst)
      (hdst : dst.name = s.name) (hs : s.type = .int)
      (h : ∀ i ∈ test.others (.data symbol), i.Respects symbol s.type.size
        (TakesAddress s source)) :
      AccessCode symbol s source (test.code (.data symbol))

namespace LoweringContext

open Lower

variable {ctx : LoweringContext} {i : ThreeAddress.Instr}

theorem name_eq_of_variableOperandOf {v : Variable}
    (h : ctx.variableOperandOf v = .data (ctx.platform.symbol s.name)) : v.name = s.name := by
  rcases ctx.variableOperandOf_cases v with heq | heq <;> rw [heq] at h
  · exact symbol_injective _ (Operand.data.inj h)
  · cases h

/-- A truth value is written to the static variable, or to another place. -/
theorem accessCode_truth {dst : Variable} {code : List Instr} (hi : truthValue? i = some dst)
    (hdst : s.Types dst) (hint : dst.type = .int)
    (h : IsTruth (FormRules.respected ctx s i).toForms (ctx.variableOperandOf dst) code) :
    AccessCode (ctx.platform.symbol s.name) s i code := by
  let R := FormRules.respected ctx s i
  obtain ⟨test, hcompare, hskip⟩ := h
  have hd : R.IsVariable .int (ctx.variableOperandOf dst) := by
    rw [← hint]
    exact R.isVariable fun v hv => by cases hv; exact hdst
  have hothers : ∀ j ∈ test.others (ctx.variableOperandOf dst), j.Respects _ _ _ := fun j hj =>
    (TruthTest.hasForm (hcompare fun _ => True) hskip hd.writes
      (R.reads_imm (w := .long) nofun _) (fun _ _ => trivial) j hj).respects
  by_cases heq : ctx.variableOperandOf dst = .data (ctx.platform.symbol s.name)
  · have hname := name_eq_of_variableOperandOf heq
    rw [heq] at hothers ⊢
    exact .truth test hi hname ((hdst hname).symm.trans hint) hothers
  · refine .whole fun j hj => ?_
    rcases TruthTest.mem_code.mp hj with rfl | hj
    · exact .one rfl fun h => absurd h heq
    · exact hothers j hj

theorem accessCode_truncation {dst v : Variable} (hdst : s.Types dst) (hv : s.Types v)
    (hsize : dst.type.size < v.type.size) :
    Keeps (FormRules.respected ctx s (.convert dst .truncate (.var v))).state
      (ctx.convert dst .truncate (.var v))
      (AccessCode (ctx.platform.symbol s.name) s (.convert dst .truncate (.var v))) := by
  refine .bind (ctx.keeps_variableOperand dst fun _ => id) ?_
  rintro _ rfl
  refine .bind (ctx.keeps_variableOperand v fun _ => id) ?_
  rintro _ rfl
  by_cases heq : ctx.variableOperandOf v = .data (ctx.platform.symbol s.name)
  · have hname := name_eq_of_variableOperandOf heq
    rw [heq]
    refine .pure (.truncation rfl hname fun h => ?_)
    rw [hdst (name_eq_of_variableOperandOf h), hv hname] at hsize
    exact Nat.lt_irrefl _ hsize
  · refine .pure (.whole (forall_mem_singleton.mpr (.two rfl (fun h => ?_) fun h => absurd h heq)))
    rw [Width.size_ofType, hdst (name_eq_of_variableOperandOf h)]

/-- The code of an instruction accesses the static variable of its context in one of these ways. -/
theorem accessCode_instr (hvariables : ∀ v ∈ i.variables, s.Types v)
    (htype : i.typeDefect? returns arity? = none) :
    Keeps (FormRules.respected ctx s i).state (ctx.instr i)
      (AccessCode (ctx.platform.symbol s.name) s i) := by
  simp only [Instr.variables, forall_mem_append] at hvariables
  obtain ⟨⟨hwritten, hreads⟩, haddressed⟩ := hvariables
  replace hwritten : ∀ v ∈ i.written?, s.Types v := fun v hv => hwritten v (by simpa using hv)
  replace hreads : ∀ x ∈ i.reads, s.TypesValue x := fun x hx v hv =>
    hreads v (mem_filterMap.mpr ⟨x, hx, hv⟩)
  cases htruth : truthValue? i with
  | some dst =>
    have hdst := hwritten dst (written?_of_truthValue? htruth)
    obtain ⟨hcode, hint⟩ := (FormRules.respected ctx s i).keeps_truth htruth
      (fun v hv => by cases hv; exact hdst) hreads htype
    exact hcode.mono fun code => accessCode_truth htruth hdst hint
  | none =>
    by_cases htruncation : ∃ dst v, i = .convert dst .truncate (.var v)
    · obtain ⟨dst, v, rfl⟩ := htruncation
      have hvalid := isValid_of_typeDefect? htype
      simp only [Conversion.isValid, Bool.and_eq_true, decide_eq_true_eq] at hvalid
      exact accessCode_truncation (hwritten dst rfl) (hreads _ (.head _) v rfl) hvalid.2
    · refine (FormRules.keeps_instr (fun _ => trivial) (fun _ => trivial) (fun _ _ _ _ => trivial)
        (fun h => ?_) (fun v hv h => ?_) (fun x hx v hv => ?_) (fun v hv u hu => ?_) hreads
        htype).mono fun code hcode => .whole fun j hj =>
          (@hcode (fun _ => True) (fun _ _ => trivial) (fun _ _ => trivial) j hj).respects
      · simp [htruth, htruncation] at h
      · cases i <;> cases hv
        exact ⟨_, v, rfl, name_eq_of_variableOperandOf h⟩
      · exact haddressed v (by simp [Option.mem_def.mp hx, Option.mem_def.mp hv])
      · cases hu
        exact hwritten v hv

end LoweringContext

/-! ### Allocation and encodable forms -/

theorem Replaced.eq_map {g : Operand → Operand} {code code' : List Instr}
    (h : Replaced g code code') (hself : ∀ i ∈ code, (i.mapOperands g).isSelfMove = false) :
    code' = code.map (Instr.mapOperands g) := by
  induction h with
  | nil => rfl
  | keep i _ ih => rw [map_cons, ih (forall_mem_cons.mp hself).2]
  | drop hi _ ih =>
    rw [(forall_mem_cons.mp hself).1] at hi
    cases hi

namespace Instr

variable {i j : Instr}

theorem Stands.eq_data {refused : Bool} {o o' : Operand} (h : Stands refused o o')
    (ho' : o' = .data symbol) : o = .data symbol ∧ refused = false := by
  cases h with
  | same hlegal => exact ⟨ho', hlegal⟩
  | scratch hr => cases ho'

namespace Respects

theorem mapOperands {g : Operand → Operand}
    (hg : ∀ o symbol, g o = .data symbol → o = .data symbol)
    (h : i.Respects symbol size addressed) : (i.mapOperands g).Respects symbol size addressed := by
  have hfits {w : Width} {o : Operand} (ho : o.Fits symbol size w) : (g o).Fits symbol size w :=
    fun heq => ho (hg o _ heq)
  cases h with
  | @uniform op w operands hwidths hlength h =>
    refine .uniform ?_ (by rwa [length_map])
      (forall_mem_map.mpr fun o ho => hfits (h o ho))
    rw [map_map]
    exact (operandWidths_mapOperands ⟨op, w, operands⟩ g).trans hwidths
  | @mixed op w v a b hwidths ha hb =>
    refine .mixed ?_ (hfits ha) (hfits hb)
    exact hwidths.imp_left (operandWidths_mapOperands ⟨op, w, [a, b]⟩ g).trans
  | address hd ha => exact .address (hfits hd) fun heq => ha (hg _ _ heq)

section

variable (h : i.Respects symbol size addressed)

include h

theorem operandWidths_length : i.operands.length ≤ i.operandWidths.length := by
  cases h with
  | uniform hwidths => simp [hwidths]
  | mixed hwidths =>
    rcases hwidths with hwidths | ⟨rfl, -⟩
    · simp [hwidths]
    · exact Nat.le_refl 2
  | _ => exact Nat.le_refl _

/-- A first operand is accessed with the width of the instruction, if it is routed through a scratch
register. -/
theorem first_fits (ho : i.operands[0]? = some o) : o.Fits symbol size i.width := by
  cases h with
  | uniform hwidths hlength h => exact h o (mem_of_getElem? ho)
  | mixed _ hd | address hd =>
    cases ho
    exact hd

/-- An operand that stays is accessed with its width, unless its address is loaded. -/
theorem operand_fits {k : Nat} (ho : i.operands[k]? = some (.data symbol))
    (hw : i.operandWidths[k]? = some w)
    (hlegal : k = 0 → i.isFirstIllegal (.data symbol) = false) :
    w.size = size ∨ addressed ∧ k = 1 ∧ ∃ d, i = ⟨.lea, .quad, [d, .data symbol]⟩ := by
  cases h with
  | uniform hwidths _ h =>
    rw [hwidths, getElem?_map, ho] at hw
    cases hw
    exact .inl (h _ (mem_of_getElem? ho) rfl)
  | mixed hwidths ha hb =>
    rcases hwidths with hwidths | ⟨rfl, rfl⟩
    · rw [hwidths] at hw
      match k, ho with
      | 0, ho =>
        cases ho
        cases hw
        exact .inl (ha rfl)
      | 1, ho =>
        cases ho
        cases hw
        exact .inl (hb rfl)
    · match k, ho with
      | 0, ho => cases hlegal rfl -- The destination of an extension is a register.
      | 1, ho =>
        cases ho
        cases hw
        exact .inl (hb rfl)
  | address hd ha =>
    match k, ho with
    | 0, ho => cases hlegal rfl
    | 1, ho =>
      cases ho
      exact .inr ⟨ha rfl, rfl, _, rfl⟩

/-- The second operand of an address computation is never routed: the destination is a register by
then, so the address may be in memory. -/
theorem op_ne_lea {first first' : Operand} {rest : List Operand}
    (ho : i.operands = first :: .data symbol :: rest)
    (hfirst : Stands (i.isFirstIllegal first) first first')
    (hillegal : i.isSecondIllegal first' (.data symbol) = true) : i.op ≠ .lea := by
  obtain ⟨op, w, operands⟩ := i
  rintro rfl
  cases hfirst with
  | same hlegal =>
    cases first with
    | memory | data => cases hlegal
    | _ => cases hillegal
  | scratch _ hr => cases hillegal

/-- The encodable form of an instruction accesses the symbol as the instruction does. -/
theorem access (hj : j ∈ i.legalise) (hw : (.data symbol, w) ∈ j.operands.zip j.operandWidths) :
    w.size = size ∨ addressed ∧ ∃ d, d.isMemory = false ∧ j = ⟨.lea, .quad, [d, .data symbol]⟩ := by
  have hkept {operands : List Operand} (hlength : operands.length = i.operands.length)
      (hw : (data symbol, w) ∈ operands.zip
        ({ i with operands := operands } : Instr).operandWidths) :
      ∃ k : Nat, operands[k]? = some (data symbol) ∧ i.operandWidths[k]? = some w := by
    rw [operandWidths_of_length hlength] at hw
    obtain ⟨k, hk⟩ := mem_iff_getElem?.mp hw
    exact ⟨k, getElem?_zip_eq_some.mp hk⟩
  cases part_of_mem_legalise hj h.operandWidths_length with
  | loadFirst hfirst hillegal hr | storeFirst hfirst hillegal _ hr =>
    simp only [operandWidths, map_cons, map_nil, zip_cons_cons, zip_nil_left, mem_cons,
      Prod.mk.injEq, reduceCtorEq, false_and, not_mem_nil, or_false, false_or] at hw
    obtain ⟨rfl, rfl⟩ := hw
    exact .inl (h.first_fits hfirst rfl)
  | loadSecond hoperands hfirst hillegal hwidth hr =>
    simp only [operandWidths, map_cons, map_nil, zip_cons_cons, zip_nil_left, mem_cons,
      Prod.mk.injEq, reduceCtorEq, false_and, not_mem_nil, or_false, false_or] at hw
    obtain ⟨rfl, rfl⟩ := hw
    rcases h.operand_fits (by rw [hoperands]; rfl) hwidth nofun with hsize | ⟨-, -, d, rfl⟩
    · exact .inl hsize
    · exact absurd rfl (h.op_ne_lea hoperands hfirst hillegal)
  | none hoperands =>
    rw [hoperands] at hw
    cases hw
  | one hoperands hfirst =>
    obtain ⟨k, ho, hw⟩ := hkept (by rw [hoperands]; rfl) hw
    match k, ho with
    | 0, ho =>
      obtain ⟨rfl, hlegal⟩ := hfirst.eq_data (Option.some.inj ho)
      exact (h.operand_fits (by rw [hoperands]; rfl) hw fun _ => hlegal).imp_right
        fun ⟨_, hk, _⟩ => nomatch hk
  | @two first _ _ _ _ hoperands hfirst hsecond =>
    obtain ⟨k, ho, hw⟩ := hkept (by rw [hoperands]; rfl) hw
    match k, ho with
    | 0, ho =>
      obtain ⟨rfl, hlegal⟩ := hfirst.eq_data (Option.some.inj ho)
      exact (h.operand_fits (by rw [hoperands]; rfl) hw fun _ => hlegal).imp_right
        fun ⟨_, hk, _⟩ => nomatch hk
    | 1, ho =>
      obtain ⟨rfl, -⟩ := hsecond.eq_data (Option.some.inj ho)
      refine (h.operand_fits (by rw [hoperands]; rfl) hw nofun).imp_right ?_
      rintro ⟨haddressed, -, d, rfl⟩
      cases hoperands
      cases ho
      refine ⟨haddressed, _, ?_, rfl⟩
      -- The destination of an address is a register, or one stands for it.
      cases hfirst with
      | same hlegal => cases first <;> first | rfl | cases hlegal
      | scratch => rfl
    | k + 2, ho =>
      exact (h.operand_fits (by rw [hoperands]; exact ho) hw nofun).imp_right
        fun ⟨_, hk, _⟩ => nomatch hk
  | pushSse hop hoperands hr hj =>
    simp only [pushSse, mem_cons, not_mem_nil, or_false] at hj
    rcases hj with rfl | rfl <;> simp [operandWidths, bare] at hw

end

end Respects

end Instr

/-- How the code that is emitted for an instruction accesses a static variable with some width, in
a machine instruction that comes after others. -/
inductive StaticAccess (symbol : String) (s : StaticVariable) (source : ThreeAddress.Instr)
    (before : List Instr) (i : Instr) (w : Width) : Prop
  /-- All bytes that are reserved are accessed. -/
  | whole (h : w.size = (initialiser s.init).bytes)
  /-- The address is loaded, and nothing is accessed. -/
  | address {d : Operand} (hsource : TakesAddress s source)
      (hi : i = ⟨.lea, .quad, [d, .data symbol]⟩) (hd : d.isMemory = false)
  /-- A truncation reads as many bytes as its result has. -/
  | truncation {dst v : Variable} (hsource : source = .convert dst .truncate (.var v))
      (hv : v.name = s.name) (h : w.size = dst.type.size)
  /-- The lowest byte of a truth value is set, right after all bytes were written. -/
  | truthValue {dst : Variable} {test : TruthTest} (hsource : truthValue? source = some dst)
      (hdst : dst.name = s.name) (hi : i = test.sets (.data symbol))
      (hbefore : test.writes (.data symbol) <:+ before)
      (hwhole : Width.long.size = (initialiser s.init).bytes)

section

variable {g : Operand → Operand} {stackSize : Nat} {source : ThreeAddress.Instr}
  {lowered placed before after : List Instr} {i j : Instr}

theorem Settled.eq_data (hg : Settled g stackSize) (ho : g o = .data symbol) :
    o = .data symbol := by
  rcases hg.cases_on o with ⟨hfixed, -⟩ | hhome
  · exact hfixed.symm.trans ho
  · rw [ho] at hhome
    cases hhome

theorem Instr.Respects.staticAccess (hg : Settled g stackSize)
    (h : i.Respects symbol s.type.size (TakesAddress s source))
    (hj : j ∈ (i.mapOperands g).legalise)
    (hw : (.data symbol, w) ∈ j.operands.zip j.operandWidths) :
    StaticAccess symbol s source before j w := by
  rcases (h.mapOperands fun _ _ => hg.eq_data).access hj hw with hsize | ⟨haddress, d, hd, hj⟩
  · exact .whole (hsize.trans (bytes_initialiser s.init).symm)
  · exact .address haddress hj hd

/-- The code of a truth value stays as it is, but for the comparison. -/
theorem TruthTest.legaliseAll_code (test : TruthTest) (hg : Settled g stackSize)
    (hplaced : Replaced g (test.code (.data symbol)) placed) :
    legaliseAll placed = ((test.compare.mapOperands g).legalise ++ test.writes (.data symbol)) ++
      test.sets (.data symbol) :: test.skip.toList.map .label := by
  have hstays : ∀ i ∈ test.writes (.data symbol) ++
      test.sets (.data symbol) :: test.skip.toList.map .label,
      i.mapOperands g = i ∧ i.isSelfMove = false ∧ i.legalise = [i] := by
    have hfirst : Instr.legalise ⟨.mov, .long, [.data symbol, .imm test.first]⟩ =
        [⟨.mov, .long, [.data symbol, .imm test.first]⟩] := by
      rcases test.first_eq with heq | heq <;> rw [heq] <;> rfl
    have hdata : g (.data symbol) = .data symbol := hg.fixed rfl
    have himm : g (.imm test.first) = .imm test.first := hg.fixed rfl
    have hlabel (l : Label) : g (.label l) = .label l := hg.fixed rfl
    unfold writes sets Instr.mapOperands
    cases test.skip with
    | none => simpa [hdata, himm, hfirst] using ⟨rfl, rfl, rfl⟩
    | some l => simpa [hdata, himm, hlabel, hfirst, Instr.label, Instr.bare] using
        ⟨rfl, ⟨rfl, rfl⟩, ⟨rfl, rfl⟩, rfl, rfl⟩
  have hcompare : (test.compare.mapOperands g).isSelfMove = false := by
    rw [← Bool.not_eq_true, Instr.isSelfMove_iff]
    rintro ⟨hmov, -⟩
    have hop := test.op_mem
    rw [show test.compare.op = .mov from hmov] at hop
    simp at hop
  rw [hplaced.eq_map, legaliseAll, code, cons_append, map_cons, flatMap_cons,
    map_congr_left (g := id) fun i hi => (hstays i hi).1, map_id,
    flatMap_congr fun i hi => (hstays i hi).2.2, flatMap_singleton', append_assoc]
  refine forall_mem_cons.mpr ⟨hcompare, fun i hi => ?_⟩
  rw [(hstays i hi).1]
  exact (hstays i hi).2.1

/-- What is lowered to is accessed in the same way in the emitted code. -/
theorem AccessCode.staticAccess (hg : Settled g stackSize) (h : AccessCode symbol s source lowered)
    (hplaced : Replaced g lowered placed) (hcode : legaliseAll placed = before ++ j :: after)
    (hw : (.data symbol, w) ∈ j.operands.zip j.operandWidths) :
    StaticAccess symbol s source before j w := by
  obtain ⟨k, hk, hjk⟩ : ∃ k ∈ lowered, j ∈ (k.mapOperands g).legalise := by
    obtain ⟨k', hk', hj⟩ := mem_flatMap.mp (hcode ▸ mem_append_right _ (.head _))
    obtain ⟨k, hk, rfl⟩ := hplaced.exists_of_mem hk'
    exact ⟨k, hk, hj⟩
  cases h with
  | whole h => exact (h k hk).staticAccess hg hjk hw
  | @truncation dst v d hsource hv hd =>
    cases mem_singleton.mp hk
    have hrespects : Instr.Respects symbol (Width.ofType dst.type).size False
        ⟨.mov, .ofType dst.type, [d, .data symbol]⟩ := .two rfl (fun h => absurd h hd) fun _ => rfl
    rcases (hrespects.mapOperands fun _ _ => hg.eq_data).access hjk hw with hsize | ⟨⟨⟩, -⟩
    exact .truncation hsource hv (hsize.trans (Width.size_ofType _))
  | truth test hsource hdst hs h =>
    rcases TruthTest.mem_code.mp hk with rfl | hk
    · obtain rfl : j = test.sets (.data symbol) := by
        rw [hg.mapOperands_eq (by simp [TruthTest.sets, pseudo?])] at hjk
        exact mem_singleton.mp hjk
      by_cases hmem : test.sets (.data symbol) ∈ (test.compare.mapOperands g).legalise
      · exact (h _ (.head _)).staticAccess hg hmem hw
      -- It is the only one of its kind in the code, so what is before it is known.
      rw [test.legaliseAll_code hg hplaced] at hcode
      obtain ⟨rfl, -⟩ := (append_cons_inj_of_notMem
        (fun h => (mem_append.mp h).elim hmem (by simp [TruthTest.writes, TruthTest.sets]))
        (by simp [TruthTest.sets, Instr.label, Instr.bare])).mp hcode
      have hlong : Width.long.size = s.type.size := hs ▸ rfl
      exact .truthValue hsource hdst rfl (suffix_append ..)
        (hlong.trans (bytes_initialiser s.init).symm)
    · exact (h k hk).staticAccess hg hjk hw

end

/-! ### Functions -/

/-- No constant that is added to a pool of one of the platforms has the symbol. -/
theorem exists_platform (symbol : String) :
    ∃ platform, ∀ k, symbol ≠ ConstantPool.entryName platform k := by
  by_cases h : symbol.toList.head? = some '.'
  · refine ⟨.macos, fun k heq => ?_⟩
    rw [heq] at h
    simp [ConstantPool.entryName, Platform.localMark] at h
  · refine ⟨.linux, fun k heq => h ?_⟩
    rw [heq]
    simp [ConstantPool.entryName, Platform.localMark]

/-- The code that is emitted for an instruction: what it is lowered to, with registers and stack
slots for pseudo registers, in an encodable form. -/
def EmittedFor (ctx : LoweringContext) (g : Operand → Operand) (source : ThreeAddress.Instr)
    (code : List Instr) : Prop :=
  ∃ st lowered st' placed, (ctx.instr source).run st = .ok (lowered, st') ∧
    Replaced g lowered placed ∧ code = legaliseAll placed

section

variable {p : Program} {c : Config} {f : Function} {constants constants' : ConstantPool}
  {q : Procedure}

/-- A function is lowered to the copies of its parameters and one block for each instruction, and
they access a static variable whose symbol no constant has in the given ways. -/
theorem exists_blocks (hparams : ∀ v ∈ f.params, s.Types v)
    (hvariables : ∀ i ∈ f.body, ∀ v ∈ i.variables, s.Types v)
    (htype : ∀ i ∈ f.body, i.typeDefect? returns arity? = none)
    (hq : lowerFunction p platform f constants = .ok (q, constants'))
    (hconstants : platform.symbol s.name ∉ constants'.entries.map PoolEntry.name) :
    ∃ front blocks, q.body = front ++ blocks.flatten ∧
      (∀ i ∈ front, i.Respects (platform.symbol s.name) s.type.size (TakesAddress s (.ret none))) ∧
      List.Forall₂ (fun i code => AccessCode (platform.symbol s.name) s i code ∧
        ∃ st st', ((LoweringContext.of p platform f).instr i).run st = .ok (code, st'))
        (completed f.body) blocks := by
  obtain ⟨params, body, st₁, st₂, hrunParams, hrunBody, rfl⟩ := exists_of_lowerFunction hq
  cases (lowerFunction_eq_ok hrunParams hrunBody).symm.trans hq
  let ctx := LoweringContext.of p platform f
  -- The function is lowered again with the constants it leaves.  The platform of this pool is such
  -- that no constant would get the symbol.
  obtain ⟨platform', hplatform⟩ := exists_platform (platform.symbol s.name)
  let pool : ConstantPool := ⟨platform', st₂.constants.entries⟩
  obtain ⟨hbody, hgrows⟩ := (ctx.draws_body platform htype).of_run hrunBody
  obtain ⟨hparams', -⟩ := (ctx.draws_params platform f.params).of_run hrunParams
  have hstate : (FormRules.respected ctx s (.ret none)).state
      { LoweringState.initial f constants with constants := pool } := ⟨hconstants, hplatform⟩
  obtain ⟨hstate, hfront⟩ := FormRules.keeps_params trivial
    (fun v hv y hy => by cases hy; exact hparams v hv) hstate
    (hparams'.rerun_eq pool hgrows.entries)
  have hinstr : ∀ i ∈ f.body,
      Lower.Keeps (FormRules.respected ctx s (.ret none)).state (ctx.instr i) fun code =>
        AccessCode (platform.symbol s.name) s i code ∧
        ∃ st st', (ctx.instr i).run st = .ok (code, st') := by
    intro i hi st code st' hst hrun
    obtain ⟨hst', hcode⟩ := LoweringContext.accessCode_instr (hvariables i hi) (htype i hi) hst hrun
    exact ⟨hst', hcode, st, st', hrun⟩
  obtain ⟨-, blocks, rfl, hblocks⟩ := LoweringContext.keeps_body hinstr
    ⟨.whole (by simpa using .uniform rfl (Nat.zero_le 2) fun _ h => nomatch h),
      .initial f constants, _, rfl⟩ hstate (hbody.rerun_eq pool prefix_rfl)
  exact ⟨params, blocks, rfl, fun i hi => (hfront i hi fun _ => True).respects, hblocks⟩

theorem Replaced.exists_blocks {g : Operand → Operand} {α : Type} {P : α → List Instr → Prop}
    {sources : List α} {blocks : List (List Instr)} {code : List Instr}
    (hblocks : List.Forall₂ P sources blocks) (h : Replaced g blocks.flatten code) :
    ∃ codes, code = codes.flatten ∧
      List.Forall₂ (fun i code => ∃ lowered, P i lowered ∧ Replaced g lowered code)
        sources codes := by
  induction hblocks generalizing code with
  | nil =>
    cases h
    exact ⟨[], rfl, .nil⟩
  | cons hfirst _ ih =>
    obtain ⟨first', rest', rfl, hfirst', hrest⟩ := h.exists_of_append
    obtain ⟨codes, rfl, hcodes⟩ := ih hrest
    exact ⟨first' :: codes, rfl, .cons ⟨_, hfirst, hfirst'⟩ hcodes⟩

/-- In an accepted program with distinct static variables, the name of a static variable has the
type of the variable wherever it occurs in a function, if it has that type as a parameter.  The code
that is emitted for an instruction then accesses the static variable with all the bytes that are
reserved for it, unless the instruction takes the address, truncates the value or sets a truth
value.  Constants have other symbols than static variables, or the file defines a symbol twice. -/
theorem static_access_width (hverify : p.verify c = .ok ())
    (hdistinct : (p.statics.map StaticVariable.name).Nodup) (hf : f ∈ p.functions)
    (hs : s ∈ p.statics) (hparams : ∀ v ∈ f.params, v.name = s.name → v.type = s.type)
    (hq : lowerFunction p c.platform f constants = .ok (q, constants'))
    (hconstants : c.platform.symbol s.name ∉ constants'.entries.map PoolEntry.name) :
    (∀ i ∈ f.body, ∀ v ∈ i.variables, v.name = s.name → v.type = s.type) ∧
      ∃ g front blocks, (finish c q).emitted.procedure.body = front ++ blocks.flatten ∧
        (∀ j ∈ front, ∀ w, (.data (c.platform.symbol s.name), w) ∈ j.operands.zip j.operandWidths →
          w.size = (initialiser s.init).bytes) ∧
        List.Forall₂ (fun i code => EmittedFor (.of p c.platform f) g i code ∧
          ∀ before j after, code = before ++ j :: after → ∀ w,
            (.data (c.platform.symbol s.name), w) ∈ j.operands.zip j.operandWidths →
              StaticAccess (c.platform.symbol s.name) s i before j w) (completed f.body)
          blocks := by
  obtain ⟨_, -, haccepted, -, -⟩ := p.accepted_of_verify hverify hf
  have hvariables := p.static_types hverify hf hdistinct hs hparams
  obtain ⟨front, blocks, hbody, hfront, hblocks⟩ :=
    exists_blocks hparams hvariables haccepted.typeDefect?_eq hq hconstants
  obtain ⟨g, hg, hreplaced⟩ := q.replaced_assignRegisters
  rw [hbody] at hreplaced
  obtain ⟨front', rest', hplaced, hfront', hrest⟩ := hreplaced.exists_of_append
  obtain ⟨codes, rfl, hcodes⟩ := hrest.exists_blocks hblocks
  refine ⟨hvariables, g, legaliseAll front', codes.map legaliseAll, ?_, fun j hj w hw => ?_, ?_⟩
  · show legaliseAll _ = _
    rw [hplaced, legaliseAll, flatMap_append, flatten_eq_flatMap, flatMap_assoc]
    rfl
  · obtain ⟨k', hk', hj⟩ := mem_flatMap.mp hj
    obtain ⟨k, hk, rfl⟩ := hfront'.exists_of_mem hk'
    have haccess : StaticAccess _ s (.ret none) [] j w := (hfront k hk).staticAccess hg hj hw
    cases haccess with
    | whole h => exact h
    | address hsource => nomatch hsource
    | truncation hsource => nomatch hsource
    | truthValue hsource => nomatch hsource
  · refine forall₂_map_right_iff.mpr (hcodes.imp ?_)
    rintro i code ⟨lowered, ⟨haccess, st, st', hrun⟩, hreplaced⟩
    exact ⟨⟨st, lowered, st', code, hrun, hreplaced, rfl⟩, fun before j after hcode w hw =>
      haccess.staticAccess hg hreplaced hcode hw⟩

/-- A static variable of four bytes. -/
def counter : StaticVariable := ⟨"g", false, .ofInt .int 0⟩

/-- The static variable is set to whether the argument is negative. -/
def noteSign : Function := ⟨"f", true, [⟨"a", .int⟩], none,
  [.binary ⟨"g", .int⟩ .lessThan (.var ⟨"a", .int⟩) (.const (.ofInt .int 0)), .ret none]⟩

theorem noteSign_access_width : ∃ q constants,
    lowerFunction ⟨[noteSign], [counter]⟩ .linux noteSign (.empty .linux) = .ok (q, constants) ∧
      (finish {} q).emitted.procedure.body = [⟨.cmp, .long, [.reg .rdi, .imm 0]⟩,
        ⟨.mov, .long, [.data "g", .imm 0]⟩, ⟨.setcc .l, .byte, [.data "g"]⟩, .bare .ret []] ∧
      ∃ g front blocks, (finish {} q).emitted.procedure.body = front ++ blocks.flatten ∧
        List.Forall₂ (fun i code =>
          EmittedFor (.of ⟨[noteSign], [counter]⟩ .linux noteSign) g i code ∧
            ∀ before j after, code = before ++ j :: after → ∀ w,
              (.data "g", w) ∈ j.operands.zip j.operandWidths →
                StaticAccess "g" counter i before j w) noteSign.body blocks := by
  refine ⟨_, _, rfl, by decide +kernel, ?_⟩
  obtain ⟨-, g, front, blocks, hall, -, hblocks⟩ := static_access_width (c := {}) (s := counter)
    (by decide) (by decide) (.head _) (.head _) (by decide)
    (rfl : lowerFunction ⟨[noteSign], [counter]⟩ .linux noteSign (.empty .linux) = _) (by decide)
  exact ⟨g, front, blocks, hall, hblocks⟩

/-- A parameter that has the name of the static variable, and another type. -/
def hideStatic : Function := ⟨"f", true, [⟨"g", .long⟩], none, [.ret none]⟩

/-- The parameter is accepted, and its eight bytes are stored in the four of the static variable. -/
theorem hideStatic_access_wide : Program.verify ⟨[hideStatic], [counter]⟩ {} = .ok () ∧
    ∃ q constants,
      lowerFunction ⟨[hideStatic], [counter]⟩ .linux hideStatic (.empty .linux) =
        .ok (q, constants) ∧
        (finish {} q).emitted.procedure.body =
          [⟨.mov, .quad, [.data "g", .reg .rdi]⟩, .bare .ret []] ∧
        (initialiser counter.init).bytes < Width.quad.size :=
  ⟨by decide, _, _, rfl, by decide +kernel, by decide⟩

end

end Amd64

end ThreeAddress
