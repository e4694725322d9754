import ThreeAddress.Proofs.Amd64.CheckedProcedures
import ThreeAddress.Proofs.Amd64.PassedArguments

/-!
# Checked code generation

Code generation with all its checks: the cases that lowering takes for impossible, the subscripts of
its labels, the numbers of its temporaries, the distances on the stack, and all that happens to a
procedure later.  For programs that are accepted by verification no check fails, as long as there
are subscripts left for the labels that lowering draws.
-/

namespace ThreeAddress.Amd64

open Checked List

variable {limit : Nat} {p : Program} {platform : Platform} {f : Function}
  {constants constants' : ConstantPool} {q : Procedure}

/-! ### Lowering with checks -/

/-- Tests an instruction before it is lowered.  Binary operators without a case of their own are
taken for comparisons, and the bytes that a call pushes are counted. -/
def checkInstr (limit : Nat) : ThreeAddress.Instr → Checked Unit
  | .binary _ op _ _ =>
    match op with
    | .add | .subtract | .multiply | .divide | .remainder | .bitAnd | .bitOr | .bitXor
    | .shiftLeft | .shiftRight => .ok ()
    | op => ensure .unreachable (op.isComparison = true)
  | .call _ _ args =>
    let pushed := (onStack args (ArgumentPlace.ofTypes (args.map Value.type))).length
    ensure .overflow (8 * pushed + padding pushed ≤ limit)
  | _ => .ok ()

def checkPlace (limit : Nat) : ArgumentPlace → Checked Unit
  | .reg _ => .ok ()
  | .stack n => ensure .overflow (stackArgumentOffset n ≤ limit)

def Lower.runChecked {α : Type} (x : Lower α) (s : LoweringState) : Checked (α × LoweringState) :=
  match x.run s with
  | .ok result => .ok result
  | .error .subscriptOverflow => .error .overflow
  | .error .remainderOfDoubles => .error .unreachable

/-- Lowers a function.  The number of the last temporary is the greatest. -/
def lowerFunctionChecked (limit : Nat) (p : Program) (platform : Platform) (f : Function)
    (constants : ConstantPool) : Checked (Procedure × ConstantPool) := do
  let ctx := LoweringContext.of p platform f
  (f.params.zip (ArgumentPlace.ofTypes (f.params.map (·.type)))).forM fun x => checkPlace limit x.2
  f.body.forM (checkInstr limit)
  let (params, s) ← (ctx.params f.params).runChecked (.initial f constants)
  let (body, s) ← (ctx.body f.body).runChecked s
  ensure .overflow (s.temporaries.last ≤ limit)
  return ({
    name := f.name
    isGlobal := f.isGlobal
    body := params ++ body
    pseudos := s.pseudos
    results := resultRegisters f.returnType
    callArguments := s.callArguments }, s.constants)

def lowerFunctionsChecked (limit : Nat) (p : Program) (platform : Platform) :
    List Function → ConstantPool → Checked (List Procedure × ConstantPool)
  | [], constants => .ok ([], constants)
  | f :: rest, constants => do
    let (procedure, constants) ← lowerFunctionChecked limit p platform f constants
    let (procedures, constants) ← lowerFunctionsChecked limit p platform rest constants
    return (procedure :: procedures, constants)

def argumentCount : ThreeAddress.Instr → Nat
  | .call _ _ args => args.length
  | _ => 0

/-- The size of a function: its parameters, its instructions and the arguments that they pass. -/
def functionWeight (f : Function) : Nat :=
  f.params.length + f.body.length + (f.body.map argumentCount).sum + 2

theorem checkInstr_eq {i : ThreeAddress.Instr} (h : 8 * (argumentCount i + 1) ≤ limit) :
    checkInstr limit i = .ok () := by
  cases i with
  | binary dst op lhs rhs => cases op <;> rfl
  | call dst callee args =>
    have hle : (onStack args (ArgumentPlace.ofTypes (args.map Value.type))).length ≤ args.length :=
      length_onStack_le
    refine ensure_eq ?_ _
    simp only [argumentCount, padding_eq] at h ⊢
    omega
  | _ => rfl

theorem checkPlace_eq {ps : List Variable} {x : Variable × ArgumentPlace}
    (h : 8 * (ps.length + 2) ≤ limit) (hx : x ∈ ps.zip (ArgumentPlace.ofTypes (ps.map (·.type)))) :
    checkPlace limit x.2 = .ok () := by
  obtain ⟨v, place⟩ := x
  cases place with
  | reg r => rfl
  | stack n =>
    have hswapped := mem_map_of_mem (f := Prod.swap) hx
    rw [zip_swap] at hswapped
    obtain ⟨-, hget⟩ := getElem?_onStack hswapped
    have hn := (List.getElem?_eq_some_iff.mp hget).1.trans_le length_onStack_le
    refine ensure_eq ?_ _
    unfold stackArgumentOffset
    omega

theorem Lower.runChecked_eq {α : Type} {x : Lower α} {s : LoweringState} {r : α × LoweringState}
    (h : x.run s = .ok r) : x.runChecked s = .ok r := by
  rw [runChecked, h]

/-- No check fails for a function that is lowered, if its size is within the limit. -/
theorem lowerFunctionChecked_eq (hq : lowerFunction p platform f constants = .ok (q, constants'))
    (htype : ∀ i ∈ f.body, i.typeDefect? f.returnType p.arity? = none)
    (hlimit : 8 * functionWeight f ≤ limit) :
    lowerFunctionChecked limit p platform f constants = .ok (q, constants') := by
  obtain ⟨params, body, st₁, st₂, hparams, hbody, rfl⟩ := exists_of_lowerFunction hq
  cases (lowerFunction_eq_ok hparams hbody).symm.trans hq
  have hweight : functionWeight f = f.params.length + f.body.length + _ + 2 := rfl
  have hplaces : ∀ x ∈ f.params.zip (ArgumentPlace.ofTypes (f.params.map (·.type))),
      checkPlace limit x.2 = .ok () := fun x hx => checkPlace_eq (by omega) hx
  have hinstrs : ∀ i ∈ f.body, checkInstr limit i = .ok () := by
    intro i hi
    have hle := le_sum_of_mem (mem_map_of_mem (f := argumentCount) hi)
    exact checkInstr_eq (by omega)
  have hparams' := ((LoweringContext.draws_params (.of p platform f) platform _).of_run hparams).2
  have hbody' := ((LoweringContext.draws_body (.of p platform f) platform htype).of_run hbody).2
  obtain ⟨havoided, hlast₁⟩ := hparams'.temporaries rfl
  obtain ⟨-, hlast₂⟩ := hbody'.temporaries havoided
  have hlast : st₂.temporaries.last ≤ limit := by
    have hzero : (LoweringState.initial f constants).temporaries.last = 0 := rfl
    omega
  rw [lowerFunctionChecked, forM_eq_ok hplaces, ok_bind, forM_eq_ok hinstrs, ok_bind,
    Lower.runChecked_eq hparams, ok_bind]
  dsimp only
  rw [Lower.runChecked_eq hbody, ok_bind]
  rw [ensure_bind hlast]
  rfl

/-- Numbers up to the limit are enough for a function and its procedure. -/
structure WithinLimit (limit : Nat) (f : Function) (q : Procedure) : Prop where
  function : 8 * functionWeight f ≤ limit
  procedure : q.weight ^ 2 ≤ limit

/-- How large numbers become when code is generated for functions, given their procedures.  The
square is the number of rounds in the analysis of live registers, at most. -/
def numberBound : List Function → List Procedure → Nat
  | f :: fs, q :: qs => max (max (8 * functionWeight f) (q.weight ^ 2)) (numberBound fs qs)
  | _, _ => 0

theorem forall₂_withinLimit {P : Function → Procedure → Prop} {fs : List Function}
    {qs : List Procedure} (h : List.Forall₂ P fs qs) (hlimit : numberBound fs qs ≤ limit) :
    List.Forall₂ (WithinLimit limit) fs qs := by
  induction h with
  | nil => exact .nil
  | cons _ _ ih =>
    obtain ⟨hfirst, hrest⟩ := Nat.max_le.mp hlimit
    obtain ⟨hfunction, hprocedure⟩ := Nat.max_le.mp hfirst
    exact .cons ⟨hfunction, hprocedure⟩ (ih hrest)

theorem lowerFunctionsChecked_eq {fs : List Function} {qs : List Procedure}
    (h : lowerFunctions p platform fs constants = .ok (qs, constants'))
    (htype : ∀ f ∈ fs, ∀ i ∈ f.body, i.typeDefect? f.returnType p.arity? = none)
    (hlimit : List.Forall₂ (WithinLimit limit) fs qs) :
    lowerFunctionsChecked limit p platform fs constants = .ok (qs, constants') := by
  induction hlimit generalizing constants with
  | nil =>
    cases h
    rfl
  | @cons f q rest qs hf hrest ih =>
    obtain ⟨q, constants₁, qs, hq, hqs, heq⟩ := exists_of_lowerFunctions_cons h
    cases heq
    obtain ⟨hfirst, hothers⟩ := forall_mem_cons.mp htype
    rw [lowerFunctionsChecked, lowerFunctionChecked_eq hq hfirst hf.function, ok_bind]
    dsimp only
    rw [ih hqs hothers]
    rfl

/-! ### Lowering of accepted programs -/

theorem count_labelNames_le (body : Listing ThreeAddress.Instr) (name : String) :
    (body.flatMap labelNames).count name ≤ body.length := by
  induction body with
  | nil => exact Nat.le_refl 0
  | cons i rest ih =>
    have hnodup : (labelNames i).Nodup := (labelNames_sublist i).nodup (by decide)
    have hcount := nodup_iff_count_le_one.mp hnodup name
    rw [flatMap_cons, count_append, length_cons]
    omega

/-- There are subscripts left for the labels that a function needs: every label of such a name that
it defines could be followed by as many labels as it has instructions.  Names of which it defines no
label start from zero, so the number of its instructions has to be a subscript, too. -/
structure HasSubscripts (f : Function) : Prop where
  length_le : f.body.length ≤ Label.maxSubscript
  subscript_le : ∀ l, .label l ∈ f.body → l.name ∈ drawnNames →
    l.subscript + f.body.length ≤ Label.maxSubscript

theorem HasSubscripts.exists_draw? (h : HasSubscripts f) :
    ∃ ls s, (LabelSupply.ofListing f.body).draw? (f.body.flatMap labelNames) = some (ls, s) := by
  refine LabelSupply.exists_draw? fun name hname => ?_
  obtain ⟨i, -, hi⟩ := mem_flatMap.mp hname
  have hdrawn := (labelNames_sublist i).subset hi
  have hcount := count_labelNames_le f.body name
  have hhighest : (LabelSupply.ofListing f.body).highestOf name ≤
      Label.maxSubscript - f.body.length := by
    refine LabelSupply.highestOf_ofListing_le fun l hl hlname => ?_
    obtain ⟨j, hj, hjl⟩ := mem_filterMap.mp hl
    have hlabel : j = .label l := by
      cases j <;> simp_all [Instr.label?]
    have hle := h.subscript_le l (hlabel ▸ hj) (hlname ▸ hdrawn)
    omega
  have hlength := h.length_le
  omega

/-! ### Code generation -/

/-- The assembly file of a program, and the states recorded on the way. -/
def generateChecked (limit : Nat) (p : Program) (c : Config) : Checked (String × List Dump) := do
  let (procedures, constants) ←
    lowerFunctionsChecked limit p c.platform p.functions (.empty c.platform)
  let generated ← procedures.mapM (finishChecked limit c)
  let assembly : Assembly :=
    { platform := c.platform
      procedures := generated.map Generated.emitted
      statics := p.statics
      constants := constants }
  return (assembly.text, generated.flatMap Generated.dumps)

/-- A function with a label of a name of which it needs another one. -/
def sameName (subscript : Nat) : Program where
  functions := [⟨"f", true, [⟨"x", .double⟩], none,
    [.label ⟨"nan", subscript⟩, .jumpIfZero (.var ⟨"x", .double⟩) ⟨"nan", subscript⟩, .ret none]⟩]
  statics := []

-- With the last label of the name there is no other one left.
example : generateChecked (2 ^ 64 - 1) (sameName (2 ^ 64 - 1)) {} = .error .overflow := rfl

end ThreeAddress.Amd64
