import ThreeAddress.Amd64.Lowering.Function
import ThreeAddress.FlowGraph.Instr
import ThreeAddress.Proofs.Amd64.Sketches

/-!
# Three-address code in the memory of the machine

Three-address code is run in the setting of the machine code that it is lowered to: with the same
memory, the same callees and the same caller.  A variable with static storage is in memory, and so
is one whose address is taken.  All others are not, and have no value before they are assigned.

Memory may be accessed through any pointer to shared memory.  A callee takes some of its arguments,
and the caller some of the results, as they do with machine code.
-/

namespace ThreeAddress.Amd64

/-- The state of three-address code. -/
structure SourceState where
  /-- The variables that are not in memory. -/
  locals : String → Option Const
  bytes : Bytes
  trace : List Call

/-- The address of a variable that is in memory. -/
def LoweringContext.address? (ctx : LoweringContext) (e : Setting) (x : String) : Option Word :=
  if x ∈ ctx.statics then some (e.symbols (ctx.platform.symbol x))
  else if x ∈ ctx.aliased then some (e.homes x)
  else none

namespace SourceState

variable (ctx : LoweringContext) (e : Setting) (s : SourceState)

def eval? : Value → Option Const
  | .const c => some c
  | .var v =>
    match ctx.address? e v.name with
    | some a => some (.ofWord v.type (loadBytes s.bytes a v.type.size))
    | none => (s.locals v.name).map (·.as v.type)

def assign (v : Variable) (c : Const) : SourceState :=
  match ctx.address? e v.name with
  | some a => { s with bytes := storeBytes s.bytes a v.type.size (c.as v.type).raw }
  | none => { s with locals := Function.update s.locals v.name (some (c.as v.type)) }

/-- Whether a pointer leads to some bytes of shared memory. -/
def leadsTo (e : Setting) (ptr : Const) (size : Nat) : Bool :=
  (List.range size).all fun i => e.region (byteAt ptr.raw i) = .shared

/-- What an instruction without other effects assigns, unless it is undefined. -/
def result? : ThreeAddress.Instr → Option Const
  | .unary _ op src => (s.eval? ctx e src).bind op.eval
  | .binary _ op lhs rhs =>
    (s.eval? ctx e lhs).bind fun a => (s.eval? ctx e rhs).bind fun b => op.eval a b
  | .copy _ src => s.eval? ctx e src
  | .addressOf _ src =>
    src.var?.bind fun v => (ctx.address? e v.name).map fun a => ⟨.pointer, a⟩
  | .load dst ptr => (s.eval? ctx e ptr).bind fun p =>
    if leadsTo e p dst.type.size then
      some (.ofWord dst.type (loadBytes s.bytes p.raw dst.type.size))
    else none
  | .convert dst conversion src => (s.eval? ctx e src).bind fun c => conversion.eval c dst.type
  | _ => none

/-- Writes where a pointer points to. -/
def write? (ptr c : Const) : Option SourceState :=
  if leadsTo e ptr c.type.size then
    some { s with bytes := storeBytes s.bytes ptr.raw c.type.size c.raw }
  else none

/-! ### Calls -/

/-- What a callee takes of the arguments it is passed. -/
def argument? (args : List Const) (x : ArgumentPlace × Width) : Option Word :=
  ((ArgumentPlace.ofTypes (args.map Const.type)).zip args).findSome? fun (place, c) =>
    if place = x.1 ∧ x.2.bits ≤ c.type.width then some (low x.2.bits c.raw) else none

def receive (dst : Option Variable) (r : Return) : SourceState :=
  match dst with
  | none => s
  | some v => s.assign ctx e v (.ofWord v.type (r.registers (resultRegister v.type)))

abbrev Step := Outcome Label SourceState Exit

def call (dst : Option Variable) (callee : String) (args : List Const) : Step :=
  let symbol := ctx.calleeSymbol callee
  match (e.takes s.trace symbol).mapM (argument? args) with
  | none => .stop s .undefined
  | some arguments =>
    let trace := s.trace ++ [⟨symbol, arguments, e.sharedBytes s.bytes⟩]
    match e.respond trace with
    | none => .stop { s with trace := trace } .lost
    | some r => .next (receive ctx e { s with bytes := r.bytes, trace := trace } dst r)

/-- What the caller takes of the value that is returned. -/
def returned? (value : Option Const) (x : Register × Width) : Option Word :=
  value.bind fun c =>
    if resultRegister c.type = x.1 ∧ x.2.bits ≤ c.type.width then some (low x.2.bits c.raw)
    else none

def leave (value : Option Const) : Step :=
  match (e.takesResults s.trace).mapM (returned? value) with
  | none => .stop s .undefined
  | some values => .stop s (.returned ⟨values, e.sharedBytes s.bytes⟩)

/-! ### Instructions -/

def goOn : Option SourceState → Step
  | some s' => .next s'
  | none => .stop s .undefined

/-- Goes on by the value of an operand, if it has one. -/
def withValue (v : Value) (f : Const → Step) : Step :=
  match s.eval? ctx e v with
  | some c => f c
  | none => .stop s .undefined

def execute (i : ThreeAddress.Instr) : Step :=
  match i with
  | .ret none => s.leave e none
  | .ret (some v) => s.withValue ctx e v fun c => s.leave e (some c)
  | .jump l => .jump l s
  | .jumpIfZero cond l => s.withValue ctx e cond fun c => if c.isZero then .jump l s else .next s
  | .jumpIfNotZero cond l => s.withValue ctx e cond fun c => if c.isZero then .next s else .jump l s
  | .label _ => .next s
  | .store ptr src =>
    s.withValue ctx e ptr fun p => s.withValue ctx e src fun c => s.goOn (s.write? e p c)
  | .call dst callee args =>
    match args.mapM (s.eval? ctx e) with
    | none => .stop s .undefined
    | some cs => s.call ctx e dst callee cs
  | .unary dst .. | .binary dst .. | .copy dst .. | .addressOf dst .. | .load dst ..
  | .convert dst .. => s.goOn ((s.result? ctx e i).map (s.assign ctx e dst))

section

variable {ctx : LoweringContext} {e : Setting} {s s' : SourceState} {i : ThreeAddress.Instr}
  {l : Label}

theorem goOn_ne_jump {r : Option SourceState} : s.goOn r ≠ .jump l s' := by
  cases r <;> exact nofun

theorem leave_ne_jump {value : Option Const} : s.leave e value ≠ .jump l s' := by
  unfold leave
  split <;> exact nofun

theorem leave_ne_next {value : Option Const} : s.leave e value ≠ .next s' := by
  unfold leave
  split <;> exact nofun

theorem call_ne_jump {dst : Option Variable} {callee : String} {args : List Const} :
    s.call ctx e dst callee args ≠ .jump l s' := by
  unfold call
  simp only
  split
  · exact fun h => nomatch h
  · split <;> exact nofun

theorem withValue_eq {v : Value} {f : Const → Step} : s.withValue ctx e v f = .stop s .undefined ∨
      ∃ c, s.eval? ctx e v = some c ∧ s.withValue ctx e v f = f c := by
  unfold withValue
  split
  · rename_i c hc
    exact .inr ⟨c, hc, rfl⟩
  · exact .inl rfl

theorem execute_of_isPure {dst : Variable} (hpure : i.isPure = true)
    (hdst : i.written? = some dst) :
    s.execute ctx e i = s.goOn ((s.result? ctx e i).map (s.assign ctx e dst)) := by
  cases i with
  | unary | binary | copy | addressOf | load | convert =>
    cases hdst
    rfl
  | _ => cases hpure

theorem execute_jumpIfNotZero {cond : Value} : s.execute ctx e (.jumpIfNotZero cond l) =
      s.withValue ctx e cond fun c => if c.isZero = false then .jump l s else .next s := by
  refine congrArg (s.withValue ctx e cond) (funext fun c => ?_)
  cases c.isZero <;> rfl

theorem target?_of_execute (h : s.execute ctx e i = .jump l s') : i.target? = some l := by
  cases i with
  | ret value =>
    cases value with
    | none => exact absurd h leave_ne_jump
    | some v =>
      obtain hu | ⟨c, -, hc⟩ := withValue_eq
      · cases hu.symm.trans h
      · exact absurd (hc.symm.trans h) leave_ne_jump
  | jump l' =>
    cases h
    rfl
  | jumpIfZero cond l' | jumpIfNotZero cond l' =>
    simp only [execute, withValue] at h
    split at h
    · split at h <;> cases h
      rfl
    · cases h
  | label l' => cases h
  | store ptr src =>
    simp only [execute, withValue] at h
    split at h
    · split at h
      · exact absurd h goOn_ne_jump
      · cases h
    · cases h
  | call dst callee args =>
    simp only [execute] at h
    split at h
    · cases h
    · exact absurd h call_ne_jump
  | _ => exact absurd h goOn_ne_jump

theorem mayContinue_of_execute (h : s.execute ctx e i = .next s') : i.flow.mayContinue = true := by
  cases i with
  | ret value =>
    cases value with
    | none => exact absurd h leave_ne_next
    | some v =>
      obtain hu | ⟨c, -, hc⟩ := withValue_eq
      · cases hu.symm.trans h
      · exact absurd (hc.symm.trans h) leave_ne_next
  | jump l' => cases h
  | _ => rfl

end

end SourceState

/-- The machine that runs three-address code in the setting of machine code. -/
def sourceMachine (ctx : LoweringContext) (e : Setting) :
    Machine ThreeAddress.Instr Label SourceState Exit (List Call) where
  flow := ThreeAddress.Instr.flow
  execute := SourceState.execute ctx e
  leave := fun s => ⟨[], e.sharedBytes s.bytes⟩
  seen := SourceState.trace
  target?_of_jump := by
    intro s s' i l h
    have htarget := SourceState.target?_of_execute h
    cases i <;> exact htarget
  mayContinue_of_next := fun h => SourceState.mayContinue_of_execute h
  execute_label := by
    intro s i l h
    cases i with
    | label => rfl
    | _ => cases h

end ThreeAddress.Amd64
