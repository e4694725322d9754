import ThreeAddress.FlowGraph.Instr
import ThreeAddress.Proofs.Control.Machine
import ThreeAddress.Proofs.Semantics.Evaluation

/-!
# Execution of three-address code

A function runs in an environment: its callees, the memory outside its variables, and a layout of
its variables in memory.  Every variable holds a value together with the variables whose addresses
went into it.  A pointer may only be used to reach a variable whose address went into it, or a
static variable.

A callee sees the static variables, what its arguments point to, what was given away before, and
all that can be reached from there.  It may change any of these.  What can be observed of a run are
its calls, with the arguments and the memory that the callee sees, its writes to the outside, and
its end.
-/

namespace ThreeAddress

/-! ### Memory -/

/-- What a variable holds: a value, and the variables whose addresses went into it. -/
structure Datum where
  value : Const
  origins : Set String

/-- What a function does to the outside. -/
inductive Event where
  /-- A call, with the values of its arguments and the contents of the variables that the callee
  can reach. -/
  | call (callee : String) (args : List Const) (memory : Set (String × Const))
  /-- A write to memory outside the variables. -/
  | write (address : BitVec 64) (value : Const)

/-- What a function leaves behind: the value it returns, and the contents of the static variables.
-/
structure Result where
  value : Option Const
  statics : Set (String × Const)

/-- What a callee leaves behind: the value it returns, and what it stores in variables. -/
structure Answer where
  value : Const
  memory : String → Const

/-- What a function runs in.  The answers of the callees and the memory outside the variables may
depend on all that happened before. -/
structure Environment where
  /-- The static variables. -/
  statics : Set String
  /-- Where a variable is in memory. -/
  address : String → BitVec 64
  /-- The variable that a byte of the memory belongs to. -/
  owner : BitVec 64 → Option String
  /-- The answer to the last of some events, a call.  There is none if the callee never returns. -/
  respond : List Event → Option Answer
  /-- The bytes at an address outside the variables, after some events.  There are none if the
  address is not valid. -/
  outside : List Event → BitVec 64 → (size : Nat) → Option (BitVec (8 * size))

/-- The memory of a running function. -/
structure Memory where
  store : String → Datum
  /-- The variables whose addresses were given away. -/
  escaped : Set String
  /-- What happened so far. -/
  trace : List Event

namespace Memory

def eval (m : Memory) : Value → Datum
  | .const c => ⟨c, ∅⟩
  | .var v => ⟨(m.store v.name).value.as v.type, (m.store v.name).origins⟩

def set (m : Memory) (x : String) (d : Datum) : Memory :=
  { m with store := Function.update m.store x d }

def assign (m : Memory) (v : Variable) (d : Datum) : Memory :=
  m.set v.name ⟨d.value.as v.type, d.origins⟩

/-- Writes to the outside, which gives away the addresses in the value. -/
def writeOutside (m : Memory) (address : BitVec 64) (d : Datum) : Memory :=
  { m with escaped := m.escaped ∪ d.origins, trace := m.trace ++ [.write address d.value] }

/-- Receives the value a callee returned, which may contain any address it knows. -/
def receive (m : Memory) (dst : Option Variable) (a : Answer) : Memory :=
  match dst with
  | some v => m.assign v ⟨a.value, m.escaped⟩
  | none => m

def contents (m : Memory) (names : Set String) : Set (String × Const) :=
  {p | p.1 ∈ names ∧ (m.store p.1).value = p.2}

end Memory

/-- Some of the bytes of a constant, as a constant of another type. -/
def Const.slice (c : Const) (offset : Nat) (t : ScalarType) : Const :=
  ⟨t, c.bits.extractLsb' (8 * offset) t.width⟩

/-- A constant with some of its bytes replaced by those of another. -/
def Const.splice (c : Const) (offset : Nat) (d : Const) : Const :=
  let mask := (BitVec.allOnes d.type.width).setWidth c.type.width <<< (8 * offset)
  ⟨c.type, (c.bits &&& ~~~mask) ||| (d.bits.setWidth c.type.width <<< (8 * offset))⟩

namespace Environment

/-- What is found at an address. -/
inductive Region where
  | variable (name : String) (offset : Nat)
  | outside

/-- What an access to some bytes at an address reaches.  The bytes may not be partly outside. -/
def region? (e : Environment) (size : Nat) (address : BitVec 64) : Option Region :=
  match e.owner address with
  | some x => some (.variable x (address - e.address x).toNat)
  | none =>
    if ∀ i < size, e.owner (address + BitVec.ofNat 64 i) = none then some .outside else none

/-- Whether a pointer may be used to reach some bytes of a variable. -/
def Accessible (e : Environment) (m : Memory) (p : Datum) (x : String) (offset size : Nat) : Prop :=
  (x ∈ e.statics ∨ x ∈ p.origins) ∧ offset + size ≤ (m.store x).value.type.size

open Classical in
/-- Reads what a pointer points to. -/
noncomputable def load (e : Environment) (m : Memory) (t : ScalarType) (p : Datum) :
    Option Datum :=
  let address := p.value.bits.setWidth 64
  match e.region? t.size address with
  | some (.variable x offset) =>
    if e.Accessible m p x offset t.size then
      some ⟨(m.store x).value.slice offset t, (m.store x).origins⟩
    else none
  | some .outside => (e.outside m.trace address t.size).map fun bits => ⟨⟨t, bits⟩, m.escaped⟩
  | none => none

open Classical in
/-- Writes where a pointer points to. -/
noncomputable def write (e : Environment) (m : Memory) (p d : Datum) : Option Memory :=
  let address := p.value.bits.setWidth 64
  let size := d.value.type.size
  match e.region? size address with
  | some (.variable x offset) =>
    if e.Accessible m p x offset size then
      some (m.set x ⟨(m.store x).value.splice offset d.value, (m.store x).origins ∪ d.origins⟩)
    else none
  | some .outside =>
    (e.outside m.trace address size).map fun _ => m.writeOutside address d
  | none => none

/-- The variables a callee can reach. -/
inductive Reaches (e : Environment) (m : Memory) (args : List Datum) : String → Prop
  | static {x : String} (h : x ∈ e.statics) : Reaches e m args x
  | escaped {x : String} (h : x ∈ m.escaped) : Reaches e m args x
  | argument {x : String} {d : Datum} (hd : d ∈ args) (h : x ∈ d.origins) : Reaches e m args x
  | content {x y : String} (hy : Reaches e m args y) (h : x ∈ (m.store y).origins) :
    Reaches e m args x

/-- The variables a callee can reach, as a set. -/
def reachable (e : Environment) (m : Memory) (args : List Datum) : Set String :=
  {x | e.Reaches m args x}

def callEvent (e : Environment) (m : Memory) (callee : String) (args : List Datum) : Event :=
  .call callee (args.map Datum.value) (m.contents (e.reachable m args))

open Classical in
/-- The memory after a callee returned.  It may have stored anything it knows in what it reaches. -/
noncomputable def afterCall (e : Environment) (m : Memory) (callee : String) (args : List Datum)
    (a : Answer) : Memory where
  store := fun x =>
    if x ∈ e.reachable m args then
      ⟨(a.memory x).as (m.store x).value.type, e.reachable m args⟩
    else m.store x
  escaped := e.reachable m args
  trace := m.trace ++ [e.callEvent m callee args]

section

variable {e : Environment} {m : Memory} {callee : String} {args : List Datum} {a : Answer}
  {x : String}

theorem afterCall_store_of_mem (h : x ∈ e.reachable m args) :
    (e.afterCall m callee args a).store x =
      ⟨(a.memory x).as (m.store x).value.type, e.reachable m args⟩ := by
  simp [afterCall, h]

theorem afterCall_store_of_not_mem (h : x ∉ e.reachable m args) :
    (e.afterCall m callee args a).store x = m.store x := by
  simp [afterCall, h]

end

end Environment

/-! ### Instructions -/

/-- What an instruction of three-address code leads to. -/
abbrev Effect := Outcome Label Memory Result

/-- What an instruction without other effects assigns, unless it is undefined. -/
noncomputable def result? (e : Environment) (m : Memory) : Instr → Option Datum
  | .unary _ op src => (op.eval (m.eval src).value).map (⟨·, (m.eval src).origins⟩)
  | .binary _ op lhs rhs =>
    (op.eval (m.eval lhs).value (m.eval rhs).value).map
      (⟨·, (m.eval lhs).origins ∪ (m.eval rhs).origins⟩)
  | .copy _ src => some (m.eval src)
  | .addressOf _ src => src.var?.map fun v => ⟨⟨.pointer, e.address v.name⟩, {v.name}⟩
  | .load dst ptr => e.load m dst.type (m.eval ptr)
  | .convert dst conversion src =>
    (conversion.eval (m.eval src).value dst.type).map (⟨·, (m.eval src).origins⟩)
  | _ => none

def Memory.assign? (m : Memory) (v : Variable) : Option Datum → Effect
  | some d => .next (m.assign v d)
  | none => .stop m .undefined

/-- What a function leaves behind if it returns. -/
def finish (e : Environment) (m : Memory) (value : Option Value) : Result :=
  ⟨value.map fun v => (m.eval v).value, m.contents e.statics⟩

/-- Calls a function. -/
noncomputable def call (e : Environment) (m : Memory) (dst : Option Variable) (callee : String)
    (args : List Datum) : Effect :=
  let event := e.callEvent m callee args
  match e.respond (m.trace ++ [event]) with
  | none => .stop { m with trace := m.trace ++ [event] } .lost
  | some a => .next ((e.afterCall m callee args a).receive dst a)

/-- The effect of an instruction. -/
noncomputable def execute (e : Environment) (m : Memory) (i : Instr) : Effect :=
  match i with
  | .ret value => .stop m (.returned (finish e m value))
  | .jump l => .jump l m
  | .jumpIfZero cond l => if (m.eval cond).value.isZero then .jump l m else .next m
  | .jumpIfNotZero cond l => if (m.eval cond).value.isZero then .next m else .jump l m
  | .label _ => .next m
  | .store ptr src =>
    match e.write m (m.eval ptr) (m.eval src) with
    | some m' => .next m'
    | none => .stop m .undefined
  | .call dst callee args => call e m dst callee (args.map m.eval)
  | .unary dst .. | .binary dst .. | .copy dst .. | .addressOf dst .. | .load dst ..
  | .convert dst .. => m.assign? dst (result? e m i)

variable {e : Environment} {i : Instr} {m m' : Memory}

theorem execute_next_cases (h : execute e m i = .next m') :
    (m' = m ∧ i.written? = none ∧ i.isPure = false) ∨
    (∃ v d, i.isPure = true ∧ i.written? = some v ∧ result? e m i = some d ∧ m' = m.assign v d) ∨
    (∃ ptr src, i = .store ptr src ∧ e.write m (m.eval ptr) (m.eval src) = some m') ∨
    (∃ dst callee args a, i = .call dst callee args ∧
      m' = (e.afterCall m callee (args.map m.eval) a).receive dst a) := by
  -- The instructions that only assign have one argument in common.
  have hassign : ∀ {v : Variable}, i.isPure = true → i.written? = some v →
      m.assign? v (result? e m i) = .next m' →
      ∃ v d, i.isPure = true ∧ i.written? = some v ∧ result? e m i = some d ∧
        m' = m.assign v d := by
    intro v hpure hwritten h
    cases hr : result? e m i with
    | none =>
      rw [hr] at h
      cases h
    | some d =>
      rw [hr] at h
      cases h
      exact ⟨v, d, hpure, hwritten, rfl, rfl⟩
  cases i with
  | unary | binary | copy | addressOf | load | convert =>
    exact .inr (.inl (hassign rfl rfl h))
  | ret | jump => cases h
  | jumpIfZero cond l | jumpIfNotZero cond l =>
    refine .inl ⟨?_, rfl, rfl⟩
    simp only [execute] at h
    split at h <;> cases h
    rfl
  | label l =>
    cases h
    exact .inl ⟨rfl, rfl, rfl⟩
  | store ptr src =>
    refine .inr (.inr (.inl ⟨ptr, src, rfl, ?_⟩))
    simp only [execute] at h
    split at h
    · rename_i hwrite
      cases h
      exact hwrite
    · cases h
  | call dst callee args =>
    simp only [execute, call] at h
    split at h
    · cases h
    · cases h
      exact .inr (.inr (.inr ⟨dst, callee, args, _, rfl, rfl⟩))

theorem exists_written?_of_isPure (h : i.isPure = true) : ∃ dst, i.written? = some dst := by
  cases i with
  | unary dst | binary dst | copy dst | addressOf dst | load dst | convert dst => exact ⟨dst, rfl⟩
  | _ => cases h

theorem execute_of_isPure {v : Variable} (hpure : i.isPure = true) (hv : i.written? = some v) :
    execute e m i = m.assign? v (result? e m i) := by
  cases i with
  | unary | binary | copy | addressOf | load | convert =>
    cases hv
    rfl
  | _ => cases hpure

theorem execute_jump_cases {l : Label} (h : execute e m i = .jump l m') :
    i.target? = some l ∧ m' = m := by
  cases i with
  | jump l =>
    cases h
    exact ⟨rfl, rfl⟩
  | jumpIfZero cond l | jumpIfNotZero cond l =>
    simp only [execute] at h
    split at h <;> cases h
    exact ⟨rfl, rfl⟩
  | ret | label => cases h
  | store ptr src =>
    simp only [execute] at h
    split at h <;> cases h
  | call dst callee args =>
    simp only [execute, call] at h
    split at h <;> cases h
  | _ =>
    simp only [execute, Memory.assign?] at h
    split at h <;> cases h

theorem execute_stop_cases {ending : Ending Result} (h : execute e m i = .stop m' ending) :
    m'.store = m.store ∧ m'.escaped = m.escaped := by
  cases i with
  | ret value =>
    cases h
    exact ⟨rfl, rfl⟩
  | jump | label => cases h
  | jumpIfZero cond l | jumpIfNotZero cond l =>
    simp only [execute] at h
    split at h <;> cases h
  | store ptr src =>
    simp only [execute] at h
    split at h <;> cases h
    exact ⟨rfl, rfl⟩
  | call dst callee args =>
    simp only [execute, call] at h
    split at h <;> cases h
    exact ⟨rfl, rfl⟩
  | _ =>
    simp only [execute, Memory.assign?] at h
    split at h <;> cases h
    exact ⟨rfl, rfl⟩

theorem Environment.write_cases {p d : Datum} (h : e.write m p d = some m') :
    (∃ x offset, e.Accessible m p x offset d.value.type.size ∧
      m' = m.set x ⟨(m.store x).value.splice offset d.value,
        (m.store x).origins ∪ d.origins⟩) ∨
    m' = m.writeOutside (p.value.bits.setWidth 64) d := by
  simp only [write] at h
  split at h
  · rename_i x offset hregion
    split at h
    · rename_i haccess
      cases h
      exact .inl ⟨x, offset, haccess, rfl⟩
    · cases h
  · obtain ⟨bits, -, hm⟩ := Option.map_eq_some_iff.mp h
    exact .inr hm.symm
  · cases h

theorem execute_of_target? (e : Environment) (m : Memory) {l : Label} (h : i.target? = some l) :
    execute e m i = .jump l m ∨ execute e m i = .next m := by
  cases i with
  | jump l' =>
    cases h
    exact .inl rfl
  | jumpIfZero cond l' =>
    cases h
    exact ite_eq_or_eq _ _ _
  | jumpIfNotZero cond l' =>
    cases h
    exact (ite_eq_or_eq _ _ _).symm
  | _ => cases h

theorem target?_flow (i : Instr) : i.flow.target? = i.target? := by
  cases i <;> rfl

/-- The machine that runs three-address code in an environment.  What can be seen of a memory is
what happened to the outside so far. -/
noncomputable def Environment.machine (e : Environment) :
    Machine Instr Label Memory Result (List Event) where
  flow := Instr.flow
  execute := execute e
  leave := fun m => finish e m none
  seen := Memory.trace
  target?_of_jump := fun h => (target?_flow _).trans (execute_jump_cases h).1
  mayContinue_of_next := by
    intro m m' i h
    cases i with
    | ret | jump => cases h
    | _ => rfl
  execute_label := by
    intro m i l h
    cases i with
    | label => rfl
    | _ => cases h

@[simp] theorem Environment.machine_flow (e : Environment) : e.machine.flow = Instr.flow := rfl

@[simp] theorem Environment.machine_execute (e : Environment) :
    e.machine.execute = ThreeAddress.execute e := rfl

end ThreeAddress
