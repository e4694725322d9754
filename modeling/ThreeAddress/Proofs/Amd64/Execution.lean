import ThreeAddress.Amd64.Convention
import ThreeAddress.Proofs.Amd64.Computation
import ThreeAddress.Proofs.Control.Machine

/-!
# Execution of machine code

Instructions are run with registers, pseudo registers, flags and memory.  A pseudo register behaves
as a register of the machine does, unless it lives in memory because its address is taken.

Of every register it is kept track how many of its lowest bits the code has determined.  Reading a
pseudo register beyond that is undefined: it was not assigned.  Reading a machine register beyond
that gives whatever happens to be there, unless the checks are strict.  In the same way it is kept
track which bytes on the stack are determined.

A callee takes some of its arguments, at some widths.  To take what was not passed is undefined.
What can be observed of a run are its calls, with the values that the callees take and the memory
they share with the code, and in the end the values that the caller takes and the shared memory.
-/

namespace ThreeAddress.Amd64

/-! ### What code runs in -/

/-- What an address is used for. -/
inductive Region where
  /-- Variables in memory, and all that is shared with other functions. -/
  | shared
  /-- What a function keeps to itself. -/
  | frame
  /-- Arguments of callees. -/
  | stack
  deriving DecidableEq

/-- A call, as the callee sees it. -/
structure Call where
  symbol : String
  /-- What the callee takes. -/
  arguments : List Word
  /-- The shared memory. -/
  shared : Bytes

/-- What a callee leaves behind. -/
structure Return where
  registers : Register → Word
  bytes : Bytes
  flags : Flags

/-- What a function leaves behind: the values that its caller takes, and the shared memory. -/
structure Exit where
  values : List Word
  shared : Bytes

/-- What machine code runs in.  Callees may depend on all calls so far. -/
structure Setting where
  hardware : Hardware
  /-- Where the memory with static storage is. -/
  symbols : String → Word
  /-- Where the pseudo registers are that live in memory. -/
  homes : String → Word
  region : Word → Region
  /-- Which arguments a callee takes, and how much of them. -/
  takes : List Call → String → List (ArgumentPlace × Width)
  /-- What the last of some calls leaves behind, if it returns. -/
  respond : List Call → Option Return
  /-- Which results the caller takes, and how much of them. -/
  takesResults : List Call → List (Register × Width)

/-- What is checked during a run. -/
structure Checks where
  /-- Whether reading a machine register beyond what is determined is undefined. -/
  strict : Bool
  /-- The addresses that may be accessed. -/
  valid : Word → Bool

/-- The state of registers and memory. -/
structure Storage where
  cells : Location Register → Word
  /-- How many of the lowest bits are determined. -/
  determined : Location Register → Nat
  bytes : Bytes
  /-- Whether a byte on the stack is determined. -/
  settled : Word → Bool
  flags : Flags
  trace : List Call

/-- Where an operand is. -/
inductive Place where
  | value (x : Word)
  | cell (l : Location Register)
  | address (a : Word)

namespace Setting

variable (e : Setting)

def sharedBytes (bytes : Bytes) : Bytes := fun a => if e.region a = .shared then bytes a else 0#8

theorem sharedBytes_congr {bytes bytes' : Bytes}
    (h : ∀ a, e.region a = .shared → bytes a = bytes' a) :
    e.sharedBytes bytes = e.sharedBytes bytes' := by
  funext a
  unfold sharedBytes
  split
  · exact h a (by assumption)
  · rfl

/-- The checks of code that may access the shared memory only. -/
def checks (strict : Bool) : Checks := ⟨strict, fun a => e.region a = .shared⟩

end Setting

/-- No checks beyond those of pseudo registers. -/
def Checks.none : Checks := ⟨false, fun _ => true⟩

/-! ### Operands -/

namespace Storage

variable (k : Checks) (m : Storage)

def mayRead (w : Width) : Location Register → Bool
  | .reg r => !k.strict || w.bits ≤ m.determined (.reg r)
  | .pseudo x => w.bits ≤ m.determined (.pseudo x)

/-- Whether all bytes of an operand may be accessed. -/
def mayAccess (a : Word) (w : Width) : Bool := (List.range w.size).all fun i => k.valid (byteAt a i)

def fetch? (w : Width) : Place → Option Word
  | .value x => some (low w.bits x)
  | .cell l => if m.mayRead k w l then some (low w.bits (m.cells l)) else none
  | .address a => if mayAccess k a w then some (loadBytes m.bytes a w.size) else none

def put? (x : Extent) (w : Width) (v : Word) : Place → Option Storage
  | .value _ => none
  | .cell l => some { m with
      cells := Function.update m.cells l (overwritten w (m.cells l) v)
      determined := Function.update m.determined l (x.determined l w (m.determined l)) }
  | .address a =>
    if mayAccess k a w then some { m with bytes := storeBytes m.bytes a w.size v } else none

def putAll? (x : Extent) (m : Storage) : List ((Place × Width) × Word) → Option Storage
  | [] => some m
  | ((d, w), v) :: rest => (m.put? k x w v d).bind fun m' => putAll? x m' rest

/-- The storage after a word was pushed, of which some bits are determined. -/
def pushed (a x : Word) (n : Nat) : Storage :=
  { m with
    cells := Function.update m.cells (.reg .rsp) a
    determined := Function.update m.determined (.reg .rsp) 64
    bytes := storeBytes m.bytes a 8 x
    settled := fun b =>
      if (b - a).toNat < 8 then decide (8 * (b - a).toNat + 8 ≤ n) else m.settled b }

end Storage

namespace Procedure

def isAliased (p : Procedure) (x : String) : Bool := p.pseudos[x]?.any PseudoInfo.isAliased

section

variable (p : Procedure) (e : Setting) (k : Checks) (m : Storage)

def place? : Operand → Option Place
  | .imm v => some (.value (BitVec.ofInt 64 v))
  | .reg r => some (.cell (.reg r))
  | .pseudo x => some (if p.isAliased x then .address (e.homes x) else .cell (.pseudo x))
  | .memory base offset =>
    (m.fetch? k .quad (.cell (.reg base))).map fun b => .address (b + BitVec.ofInt 64 offset)
  | .data symbol => some (.address (e.symbols symbol))
  | .label _ | .callee _ => none

def read? (o : Operand) (w : Width) : Option Word := (p.place? e k m o).bind (m.fetch? k w)

/-- Runs a computation.  Where its results go is known before anything is written. -/
def compute? (c : Computation) : Option Storage :=
  (c.reads.mapM fun x => p.read? e k m x.1 x.2).bind fun values =>
    (c.writes.mapM fun x => (p.place? e k m x.1).map (·, x.2)).bind fun places =>
      (c.compute values m.flags).bind fun (results, flags) =>
        (m.putAll? k c.extent (places.zip results)).map fun m' => { m' with flags := flags }

/-! ### The stack and calls -/

/-- What is pushed, and how much of it is determined.  A register may be pushed of which only a part
is. -/
def pushed? : Operand → Option (Word × Nat)
  | .reg r => some (m.cells (.reg r), m.determined (.reg r))
  | o => (p.read? e k m o .quad).map (·, 64)

/-- The bytes of a range lie in a region. -/
def within (region : Region) (a : Word) (n : Nat) : Bool :=
  (List.range n).all fun i => e.region (byteAt a i) = region

def push? (o : Operand) : Option Storage :=
  (p.pushed? e k m o).bind fun (x, n) =>
    (m.fetch? k .quad (.cell (.reg .rsp))).bind fun top =>
      if within e .stack (top - 8) 8 then some (m.pushed (top - 8) x n) else none

/-- The registers in which the calls of a symbol pass arguments. -/
def passedIn (symbol : String) : List Register := p.callArguments.getD symbol []

def argument? (symbol : String) : ArgumentPlace × Width → Option Word
  | (.reg r, w) =>
    if r ∈ p.passedIn symbol ∧ w.bits ≤ m.determined (.reg r) then
      some (low w.bits (m.cells (.reg r)))
    else none
  | (.stack n, w) =>
    (m.fetch? k .quad (.cell (.reg .rsp))).bind fun top =>
      let a := byteAt top (8 * n)
      if within e .stack a w.size && (List.range w.size).all fun i => m.settled (byteAt a i) then
        some (loadBytes m.bytes a w.size)
      else none

def afterCall (trace : List Call) (r : Return) : Storage where
  cells
    | .reg s => if s ∈ Register.callerSaved then r.registers s else m.cells (.reg s)
    | .pseudo x => m.cells (.pseudo x)
  determined
    | .reg s => if s ∈ Register.callerSaved then 64 else m.determined (.reg s)
    | .pseudo x => m.determined (.pseudo x)
  bytes := fun a => if e.region a = .frame then m.bytes a else r.bytes a
  settled := fun _ => true
  flags := r.flags
  trace := trace

abbrev Step := Outcome Label Storage Exit

def call (symbol : String) : Step :=
  match (e.takes m.trace symbol).mapM (p.argument? e k m symbol) with
  | none => .stop m .undefined
  | some arguments =>
    let trace := m.trace ++ [⟨symbol, arguments, e.sharedBytes m.bytes⟩]
    match e.respond trace with
    | none => .stop { m with trace := trace } .lost
    | some r => .next (afterCall e m trace r)

def result? : Register × Width → Option Word
  | (r, w) =>
    if r ∈ p.results ∧ w.bits ≤ m.determined (.reg r) then some (low w.bits (m.cells (.reg r)))
    else none

def leave : Step :=
  match (e.takesResults m.trace).mapM (p.result? m) with
  | none => .stop m .undefined
  | some values => .stop m (.returned ⟨values, e.sharedBytes m.bytes⟩)

def goOn (m : Storage) : Option Storage → Step
  | some m' => .next m'
  | none => .stop m .undefined

/-- Sets an operand to the address of another. -/
def lea? (d s : Operand) : Option Storage :=
  (p.place? e k m s).bind fun
    | .address a => (p.place? e k m d).bind (m.put? k .computed .quad a)
    | _ => none

def execute (i : Instr) : Step :=
  match i.op, i.operands with
  | .label, _ => .next m
  | .jmp, [.label l] => .jump l m
  | .jcc c, [.label l] => if c.holds m.flags then .jump l m else .next m
  | .ret, _ => p.leave e m
  | .push, [o] => goOn m (p.push? e k m o)
  | .call, [.callee symbol] => p.call e k m symbol
  | .lea, [d, s] => goOn m (p.lea? e k m d s)
  | _, _ => goOn m ((i.computation? e.hardware).bind (p.compute? e k m))

end

section

variable {p : Procedure} {e : Setting} {k : Checks} {m m' : Storage} {i : Instr} {l : Label}

theorem goOn_eq_next {r : Option Storage} (h : goOn m r = .next m') : r = some m' := by
  cases r with
  | none => cases h
  | some m₁ =>
    cases h
    rfl

theorem push?_eq_some_iff {o : Operand} : p.push? e k m o = some m' ↔
    ∃ y top, p.pushed? e k m o = some y ∧ m.fetch? k .quad (.cell (.reg .rsp)) = some top ∧
      within e .stack (top - 8) 8 = true ∧ m.pushed (top - 8) y.1 y.2 = m' := by
  constructor
  · intro h
    obtain ⟨y, hy, hrest⟩ := Option.bind_eq_some_iff.mp h
    obtain ⟨top, htop, hrest⟩ := Option.bind_eq_some_iff.mp hrest
    split at hrest
    · rename_i hwithin
      exact ⟨y, top, hy, htop, hwithin, Option.some.inj hrest⟩
    · cases hrest
  · rintro ⟨y, top, hy, htop, hwithin, rfl⟩
    simp only [push?, hy, htop, Option.bind_some, hwithin, if_true]

theorem goOn_ne_jump {r : Option Storage} : goOn m r ≠ .jump l m' := by
  cases r <;> exact nofun

theorem leave_ne_next : p.leave e m ≠ .next m' := by
  unfold leave
  split <;> exact nofun

theorem leave_ne_jump : p.leave e m ≠ .jump l m' := by
  unfold leave
  split <;> exact nofun

theorem call_ne_jump {symbol : String} : p.call e k m symbol ≠ .jump l m' := by
  unfold call
  split
  · exact nofun
  · simp only
    split <;> exact nofun

theorem execute_jump_cases (h : p.execute e k m i = .jump l m') :
    i.operands = [.label l] ∧ m' = m ∧
    (i.op = .jmp ∨ ∃ c, i.op = .jcc c ∧ c.holds m.flags = true) := by
  obtain ⟨op, w, operands⟩ := i
  unfold execute at h
  simp only at h
  split at h
  · cases h
  · cases h
    exact ⟨rfl, rfl, .inl rfl⟩
  · split at h
    · rename_i hholds
      cases h
      exact ⟨rfl, rfl, .inr ⟨_, rfl, hholds⟩⟩
    · cases h
  · exact absurd h leave_ne_jump
  · exact absurd h goOn_ne_jump
  · exact absurd h call_ne_jump
  · exact absurd h goOn_ne_jump
  · exact absurd h goOn_ne_jump

theorem op_of_flow_jump (h : i.flow = .jump l) : i.op = .jmp := by
  unfold Instr.flow at h
  split at h <;> first | assumption | cases h

theorem op_of_flow_ret (h : i.flow = .ret) : i.op = .ret := by
  unfold Instr.flow at h
  split at h <;> first | assumption | cases h

theorem op_of_flow_label (h : i.flow = .label l) : i.op = .label := by
  unfold Instr.flow at h
  split at h <;> first | assumption | cases h

theorem execute_ret (h : i.op = .ret) : p.execute e k m i = p.leave e m := by
  obtain ⟨op, w, operands⟩ := i
  cases h
  rfl

theorem execute_of_computation? {c : Computation} (h : i.computation? e.hardware = some c) :
    p.execute e k m i = goOn m (p.compute? e k m c) := by
  unfold execute
  split <;> simp_all [Instr.computation?]

theorem execute_ne_next_of_jmp (h : i.op = .jmp) : p.execute e k m i ≠ .next m' := by
  unfold execute
  split <;> simp_all [goOn, Instr.computation?]

end

def machine (p : Procedure) (e : Setting) (k : Checks) :
    Machine Instr Label Storage Exit (List Call) where
  flow := Instr.flow
  execute := p.execute e k
  leave := fun m => ⟨[], e.sharedBytes m.bytes⟩
  seen := Storage.trace
  target?_of_jump := by
    intro m m' i l h
    obtain ⟨hoperands, -, hop | ⟨c, hop, -⟩⟩ := execute_jump_cases h <;>
      simp [Instr.flow, hop, hoperands, Flow.target?]
  mayContinue_of_next := by
    intro m m' i h
    cases hf : i.flow with
    | jump l => exact absurd h (execute_ne_next_of_jmp (op_of_flow_jump hf))
    | ret =>
      rw [execute_ret (op_of_flow_ret hf)] at h
      exact absurd h leave_ne_next
    | label l | branch l | next => rfl
  execute_label := by
    intro m i l h
    have hop := op_of_flow_label h
    obtain ⟨op, w, operands⟩ := i
    cases hop
    rfl

end Procedure

end ThreeAddress.Amd64
