import ThreeAddress.Amd64.Frame
import ThreeAddress.Amd64.Operands
import ThreeAddress.Amd64.Procedure
import ThreeAddress.Registers.Allocation

/-!
# Register allocation for procedures

Describes a procedure to the allocator, and replaces its pseudo registers by the registers and stack
slots they are given.
-/

namespace ThreeAddress.Amd64

/-- The location an operand names, if it is a register. -/
def Operand.location? : Operand → Option (Location Register)
  | .reg r => some (.reg r)
  | .pseudo name => some (.pseudo name)
  | _ => none

/-- The register that the address of an operand in memory is computed from. -/
def Operand.base? : Operand → Option Register
  | .memory base _ => some base
  | _ => none

namespace Instr

/-- The locations an instruction reads; `arguments` are the registers a call passes values in. -/
def reads (i : Instr) (arguments : List Register) : List (Location Register) :=
  let named := (i.operands.zip i.directions).flatMap fun (o, d) =>
    (if d.reads then o.location?.toList else []) ++ (o.base?.map Location.reg).toList
  named ++ (i.implicitReads arguments).map Location.reg

def writes (i : Instr) : List (Location Register) :=
  let named := (i.operands.zip i.directions).filterMap fun (o, d) =>
    if d.writes then o.location? else none
  named ++ i.implicitWrites.map Location.reg

/-- The locations an instruction copies between. -/
def moveLocations? (i : Instr) : Option (Location Register × Location Register) :=
  i.move?.bind fun (dst, src) =>
    dst.location?.bind fun d => src.location?.map fun s => (d, s)

/-- Whether the instruction copies a register or pseudo register to itself. -/
def isIdleMove (i : Instr) : Bool :=
  i.move?.any fun (dst, src) => dst == src && !dst.isMemory

end Instr

namespace Procedure

/-- The registers in which a call passes arguments. -/
def argumentsOf (p : Procedure) (i : Instr) : List Register :=
  match i.op, i.operands.head? with
  | .call, some (.callee symbol) => p.callArguments.getD symbol []
  | _, _ => []

/-- What the allocator sees of an instruction. -/
def access (p : Procedure) (i : Instr) : Access Register Label where
  flow := i.flow
  reads := i.reads (p.argumentsOf i)
  writes := i.writes
  move? := i.moveLocations?

/-- The class of a location.  Registers that are never handed out, and pseudo registers that have to
live in memory, have none. -/
def classOf (p : Procedure) : Location Register → Option RegisterClass
  | .reg r => if r.registerClass.colours.contains r then some r.registerClass else none
  | .pseudo name =>
    match p.pseudos[name]? with
    | none => none
    | some info =>
      if info.isAliased then none
      else if info.width = .double then some .sse
      else some .general

def problem (p : Procedure) : AllocationProblem Register RegisterClass Label where
  code := p.body.map p.access
  exitLive := p.results
  classOf := p.classOf
  classes := RegisterClass.all
  className := RegisterClass.name
  colours := RegisterClass.colours

/-- Replaces pseudo registers and drops the copies that have become idle. -/
def replacePseudos (p : Procedure) (place? : String → Option Operand) : Procedure :=
  let replace := fun (o : Operand) => (o.pseudo?.bind place?).getD o
  { p with
    body := (p.body.map (Instr.mapOperands replace)).filter fun i => !i.isIdleMove }

def locationOperand : Location Register → Operand
  | .reg r => .reg r
  | .pseudo name => .pseudo name

def rename (p : Procedure) (renames : Renaming Register) : Procedure :=
  p.replacePseudos fun name => (renames.lookup name).map locationOperand

instance : Target Procedure Register RegisterClass Label where
  problem := problem
  rename := rename

/-- The pseudo registers of a procedure, in the order of their first occurrence. -/
def pseudoNames (p : Procedure) : List String :=
  ((p.body.flatMap Instr.operands).filterMap Operand.pseudo?).eraseDups

/-- The place of a pseudo register as an operand.  Stack slots lie below the base pointer. -/
def destinationOperand : Destination Register → Operand
  | .reg r => .reg r
  | .stack bytes => .memory .rbp (slotDisplacement bytes)

/-- The registers a procedure names that it has to preserve, in order. -/
def savedRegisters (p : Procedure) : List Register :=
  let named := (p.body.flatMap Instr.operands).filterMap Operand.reg?
  (Std.ExtTreeSet.ofList (named.filter Register.calleeSaved.contains) compare).toList

/-- A procedure whose pseudo registers have been replaced. -/
structure Allocated where
  procedure : Procedure
  frame : Frame
  /-- The last interference graphs. -/
  graphs : List (InterferenceGraph Register)

/-- Allocates registers and stack slots, and replaces the pseudo registers by them. -/
def assignRegisters (p : Procedure) : Allocated :=
  let (coalesced, allocation) := allocate p
  let allocation := allocation.assignSlots coalesced.pseudoNames
  let final := coalesced.replacePseudos fun name =>
    (allocation.destination? name).map destinationOperand
  { procedure := final
    frame := .ofSlots allocation.stackSize final.savedRegisters
    graphs := allocation.graphs }

end Procedure

end ThreeAddress.Amd64
