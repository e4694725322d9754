import ThreeAddress.Amd64.Allocate
import ThreeAddress.Amd64.Assembly
import ThreeAddress.Amd64.Encodable
import ThreeAddress.Amd64.Lowering.Function
import ThreeAddress.Registers.Dot

/-!
# Code generation

Lowers the functions of a program one after another, allocates their registers, makes their
instructions encodable, and puts the assembly file together.
-/

namespace ThreeAddress.Amd64

/-- What becomes of one function: its procedure and the states recorded on the way. -/
structure Generated where
  emitted : EmittedProcedure
  dumps : List Dump

/-- Allocates the registers of a lowered procedure and makes it encodable. -/
def finish (c : Config) (p : Procedure) : Generated :=
  let wanted := c.dumps.wants p.name
  let allocated := p.assignRegisters
  let final := { allocated.procedure with body := legaliseAll allocated.procedure.body }
  let drawings := allocated.graphs.map fun g =>
    (⟨p.name, "interference." ++ g.name, g.dot Register.text⟩ : Dump)
  { emitted := ⟨final, allocated.frame⟩
    dumps :=
      (if c.dumps.assembly && wanted then [⟨p.name, "asm.pseudo", p.text⟩] else []) ++
      (if c.dumps.interference && wanted then drawings else []) ++
      (if c.dumps.assembly && wanted then [⟨p.name, "asm.allocated", final.text⟩] else []) }

/-- Lowers functions in order; they share one pool of constants. -/
def lowerFunctions (p : Program) (platform : Platform) :
    List Function → ConstantPool → Except LoweringError (List Procedure × ConstantPool)
  | [], constants => .ok ([], constants)
  | f :: rest, constants => do
    let (procedure, constants) ← lowerFunction p platform f constants
    let (procedures, constants) ← lowerFunctions p platform rest constants
    return (procedure :: procedures, constants)

/-- The assembly file of a program, and the states recorded on the way. -/
def generate (p : Program) (c : Config) : Except LoweringError (String × List Dump) := do
  let (procedures, constants) ← lowerFunctions p c.platform p.functions (.empty c.platform)
  let generated := procedures.map (finish c)
  let assembly : Assembly :=
    { platform := c.platform
      procedures := generated.map Generated.emitted
      statics := p.statics
      constants := constants }
  return (assembly.text, generated.flatMap Generated.dumps)

end ThreeAddress.Amd64
