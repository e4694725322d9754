import Std.Data.ExtTreeMap
import ThreeAddress.Fresh.NameSupply
import ThreeAddress.Registers.Coalescing
import ThreeAddress.Registers.Colouring

/-!
# Allocation

Rounds of liveness, interference and coalescing are repeated until no copy can be removed any more;
then the remaining pseudo registers are coloured.  What is left without a register is given a slot
in the stack frame.
-/

namespace ThreeAddress

/-- Where the value of a pseudo register is kept. -/
inductive Destination (R : Type) where
  | reg (r : R)
  /-- So many bytes below the base of the stack frame. -/
  | stack (bytes : Nat)
  deriving DecidableEq, Repr

def slotDisplacement (bytes : Nat) : Int := -(bytes : Int)

/-- The text of a distance in the stack frame. -/
def slotText (bytes : Nat) : String := toString bytes ++ " bytes"

/-- The result of register allocation for one function. -/
structure Allocation (R : Type) where
  registers : Std.ExtTreeMap String R
  spilled : NameSet
  /-- The names that have a stack slot, in the order of their slots. -/
  slots : List String
  /-- How many pseudo registers were merged away. -/
  coalesced : Nat
  /-- The last interference graph of every class. -/
  graphs : List (InterferenceGraph R)

namespace Allocation

variable {R : Type}

variable (a : Allocation R)

def register? (name : String) : Option R := a.registers[name]?

/-- Gives a stack slot to a name, unless it has a register or a slot already. -/
def assignSlot (name : String) : Allocation R :=
  if a.registers.contains name || a.slots.contains name then a
  else { a with slots := a.slots ++ [name] }

def assignSlots (names : List String) : Allocation R :=
  names.foldl assignSlot a

/-- The slot of a name, as its distance from the base of the frame.  Slots have eight bytes. -/
def slot? (name : String) : Option Nat :=
  (a.slots.idxOf? name).map fun n => 8 * (n + 1)

def destination? (name : String) : Option (Destination R) :=
  match a.register? name with
  | some r => some (.reg r)
  | none => (a.slot? name).map Destination.stack

def stackSize : Nat := 8 * a.slots.length

/-- The registers that are given to at least one name, in order. -/
def usedRegisters [Ord R] [Std.TransOrd R] (a : Allocation R) : Std.ExtTreeSet R :=
  Std.ExtTreeSet.ofList a.registers.values compare

end Allocation

/-! ### The allocator -/

section

variable {F R C L : Type} [Ord R] [Std.TransOrd R] [Std.LawfulEqOrd R] [DecidableEq R]
  [DecidableEq C] [DecidableEq L]

def AllocationProblem.graphs (p : AllocationProblem R C L) : List (C × InterferenceGraph R) :=
  let live := p.liveness
  p.classes.map fun c => (c, p.interference live c)

/-- How often a function names pseudo registers. -/
def AllocationProblem.pseudoUses (p : AllocationProblem R C L) : Nat :=
  ((p.code.flatMap fun a => a.reads ++ a.writes).filter Location.isPseudo).length

/-- A function that cannot be coalesced further. -/
structure Coalesced (F R C : Type) where
  function : F
  graphs : List (C × InterferenceGraph R)
  /-- How many pseudo registers were merged away. -/
  count : Nat

/-- Coalesces a function until nothing changes, for at most the given number of rounds.  Every
round but the last removes a pseudo register from the function. -/
def coalesceRounds [Target F R C L] : Nat → F → Nat → Coalesced F R C
  | fuel, f, count =>
    let problem : AllocationProblem R C L := Target.problem f
    let graphs := problem.coalesce problem.graphs
    let renames := graphs.flatMap fun (_, g) => g.renames
    match fuel, renames with
    | fuel + 1, _ :: _ => coalesceRounds fuel (Target.rename f renames) (count + renames.length)
    | _, _ => ⟨f, graphs, count⟩

def coalesceAll [Target F R C L] (f : F) : Coalesced F R C :=
  coalesceRounds (Target.problem f : AllocationProblem R C L).pseudoUses f 0

/-- Allocates registers for the pseudo registers of a function. -/
def allocate [Target F R C L] (f : F) : F × Allocation R :=
  let coalesced : Coalesced F R C := coalesceAll f
  let problem : AllocationProblem R C L := Target.problem coalesced.function
  let colourings := coalesced.graphs.map fun (c, g) => g.colour (problem.colours c)
  (coalesced.function,
    { registers := Std.ExtTreeMap.ofList (colourings.flatMap Colouring.registers) compare
      spilled := Std.ExtTreeSet.ofList (colourings.flatMap Colouring.spilled) compare
      slots := []
      coalesced := coalesced.count
      graphs := coalesced.graphs.map Prod.snd })

end

end ThreeAddress
