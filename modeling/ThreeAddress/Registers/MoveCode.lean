import ThreeAddress.Registers.Target

/-!
# Move code

The smallest language that register allocation makes sense for: copies, operations that read and
write any number of locations, and control flow.  Register classes are numbered, and every pseudo
register belongs to the first class unless something else is said of it.
-/

namespace ThreeAddress

inductive MoveInstr (R : Type) where
  | mov (dst src : Location R)
  /-- Computes the written locations from the read ones. -/
  | op (writes reads : List (Location R))
  | label (l : String)
  | jump (l : String)
  | branch (l : String)
  | ret
  deriving DecidableEq, Repr

namespace MoveInstr

variable {R : Type}

def access : MoveInstr R → Access R String
  | mov dst src => ⟨.next, [src], [dst], some (dst, src)⟩
  | op writes reads => ⟨.next, reads, writes, none⟩
  | label l => ⟨.label l, [], [], none⟩
  | jump l => ⟨.jump l, [], [], none⟩
  | branch l => ⟨.branch l, [], [], none⟩
  | ret => ⟨.ret, [], [], none⟩

def map (f : Location R → Location R) : MoveInstr R → MoveInstr R
  | mov dst src => mov (f dst) (f src)
  | op writes reads => op (writes.map f) (reads.map f)
  | label l => label l
  | jump l => jump l
  | branch l => branch l
  | ret => ret

def isSelfMove [DecidableEq R] : MoveInstr R → Bool
  | mov dst src => dst == src
  | _ => false

def locations (i : MoveInstr R) : List (Location R) := i.access.writes ++ i.access.reads

end MoveInstr

structure MoveFunction (R : Type) where
  body : List (MoveInstr R)
  /-- The registers of every class. -/
  colours : List (List R)
  /-- The classes of the pseudo registers that are not in class zero, or in none. -/
  classes : List (String × Option Nat)
  /-- The registers that are needed after the function returns. -/
  returns : List R

namespace MoveFunction

variable {R : Type} [DecidableEq R]

/-- A register belongs to the first class that may use it. -/
def classOf (f : MoveFunction R) : Location R → Option Nat
  | .reg r => f.colours.findIdx? fun colours => colours.contains r
  | .pseudo name => (f.classes.lookup name).getD (some 0)

def problem (f : MoveFunction R) : AllocationProblem R Nat String where
  code := f.body.map MoveInstr.access
  exitLive := f.returns
  classOf := f.classOf
  classes := List.range f.colours.length
  className := fun c => toString c
  colours := fun c => f.colours.getD c []

/-- The new place of a location. -/
def renamed (renames : Renaming R) : Location R → Location R
  | .reg r => .reg r
  | .pseudo name => (renames.lookup name).getD (.pseudo name)

/-- Renames pseudo registers and drops the copies of a location to itself. -/
def rename (f : MoveFunction R) (renames : Renaming R) : MoveFunction R :=
  let body := f.body.map (MoveInstr.map (renamed renames))
  { f with body := body.filter fun i => !i.isSelfMove }

instance : Target (MoveFunction R) R Nat String where
  problem := problem
  rename := rename

end MoveFunction

end ThreeAddress
