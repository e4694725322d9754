import ThreeAddress.FlowGraph.Basic
import ThreeAddress.Registers.Location

/-!
# What the allocator sees of a function

Register allocation does not depend on the machine.  It sees, for every instruction, which
locations are read and written and whether it is a copy; and it knows which registers each class
of locations may be given.
-/

namespace ThreeAddress

/-- The use an instruction makes of locations, with registers of type `R` and labels of type `L`. -/
structure Access (R L : Type) where
  flow : Flow L
  reads : List (Location R)
  writes : List (Location R)
  /-- For a copy between locations, its destination and source. -/
  move? : Option (Location R × Location R) := none

/-- A function as the allocator sees it, with register classes of type `C`. -/
structure AllocationProblem (R C L : Type) where
  code : List (Access R L)
  /-- The registers whose values are needed after the function returns. -/
  exitLive : List R
  /-- The class of a location; those without a class are left alone. -/
  classOf : Location R → Option C
  classes : List C
  className : C → String
  /-- The registers that locations of a class may be given, in order of preference. -/
  colours : C → List R

/-- New places for some pseudo registers. -/
abbrev Renaming (R : Type) := List (String × Location R)

/-- Functions of type `F` whose pseudo registers can be allocated. -/
class Target (F : Type) (R C L : outParam Type) where
  problem : F → AllocationProblem R C L
  /-- Replaces pseudo registers and drops the copies that become redundant. -/
  rename : F → Renaming R → F

end ThreeAddress
