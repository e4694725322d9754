import Std.Data.ExtTreeMap
import ThreeAddress.Amd64.Instr
import ThreeAddress.Listing

/-!
# Procedures

A function in machine instructions, with what is known about its pseudo registers.
-/

namespace ThreeAddress.Amd64

structure PseudoInfo where
  width : Width
  /-- Whether it may be accessed through a pointer, so that it has to live in memory. -/
  isAliased : Bool
  deriving DecidableEq, Repr

/-- A function in machine instructions. -/
structure Procedure where
  name : String
  isGlobal : Bool
  body : Listing Instr
  pseudos : Std.ExtTreeMap String PseudoInfo
  results : List Register
  /-- The registers in which the calls of each symbol pass arguments. -/
  callArguments : Std.ExtTreeMap String (List Register)

def Procedure.text (p : Procedure) : String :=
  p.name ++ ":\n" ++ Listing.render Instr.text p.body

end ThreeAddress.Amd64
