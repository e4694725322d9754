import ThreeAddress.Fresh.NameSupply
import ThreeAddress.Instr.Basic
import ThreeAddress.Listing

/-!
# Address-taken variables

A pointer can only refer to a variable whose address is taken somewhere in the function, so these
are the locals that may be read or written other than by name.
-/

namespace ThreeAddress

def addressTaken (body : Listing Instr) : NameSet :=
  Std.ExtTreeSet.ofList
    (body.filterMap fun i => (i.addressed?.bind Value.var?).map Variable.name) compare

end ThreeAddress
