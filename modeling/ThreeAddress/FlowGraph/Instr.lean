import ThreeAddress.FlowGraph.Basic
import ThreeAddress.Instr.Basic

/-!
# Control flow of three-address code
-/

namespace ThreeAddress

/-- How a three-address instruction affects control flow. -/
def Instr.flow : Instr → Flow Label
  | .label l => .label l
  | .jump l => .jump l
  | .jumpIfZero _ l | .jumpIfNotZero _ l => .branch l
  | .ret _ => .ret
  | _ => .next

end ThreeAddress
