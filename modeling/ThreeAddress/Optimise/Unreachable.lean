import ThreeAddress.FlowGraph.Instr
import ThreeAddress.Listing

/-!
# Unreachable code

Three removals, one after the other: blocks that control cannot reach, jumps to a place that comes
next anyway, and labels that nothing jumps to.
-/

namespace ThreeAddress

def keepReachable (body : Listing Instr) : Listing Instr :=
  ((blocksOf Instr.flow body).zip (FlowGraph.ofCode Instr.flow body).reachable).flatMap
    fun (block, reached) => if reached then block else []

/-- The labels at the start of a listing, up to the first other instruction. -/
def leadingLabels : Listing Instr → List Label
  | .label l :: rest => l :: leadingLabels rest
  | _ => []

/-- Removes every jump whose target is among the labels right after it. -/
def dropRedundantJumps : Listing Instr → Listing Instr
  | [] => []
  | i :: rest =>
    if i.target?.any fun target => (leadingLabels rest).contains target then
      dropRedundantJumps rest
    else i :: dropRedundantJumps rest

def dropUnusedLabels (body : Listing Instr) : Listing Instr :=
  let targets := body.filterMap Instr.target?
  body.filter fun i => i.label?.all fun l => targets.contains l

/-- Removes unreachable blocks, redundant jumps and unused labels. -/
def eliminateUnreachable (body : Listing Instr) : Listing Instr :=
  dropUnusedLabels (dropRedundantJumps (keepReachable body))

end ThreeAddress
