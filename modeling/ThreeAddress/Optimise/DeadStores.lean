import ThreeAddress.FlowGraph.Backward
import ThreeAddress.FlowGraph.Instr
import ThreeAddress.Fresh.NameSupply
import ThreeAddress.Listing

/-!
# Dead stores

An assignment without other effects is dead if no path reads its variable before the next
assignment.  Liveness takes this into account: the operands of a dead assignment are not read, so
whole chains of dead assignments are found at once.

Aliased variables are never dead.  They are live at the exit, and calls and loads may read them.
-/

namespace ThreeAddress

namespace LiveNames

/-- Whether an instruction only assigns a variable that is not needed any more. -/
def isDead (aliased live : NameSet) (i : Instr) : Bool :=
  i.isPure && i.written?.any fun v => !live.contains v.name && !aliased.contains v.name

/-- Whether an instruction may read aliased variables without naming them. -/
def mayReadAliased : Instr → Bool
  | .call .. | .load .. => true
  | _ => false

/-- The names live before an instruction that is executed, from those live after it. -/
def transfer (aliased live : NameSet) (i : Instr) : NameSet :=
  let remaining := match i.written? with
    | some v => live.erase v.name
    | none => live
  let read := i.readVars.foldl (fun names v => names.insert v.name) remaining
  if mayReadAliased i then read ∪ aliased else read

/-- The names live before an instruction; a dead one is passed over. -/
def before (aliased : NameSet) (i : Instr) (live : NameSet) : NameSet :=
  if isDead aliased live i then live else transfer aliased live i

/-- The analysis of a body: a name is live at a point if it is read later. -/
def analysis (aliased : NameSet) (body : Listing Instr) : BackwardAnalysis String :=
  let blocks := (blocksOf Instr.flow body).toArray
  { graph := FlowGraph.ofCode Instr.flow body
    atExit := aliased
    transfer := fun n live => (blocks.getD n []).foldr (before aliased) live
    factBound := (body.flatMap Instr.reads).length + aliased.size }

end LiveNames

/-- Removes the dead instructions of a block, given the names live at its end. -/
def dropDead (aliased : NameSet) (block : Listing Instr) (live : NameSet) :
    Listing Instr × NameSet :=
  block.foldr
    (fun i (kept, live) =>
      if LiveNames.isDead aliased live i then (kept, live)
      else (i :: kept, LiveNames.transfer aliased live i))
    ([], live)

def eliminateDeadStores (aliased : NameSet) (body : Listing Instr) : Listing Instr :=
  let analysis := LiveNames.analysis aliased body
  let starts := analysis.solve
  (blocksOf Instr.flow body).zipIdx.flatMap fun (block, n) =>
    (dropDead aliased block (analysis.atEnd starts n)).1

end ThreeAddress
