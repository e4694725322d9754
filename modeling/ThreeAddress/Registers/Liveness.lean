import ThreeAddress.FlowGraph.Backward
import ThreeAddress.Registers.Target

/-!
# Liveness of locations

A location is live at a point if its value may still be read: by an instruction that comes before
the next write, or after the function returns.  Only locations with a class are tracked.
-/

namespace ThreeAddress

namespace AllocationProblem

variable {R C L : Type} [Ord R] [Std.TransOrd R] [Std.LawfulEqOrd R] [DecidableEq L]

variable (p : AllocationProblem R C L)

/-- Whether a location takes part in allocation. -/
def isTracked (l : Location R) : Bool := (p.classOf l).isSome

/-- The locations live before an instruction, from those live after it. -/
def liveBefore (a : Access R L) (live : LocationSet R) : LocationSet R :=
  let kept := a.writes.foldl (fun live l => live.erase l) live
  (a.reads.filter p.isTracked).foldl (fun live l => live.insert l) kept

def liveAtExit : LocationSet R :=
  Std.ExtTreeSet.ofList ((p.exitLive.map Location.reg).filter p.isTracked) compare

def blocks : List (List (Access R L)) :=
  blocksOf Access.flow p.code

/-- The backward analysis that computes liveness block by block. -/
def livenessAnalysis : BackwardAnalysis (Location R) :=
  let blocks := p.blocks.toArray
  { graph := FlowGraph.ofCode Access.flow p.code
    atExit := p.liveAtExit
    transfer := fun n live => (blocks.getD n []).foldr p.liveBefore live
    factBound := (p.code.flatMap Access.reads).length + p.exitLive.length }

/-- The locations live before and after an instruction. -/
structure Live (R : Type) [Ord R] where
  before : LocationSet R
  after : LocationSet R

/-- Liveness around every instruction of a block, given the locations live at its end; and the
locations live at its start. -/
def liveThrough (block : List (Access R L)) (live : LocationSet R) :
    List (Live R) × LocationSet R :=
  block.foldr
    (fun a (rest, live) =>
      let before := p.liveBefore a live
      (⟨before, live⟩ :: rest, before))
    ([], live)

def liveness : List (Live R) :=
  let analysis := p.livenessAnalysis
  let starts := analysis.solve
  p.blocks.zipIdx.flatMap fun (block, n) => (p.liveThrough block (analysis.atEnd starts n)).1

end AllocationProblem

end ThreeAddress
