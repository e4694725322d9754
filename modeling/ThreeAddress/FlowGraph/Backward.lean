import Std.Data.ExtTreeSet
import ThreeAddress.FlowGraph.Basic

/-!
# Backward analyses

A backward may-analysis assigns to every block the set of facts that hold at its start on some
path to the exit.  The sets grow from the empty set, block by block from the last to the first,
until a sweep changes nothing.
-/

namespace ThreeAddress

/-- Applies a function until it changes nothing, at most the given number of times. -/
def iterateUntilStable {σ : Type} [DecidableEq σ] (f : σ → σ) : Nat → σ → σ
  | 0, s => s
  | fuel + 1, s =>
    let next := f s
    if next = s then s else iterateUntilStable f fuel next

structure BackwardAnalysis (α : Type) [Ord α] where
  graph : FlowGraph
  /-- The facts that hold when the function is left. -/
  atExit : Std.ExtTreeSet α
  /-- The facts at the start of a block, from those at its end. -/
  transfer : Nat → Std.ExtTreeSet α → Std.ExtTreeSet α
  /-- How many facts there can be. -/
  factBound : Nat

namespace BackwardAnalysis

variable {α : Type} [Ord α] [Std.TransOrd α] [Std.LawfulEqOrd α]

/-- The facts at the end of a block: those at the start of its successors. -/
def atEnd (a : BackwardAnalysis α) (starts : Array (Std.ExtTreeSet α)) (n : Nat) :
    Std.ExtTreeSet α :=
  (a.graph.successors (.block n)).foldl
    (fun facts node =>
      match node with
      | .exit => facts ∪ a.atExit
      | .block s => facts ∪ starts.getD s ∅
      | .entry => facts)
    ∅

/-- Recomputes every block start, the last block first. -/
def sweep (a : BackwardAnalysis α) (starts : Array (Std.ExtTreeSet α)) :
    Array (Std.ExtTreeSet α) :=
  (List.range a.graph.size).foldr
    (fun n starts => starts.setIfInBounds n (a.transfer n (a.atEnd starts n))) starts

/-- The facts at the start of every block.  Every sweep but the last adds a fact to some block,
which bounds their number. -/
def solve (a : BackwardAnalysis α) : Array (Std.ExtTreeSet α) :=
  iterateUntilStable a.sweep (a.graph.size * a.factBound + 1)
    (Array.replicate a.graph.size ∅)

end BackwardAnalysis

end ThreeAddress
