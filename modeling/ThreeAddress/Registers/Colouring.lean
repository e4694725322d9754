import ThreeAddress.Registers.Interference

/-!
# Colouring

Gives registers to the pseudo registers of an interference graph so that no two neighbours share
one.  Nodes are removed one after another, first those that have fewer neighbours left than there
are registers; then registers are handed out in the reverse order.  A node with many neighbours may
still find a free register, and is spilled only if it does not.
-/

namespace ThreeAddress

/-- The registers given to pseudo registers, and those left without. -/
structure Colouring (R : Type) where
  registers : List (String × R)
  /-- In ascending order. -/
  spilled : List String

namespace InterferenceGraph

variable {R : Type} [DecidableEq R]

variable (g : InterferenceGraph R)

/-- The node that is cheaper to spill: the one with the lower cost per neighbour, the first if they
are equal. -/
def cheaper (degrees : Array Nat) (best n : Nat) : Nat :=
  if g.spillCost n * degrees.getD best 0 < g.spillCost best * degrees.getD n 0 then n else best

/-- The next node to remove, out of a first and others: the first one with fewer than `k`
neighbours left, else the one that is cheapest to spill. -/
def nextRemoval (k : Nat) (degrees : Array Nat) (first : Nat) (others : List Nat) : Nat :=
  ((first :: others).find? fun n => degrees.getD n 0 < k).getD
    (others.foldl (g.cheaper degrees) first)

/-- Takes nodes out of the remaining ones until none is left.  The last node taken out comes first
in the result. -/
def removeAll (g : InterferenceGraph R) (k : Nat) : Nat → Array Nat → List Nat → List Nat → List Nat
  | fuel + 1, degrees, first :: others, removed =>
    let n := g.nextRemoval k degrees first others
    let degrees := (g.neighbours n).toList.foldl
      (fun degrees m => degrees.modify m (· - 1)) degrees
    g.removeAll k fuel degrees ((first :: others).erase n) (n :: removed)
  | _, _, _, removed => removed

/-- The pseudo registers of the graph, in the reverse of the order in which they are removed. -/
def removalOrder (k : Nat) : List Nat :=
  let degrees := (Array.range g.size).map g.degree
  let remaining := g.liveNodes.filter fun n => !g.isPrecoloured n
  g.removeAll k remaining.length degrees remaining []

/-- The registers that the nodes have. -/
abbrev Assigned (R : Type) := Array (Option R)

/-- Machine registers have their own colour. -/
def precoloured : Assigned R :=
  g.nodes.map fun n =>
    match n.location with
    | .reg r => if n.isMerged then none else some r
    | .pseudo _ => none

/-- Gives a node the first register that none of its neighbours has, if there is one. -/
def assign (colours : List R) (assigned : Assigned R) (n : Nat) : Assigned R :=
  let taken := (g.neighbours n).toList.filterMap fun m => assigned.getD m none
  match colours.find? fun r => !taken.contains r with
  | some r => assigned.setIfInBounds n (some r)
  | none => assigned

/-- Colours the pseudo registers of a graph with the given registers. -/
def colour (colours : List R) : Colouring R :=
  let order := g.removalOrder colours.length
  let assigned := order.foldl (g.assign colours) g.precoloured
  let named := order.filterMap fun n =>
    ((g.location? n).bind Location.pseudo?).map fun name => (name, assigned.getD n none)
  { registers := named.filterMap fun (name, r) => r.map (name, ·)
    spilled :=
      (named.filterMap fun (name, r) => if r.isNone then some name else none).mergeSort
        fun a b => (compare a b).isLE }

end InterferenceGraph

end ThreeAddress
