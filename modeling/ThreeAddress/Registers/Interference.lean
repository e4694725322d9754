import ThreeAddress.Registers.Liveness

/-!
# Interference graphs

Two locations interfere if one is written while the other holds a value that is still needed, so
they cannot share a register.  Nodes are numbered in the order in which their locations are added.
A node can be merged into another, which then stands for both; the merged node stays in the
numbering but takes no further part.
-/

namespace ThreeAddress

structure InterferenceNode (R : Type) where
  location : Location R
  /-- The nodes it is connected to, by number. -/
  neighbours : Std.ExtTreeSet Nat
  /-- How often the location is read or written. -/
  spillCost : Nat
  isMerged : Bool
  /-- The node that stands for its location. -/
  representative : Nat

/-- Nodes that stand for a machine register have their colour from the start. -/
def InterferenceNode.isPrecoloured {R : Type} (n : InterferenceNode R) : Bool :=
  !n.location.isPseudo

/-- The interference graph of one register class. -/
structure InterferenceGraph (R : Type) where
  name : String
  nodes : Array (InterferenceNode R)

namespace InterferenceGraph

variable {R : Type} [DecidableEq R]

def empty (name : String) : InterferenceGraph R := ⟨name, #[]⟩

variable (g : InterferenceGraph R)

/-! ### Queries -/

/-- The number of nodes ever added. -/
def size : Nat := g.nodes.size

/-- The node that stands for a location. -/
def idOf? (l : Location R) : Option Nat :=
  (g.nodes.find? fun n => n.location == l).map InterferenceNode.representative

def neighbours (n : Nat) : Std.ExtTreeSet Nat :=
  (g.nodes[n]?.map InterferenceNode.neighbours).getD ∅

def degree (n : Nat) : Nat := (g.neighbours n).size

def interferes (a b : Nat) : Bool := (g.neighbours a).contains b

def spillCost (n : Nat) : Nat :=
  (g.nodes[n]?.map InterferenceNode.spillCost).getD 0

def location? (n : Nat) : Option (Location R) :=
  g.nodes[n]?.map InterferenceNode.location

def isPrecoloured (n : Nat) : Bool :=
  g.nodes[n]?.any InterferenceNode.isPrecoloured

def isMerged (n : Nat) : Bool :=
  g.nodes[n]?.any InterferenceNode.isMerged

/-- The nodes that still take part, in order. -/
def liveNodes : List Nat :=
  (List.range g.size).filter fun n => !g.isMerged n

/-- Every edge once, the lower node first. -/
def edges : List (Nat × Nat) :=
  g.liveNodes.flatMap fun a => ((g.neighbours a).toList.filter (a < ·)).map (a, ·)

/-! ### Construction -/

/-- The node for a location, which is added if there is none. -/
def add (l : Location R) : Nat × InterferenceGraph R :=
  match g.idOf? l with
  | some n => (n, g)
  | none =>
    let n := g.size
    (n, { g with nodes := g.nodes.push ⟨l, ∅, 0, false, n⟩ })

def modify (n : Nat) (f : InterferenceNode R → InterferenceNode R) : InterferenceGraph R :=
  { g with nodes := g.nodes.modify n f }

/-- Connects two nodes; a node is never connected to itself. -/
def addEdge (a b : Nat) : InterferenceGraph R :=
  if a = b then g
  else
    (g.modify a fun n => { n with neighbours := n.neighbours.insert b }).modify b
      fun n => { n with neighbours := n.neighbours.insert a }

/-- Counts further uses of a node. -/
def bumpCost (n : Nat) (uses : Nat) : InterferenceGraph R :=
  g.modify n fun node => { node with spillCost := node.spillCost + uses }

/-- Moves one edge of a node that is being merged to the node it is merged into. -/
def moveEdge (source into : Nat) (g : InterferenceGraph R) (n : Nat) : InterferenceGraph R :=
  (g.modify n fun node => { node with neighbours := node.neighbours.erase source }).addEdge into n

/-- Merges one node into another, which inherits its edges, its cost and the locations it stands
for. -/
def merge (source into : Nat) : InterferenceGraph R :=
  let inherited := (g.neighbours source).toList
  let isolated := g.modify source fun node => { node with neighbours := ∅ }
  let moved := inherited.foldl (moveEdge source into) isolated
  let costed := moved.bumpCost into (moved.spillCost source)
  let retired := costed.modify source fun node => { node with isMerged := true }
  { retired with
    nodes := retired.nodes.map fun node =>
      if node.representative = source then { node with representative := into } else node }

end InterferenceGraph

namespace AllocationProblem

variable {R C L : Type} [Ord R] [Std.TransOrd R] [DecidableEq R] [DecidableEq C]

/-- Adds what one instruction contributes to the graph of a class: its uses of locations, and an
edge between each location it writes and each other location live after it.  The source of a copy
may share a register with its destination. -/
def interfere (p : AllocationProblem R C L) (c : C) (g : InterferenceGraph R) (a : Access R L)
    (after : LocationSet R) : InterferenceGraph R :=
  let inClass := fun l => p.classOf l == some c
  let writes := a.writes.filter inClass
  let live := after.toList.filter inClass
  let source? := a.move?.map Prod.snd
  let used := (a.reads.filter inClass ++ writes).foldl
    (fun g l =>
      let (n, g) := g.add l
      g.bumpCost n 1) g
  writes.foldl
    (fun g written =>
      let (w, g) := g.add written
      (live.filter fun l => l ≠ written ∧ some l ≠ source?).foldl
        (fun g l =>
          let (n, g) := g.add l
          g.addEdge w n) g)
    used

/-- The interference graph of a class.  The registers of the class are added first. -/
def interference (p : AllocationProblem R C L) (live : List (Live R)) (c : C) :
    InterferenceGraph R :=
  let registers := (p.colours c).foldl (fun g r => (g.add (.reg r)).2) (.empty (p.className c))
  (p.code.zip live).foldl (fun g (a, l) => p.interfere c g a l.after) registers

end AllocationProblem

end ThreeAddress
