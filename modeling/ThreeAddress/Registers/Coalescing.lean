import ThreeAddress.Registers.Interference

/-!
# Coalescing

The two sides of a copy that do not interfere can share a register, and then the copy disappears.
They are merged only if that cannot make the graph harder to colour.
-/

namespace ThreeAddress

namespace InterferenceGraph

variable {R : Type} [DecidableEq R]

variable (g : InterferenceGraph R)

/-- Whether a node may be hard to colour with `k` registers. -/
def isSignificant (k n : Nat) : Bool :=
  g.isPrecoloured n || k ≤ g.degree n

/-- Two pseudo registers may be merged if together they have fewer than `k` neighbours that may be
hard to colour. -/
def briggs (k a b : Nat) : Bool :=
  ((g.neighbours a ∪ g.neighbours b).toList.filter (g.isSignificant k)).length < k

/-- A pseudo register may be merged into a machine register if each of its neighbours interferes
with that register already, is a machine register, or is easy to colour. -/
def george (k pseudo hard : Nat) : Bool :=
  (g.neighbours pseudo).toList.all fun n =>
    g.interferes n hard || g.isPrecoloured n || g.degree n < k

/-- Merges two nodes connected by a copy, if that is safe.  A pseudo register goes into a machine
register, and the source of a copy between pseudo registers into its destination. -/
def coalesceNodes (k dst src : Nat) : InterferenceGraph R :=
  if dst = src || g.interferes dst src then g
  else
    match g.isPrecoloured dst, g.isPrecoloured src with
    | true, true => g
    | true, false => if g.george k src dst then g.merge src dst else g
    | false, true => if g.george k dst src then g.merge dst src else g
    | false, false => if g.briggs k dst src then g.merge src dst else g

/-- Merges the two sides of a copy, if both are in the graph and that is safe. -/
def coalesceMove (k : Nat) (dst src : Location R) : InterferenceGraph R :=
  match g.idOf? dst, g.idOf? src with
  | some a, some b => g.coalesceNodes k a b
  | _, _ => g

/-- The places of the pseudo registers whose nodes were merged. -/
def renames : Renaming R :=
  g.nodes.toList.filterMap fun n =>
    match n.isMerged, n.location with
    | true, .pseudo name =>
      (g.idOf? n.location).bind g.location? |>.map fun place => (name, place)
    | _, _ => none

end InterferenceGraph

/-- Changes the first graph of a class. -/
def modifyFirst {C G : Type} [DecidableEq C] (c : C) (f : G → G) : List (C × G) → List (C × G)
  | [] => []
  | (d, g) :: rest => if d = c then (d, f g) :: rest else (d, g) :: modifyFirst c f rest

namespace AllocationProblem

variable {R C L : Type} [DecidableEq R] [DecidableEq C]

/-- Merges along one copy, if both of its sides have the same class. -/
def coalesceOne (p : AllocationProblem R C L) (graphs : List (C × InterferenceGraph R))
    (a : Access R L) : List (C × InterferenceGraph R) :=
  match a.move? with
  | none => graphs
  | some (dst, src) =>
    match p.classOf dst, p.classOf src with
    | some c, some d =>
      if c = d then modifyFirst c (·.coalesceMove (p.colours c).length dst src) graphs else graphs
    | _, _ => graphs

/-- Merges along the copies of a function, in order. -/
def coalesce (p : AllocationProblem R C L) (graphs : List (C × InterferenceGraph R)) :
    List (C × InterferenceGraph R) :=
  p.code.foldl p.coalesceOne graphs

end AllocationProblem

end ThreeAddress
