import ThreeAddress.FlowGraph.Instr
import ThreeAddress.Fresh.NameSupply
import ThreeAddress.Listing

/-!
# Copy propagation

A copy `x = y` is known at a point if it holds on every path that leads there.  Uses of `x` are
then replaced by `y`, and a copy that is already known is removed.

The known copies are found by visiting blocks from a queue until no block end changes.  A block
that was never visited stands for all copies.  A copy that is already known, in either direction,
is passed over without changing what is known, so a larger set at the start of a block need not
lead to a larger set at its end, and the search is not bound to settle: it is given a number of
visits, and has no result if it needs more.
-/

namespace ThreeAddress

/-- The fact that a variable holds the same value as a constant or another variable. -/
structure Copy where
  dst : Variable
  src : Value
  deriving DecidableEq, Repr

namespace Copy

/-- Whether assigning the variable ends the fact. -/
def involves (c : Copy) (v : Variable) : Bool := c.dst == v || c.src == .var v

/-- Whether one of the named variables takes part in the fact. -/
def touches (c : Copy) (names : NameSet) : Bool :=
  names.contains c.dst.name || c.src.var?.any fun v => names.contains v.name

end Copy

/-- The copies known at a point. -/
abbrev Copies := List Copy

namespace Copies

/-- Whether copying `src` into `dst` would change nothing. -/
def knows (known : Copies) (dst : Variable) (src : Value) : Bool :=
  src == .var dst || known.contains ⟨dst, src⟩ ||
    match src with
    | .var v => known.contains ⟨v, .var dst⟩
    | .const _ => false

/-- Whether the instruction is a copy that would change nothing. -/
def makesRedundant (known : Copies) : Instr → Bool
  | .copy dst src => known.knows dst src
  | _ => false

def sourceOf? (known : Copies) (v : Variable) : Option Value :=
  (known.find? fun c => c.dst == v).map Copy.src

/-- A value, or what it is known to be a copy of. -/
def substitute (known : Copies) : Value → Value
  | .var v => (known.sourceOf? v).getD (.var v)
  | .const c => .const c

/-- The copies that survive an instruction.  A call or a store may change any aliased variable, and
an assignment changes its destination. -/
def surviving (aliased : NameSet) (known : Copies) (i : Instr) : Copies :=
  let kept := match i with
    | .call .. | .store .. => known.filter fun c => !c.touches aliased
    | _ => known
  match i.written? with
  | some v => kept.filter fun c => !c.involves v
  | none => kept

/-- What is known after an instruction.  Only copies between equal types are recorded. -/
def transfer (aliased : NameSet) (known : Copies) (i : Instr) : Copies :=
  let kept := known.surviving aliased i
  match i with
  | .copy dst src =>
    if dst.type = src.type ∧ src ≠ .var dst then ⟨dst, src⟩ :: kept else kept
  | _ => kept

/-- What is known after an instruction, if a redundant copy is passed over. -/
def after (aliased : NameSet) (known : Copies) (i : Instr) : Copies :=
  if known.makesRedundant i then known else known.transfer aliased i

def same (a b : Copies) : Bool := a.all b.contains && b.all a.contains

/-- The copies in both of two sets, where `none` is the set of all copies. -/
def meet : Option Copies → Option Copies → Option Copies
  | none, b => b
  | a, none => a
  | some a, some b => some (a.filter b.contains)

end Copies

structure CopySearch where
  /-- The blocks to visit, the next one first. -/
  waiting : List Nat
  /-- What is known at the start of every block that was visited. -/
  starts : Array (Option Copies)
  /-- What is known at the end of every block that was visited. -/
  ends : Array (Option Copies)
  deriving DecidableEq

namespace CopySearch

/-- Nothing is visited yet and every block waits for a visit, in order. -/
def initial (size : Nat) : CopySearch where
  waiting := List.range size
  starts := Array.replicate size none
  ends := Array.replicate size none

/-- What is known at the start of a block: what is known at the end of all its predecessors.
Nothing is known at the entry. -/
def atStart (g : FlowGraph) (s : CopySearch) (n : Nat) : Copies :=
  let incoming := (g.predecessors (.block n)).map fun node =>
    match node with
    | .block p => s.ends.getD p none
    | _ => some []
  (incoming.foldl Copies.meet none).getD []

/-- Visits a block.  If what is known at its end changes, its successors wait for a visit. -/
def visit (g : FlowGraph) (blocks : Array (List Instr)) (aliased : NameSet) (s : CopySearch)
    (n : Nat) (waiting : List Nat) : CopySearch :=
  let known := s.atStart g n
  let atEnd := (blocks.getD n []).foldl (Copies.after aliased) known
  let starts := s.starts.setIfInBounds n (some known)
  if (s.ends.getD n none).any fun old => old.same atEnd then
    { s with waiting := waiting, starts := starts }
  else
    let fresh := (g.successorBlocks (.block n)).filter fun b => !waiting.contains b
    { waiting := waiting ++ fresh
      starts := starts
      ends := s.ends.setIfInBounds n (some atEnd) }

/-- Visits waiting blocks until none is left.  There is no result if the visits run out first. -/
def run? (g : FlowGraph) (blocks : Array (List Instr)) (aliased : NameSet) :
    Nat → CopySearch → Option CopySearch
  | visits, s =>
    match s.waiting, visits with
    | [], _ => some s
    | _ :: _, 0 => none
    | n :: waiting, visits + 1 => run? g blocks aliased visits (s.visit g blocks aliased n waiting)

end CopySearch

/-- Propagates copies through a block, given what is known at its start. -/
def propagateBlock (aliased : NameSet) : Copies → Listing Instr → Listing Instr
  | _, [] => []
  | known, i :: rest =>
    let i := i.mapReads known.substitute
    if known.makesRedundant i then propagateBlock aliased known rest
    else i :: propagateBlock aliased (known.transfer aliased i) rest

/-- The copies known at the start of every block, if the search settles. -/
def knownCopies? (visits : Nat) (aliased : NameSet) (body : Listing Instr) :
    Option (Array (Option Copies)) :=
  let g := FlowGraph.ofCode Instr.flow body
  let blocks := (blocksOf Instr.flow body).toArray
  (CopySearch.run? g blocks aliased visits (.initial g.size)).map CopySearch.starts

/-- Replaces variables by what they are known to be copies of, and removes known copies. -/
def propagateCopies? (visits : Nat) (aliased : NameSet) (body : Listing Instr) :
    Option (Listing Instr) :=
  (knownCopies? visits aliased body).map fun starts =>
    ((blocksOf Instr.flow body).zip starts.toList).flatMap fun (block, known) =>
      propagateBlock aliased (known.getD []) block

end ThreeAddress
