/-!
# Control-flow graphs

Code is cut into basic blocks, runs that are entered only at their first instruction and left only
after their last.  The graph has a node for every block, one for the entry and one for the exit of
the function, and lists its edges in the order in which they are found, each once.
-/

namespace ThreeAddress

/-- How an instruction affects control flow, with labels of type `L`. -/
inductive Flow (L : Type) where
  /-- A place that can be jumped to. -/
  | label (l : L)
  | jump (l : L)
  /-- A jump that may not be taken. -/
  | branch (l : L)
  /-- Leaves the function. -/
  | ret
  /-- Continues with the next instruction. -/
  | next
  deriving DecidableEq, Repr

namespace Flow

variable {L : Type}

/-- A label starts a block, since it can be reached from elsewhere. -/
def startsBlock : Flow L → Bool
  | label _ => true
  | _ => false

/-- Control may go elsewhere after a jump, a branch or a return. -/
def endsBlock : Flow L → Bool
  | jump _ | branch _ | ret => true
  | label _ | next => false

end Flow

/-- The basic blocks of a piece of code: it is cut after every instruction that ends a block and
before every one that starts one. -/
def blocksOf {α L : Type} (flow : α → Flow L) (code : List α) : List (List α) :=
  code.splitBy fun a b => !(flow a).endsBlock && !(flow b).startsBlock

inductive FlowNode where
  | entry
  | block (n : Nat)
  | exit
  deriving DecidableEq, Repr

def FlowNode.block? : FlowNode → Option Nat
  | block n => some n
  | _ => none

structure FlowGraph where
  /-- How many instructions each block has. -/
  sizes : List Nat
  edges : List (FlowNode × FlowNode)
  deriving DecidableEq, Repr

namespace FlowGraph

variable {α L : Type}

/-! ### Construction -/

/-- The block that a label starts.  If several do it is the last, and a jump to a label that none
starts leaves the function. -/
def targetOf [DecidableEq L] (blocks : List (List (Flow L))) (l : L) : FlowNode :=
  match blocks.zipIdx.findRev? fun (block, _) => block.head? = some (.label l) with
  | some (_, n) => .block n
  | none => .exit

/-- Where control goes after block `n` if it does not jump. -/
def fallThrough (blocks : List (List (Flow L))) (n : Nat) : FlowNode :=
  if n + 1 < blocks.length then .block (n + 1) else .exit

/-- The successors of block `n`, as its last instruction determines them. -/
def leaving [DecidableEq L] (blocks : List (List (Flow L))) (n : Nat) (block : List (Flow L)) :
    List FlowNode :=
  let next := fallThrough blocks n
  match block.getLast? with
  | some (.jump l) => [targetOf blocks l]
  | some (.branch l) =>
    let target := targetOf blocks l
    if target = next then [target] else [target, next]
  | some .ret => [.exit]
  | _ => [next]

/-- The graph of a sequence of blocks.  Control enters at the first block. -/
def ofBlocks [DecidableEq L] (blocks : List (List (Flow L))) : FlowGraph where
  sizes := blocks.map List.length
  edges :=
    let first := if blocks.isEmpty then FlowNode.exit else .block 0
    (.entry, first) :: blocks.zipIdx.flatMap fun (block, n) =>
      (leaving blocks n block).map (FlowNode.block n, ·)

def ofCode [DecidableEq L] (flow : α → Flow L) (code : List α) : FlowGraph :=
  ofBlocks ((blocksOf flow code).map (·.map flow))

/-! ### Queries -/

variable (g : FlowGraph)

def size : Nat := g.sizes.length

/-- The first position and the end of every block in a list of sizes, counted from a position. -/
def rangesFrom : Nat → List Nat → List (Nat × Nat)
  | _, [] => []
  | start, n :: rest => (start, start + n) :: rangesFrom (start + n) rest

/-- The positions of every block in the code, the end excluded. -/
def ranges : List (Nat × Nat) := rangesFrom 0 g.sizes

def successors (node : FlowNode) : List FlowNode :=
  g.edges.filterMap fun (a, b) => if a = node then some b else none

def predecessors (node : FlowNode) : List FlowNode :=
  g.edges.filterMap fun (a, b) => if b = node then some a else none

def successorBlocks (node : FlowNode) : List Nat :=
  (g.successors node).filterMap FlowNode.block?

/-- Extends the blocks found so far by everything that can be reached from the waiting nodes.  A
block waits at most once, so the number of blocks bounds the number of steps. -/
def search (g : FlowGraph) : Nat → List FlowNode → List Nat → List Nat
  | 0, _, found => found
  | _, [], found => found
  | fuel + 1, node :: waiting, found =>
    let fresh := (g.successorBlocks node).filter fun n => !found.contains n
    g.search fuel (fresh.map FlowNode.block ++ waiting) (fresh ++ found)

def reachableBlocks : List Nat := g.search (g.size + 1) [.entry] []

/-- For every block, whether it can be reached from the entry. -/
def reachable : List Bool :=
  let found := g.reachableBlocks
  (List.range g.size).map found.contains

end FlowGraph

end ThreeAddress
