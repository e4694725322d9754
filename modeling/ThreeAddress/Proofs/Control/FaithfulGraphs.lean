import Mathlib.Algebra.GroupWithZero.Nat
import ThreeAddress.Proofs.Control.Reachability

/-!
# Faithful control-flow graphs

The graph of a piece of code says about blocks what the code says about single instructions.  The
blocks are ranges of positions that follow one another from the first position to the end.  Control
enters a block at its first instruction and leaves it after its last one, and the edges from a block
lead to the nodes that hold the positions where control goes from there.
-/

namespace ThreeAddress

open List Option

/-- Ranges follow one another from a position to another one, without a gap, and none is empty. -/
def Tile : Nat → Nat → List (Nat × Nat) → Prop
  | start, stop, [] => start = stop
  | start, stop, range :: rest => range.1 = start ∧ range.1 < range.2 ∧ Tile range.2 stop rest

namespace FlowGraph

/-- A block holds the positions in its range, and the exit the one at which the code ends. -/
inductive Holds (g : FlowGraph) (length : Nat) : FlowNode → Nat → Prop
  | block {n k : Nat} {range : Nat × Nat} (hrange : g.ranges[n]? = some range)
      (hfirst : range.1 ≤ k) (hlast : k < range.2) : Holds g length (.block n) k
  | exit : Holds g length .exit length

/-- A graph says where control goes in a piece of code. -/
structure Faithful {α L : Type} [DecidableEq L] (g : FlowGraph) (flow : α → Flow L)
    (code : List α) : Prop where
  tile : Tile 0 code.length g.ranges
  /-- Labels are found only at the start of a block. -/
  starts : ∀ {n k a}, g.Holds code.length (.block n) k → code[k]? = some a →
    (flow a).startsBlock = true → ∃ stop, g.ranges[n]? = some (k, stop)
  /-- Jumps, branches and returns are found only at the end of a block. -/
  ends : ∀ {n k a}, g.Holds code.length (.block n) k → code[k]? = some a →
    (flow a).endsBlock = true → ∃ start, g.ranges[n]? = some (start, k + 1)
  /-- Control leaves a block for the nodes of the positions that follow its last one. -/
  successors : ∀ {n start last}, g.ranges[n]? = some (start, last + 1) → ∀ node,
    node ∈ g.successors (.block n) ↔
      ∃ k ∈ nextPositions flow code last, g.Holds code.length node k
  nodup_successors : ∀ node, (g.successors node).Nodup
  /-- Control enters at the first position. -/
  entry : ∀ node, node ∈ g.successors .entry ↔ g.Holds code.length node 0
  exit : g.successors .exit = []
  predecessors : ∀ node node', node ∈ g.predecessors node' ↔ node' ∈ g.successors node
  nodup_predecessors : ∀ node, (g.predecessors node).Nodup
  /-- There is an answer for every block. -/
  length_reachable : g.reachable.length = g.ranges.length
  reachable : ∀ n, g.reachable[n]? = some true ↔ g.Reaches .entry (.block n)

variable {α L : Type} {flow : α → Flow L} {code : List α} {n k : Nat}

/-! ### Ranges -/

theorem tile_rangesFrom (sizes : List Nat) (h : ∀ size ∈ sizes, 0 < size) (start : Nat) :
    Tile start (start + sizes.sum) (rangesFrom start sizes) := by
  induction sizes generalizing start with
  | nil => rfl
  | cons size rest ih =>
    obtain ⟨hsize, hrest⟩ := forall_mem_cons.mp h
    rw [sum_cons, ← Nat.add_assoc]
    exact ⟨rfl, Nat.lt_add_of_pos_right hsize, ih hrest _⟩

@[simp] theorem length_rangesFrom (start : Nat) (sizes : List Nat) :
    (rangesFrom start sizes).length = sizes.length := by
  induction sizes generalizing start with
  | nil => rfl
  | cons size rest ih => rw [rangesFrom, length_cons, length_cons, ih]

theorem getElem?_rangesFrom (blocks : List (List α)) (start : Nat) :
    (rangesFrom start (blocks.map List.length))[n]? = blocks[n]?.map fun b =>
      (start + blockStart blocks n, start + blockStart blocks n + b.length) := by
  induction blocks generalizing n start with
  | nil => rfl
  | cons b rest ih =>
    rw [map_cons, rangesFrom]
    cases n with
    | zero => simp
    | succ n =>
      rw [getElem?_cons_succ, getElem?_cons_succ, ih, blockStart_cons_succ]
      simp only [Nat.add_assoc]

section

variable [DecidableEq L]

section

variable (flow : α → Flow L) (code : List α)

theorem ranges_ofCode :
    (ofCode flow code).ranges = rangesFrom 0 ((blocksOf flow code).map List.length) := by
  simp only [ranges, ofCode, ofBlocks, List.map_map]
  congr 2
  funext b
  exact length_map _

theorem getElem?_ranges_ofCode (n : Nat) :
    (ofCode flow code).ranges[n]? = (blocksOf flow code)[n]?.map fun b =>
      (blockStart (blocksOf flow code) n, blockStart (blocksOf flow code) n + b.length) := by
  rw [ranges_ofCode, getElem?_rangesFrom]
  simp only [Nat.zero_add]

theorem tile_ofCode : Tile 0 code.length (ofCode flow code).ranges := by
  have htile := tile_rangesFrom ((blocksOf flow code).map length) ?_ 0
  · rwa [← length_flatten, flatten_blocksOf, Nat.zero_add, ← ranges_ofCode] at htile
  · intro size hsize
    obtain ⟨b, hb, rfl⟩ := mem_map.mp hsize
    exact length_pos_iff.mpr (ne_nil_of_mem_splitBy hb)

end

theorem holds_block_iff : (ofCode flow code).Holds code.length (.block n) k ↔
      ∃ j, InBlock (blocksOf flow code) k n j := by
  constructor
  · rintro (⟨hrange, hfirst, hlast⟩ | _)
    rw [getElem?_ranges_ofCode] at hrange
    obtain ⟨b, hb, rfl⟩ := map_eq_some_iff.mp hrange
    exact ⟨k - blockStart (blocksOf flow code) n, b, hb, Nat.sub_lt_left_of_lt_add hfirst hlast,
      (Nat.add_sub_cancel' hfirst).symm⟩
  · rintro ⟨j, b, hb, hj, rfl⟩
    have hrange := getElem?_ranges_ofCode flow code n
    rw [hb] at hrange
    exact .block hrange (Nat.le_add_right _ _) (Nat.add_lt_add_left hj _)

theorem holds_iff_of_enters {m : Nat} {node node' : FlowNode} (h : Enters flow code m node') :
    (ofCode flow code).Holds code.length node m ↔ node = node' := by
  rcases h with ⟨n, rfl, hin⟩ | ⟨rfl, rfl⟩
  · refine ⟨fun hnode => ?_, fun hnode => hnode ▸ holds_block_iff.mpr ⟨0, hin⟩⟩
    cases node with
    | block n' =>
      obtain ⟨j, hin'⟩ := holds_block_iff.mp hnode
      rw [(hin'.unique hin).1]
    | entry => cases hnode
    | exit =>
      -- The position at the end of the code is in no block.
      cases hnode
      exact absurd hin.lt_length (by simp)
  · refine ⟨fun hnode => ?_, fun hnode => hnode ▸ .exit⟩
    cases node with
    | block n' =>
      obtain ⟨j, hin⟩ := holds_block_iff.mp hnode
      exact absurd hin.lt_length (by simp)
    | entry => cases hnode
    | exit => rfl

/-! ### Edges -/

theorem mem_successors_iff_holds {start last : Nat}
    (hrange : (ofCode flow code).ranges[n]? = some (start, last + 1)) (node : FlowNode) :
    node ∈ (ofCode flow code).successors (.block n) ↔
      ∃ k ∈ nextPositions flow code last, (ofCode flow code).Holds code.length node k := by
  rw [getElem?_ranges_ofCode] at hrange
  obtain ⟨b, hb, hrange⟩ := map_eq_some_iff.mp hrange
  obtain ⟨rfl, hlast⟩ := Prod.mk.inj hrange
  have hpos : 0 < b.length :=
    length_pos_iff.mpr (ne_nil_of_mem_splitBy (mem_of_getElem? hb))
  have hin : InBlock (blocksOf flow code) last n (b.length - 1) := ⟨b, hb, by omega, by omega⟩
  obtain ⟨nodes, hnodes, hedges⟩ := exists_enters hin hb (by omega)
  rw [hedges]
  constructor
  · intro hnode
    obtain ⟨k, hk, henters⟩ := exists_of_forall₂_of_mem hnodes hnode
    exact ⟨k, hk, (holds_iff_of_enters henters).mpr rfl⟩
  · rintro ⟨k, hk, hholds⟩
    obtain ⟨node', hnode', henters⟩ := exists_of_forall₂_of_mem hnodes.flip hk
    rwa [(holds_iff_of_enters henters).mp hholds]

omit [DecidableEq L] in
theorem enters_first (flow : α → Flow L) (code : List α) : Enters flow code 0
      (if ((blocksOf flow code).map (·.map flow)).isEmpty then .exit else .block 0) := by
  cases hblocks : blocksOf flow code with
  | nil =>
    have hlength := congrArg length (flatten_blocksOf flow code)
    rw [hblocks] at hlength
    exact Or.inr ⟨rfl, hlength⟩
  | cons b rest =>
    exact Or.inl ⟨0, rfl, inBlock_blockStart (b := b) (by rw [hblocks]; rfl)⟩

theorem nodup_predecessors (blocks : List (List (Flow L))) (node : FlowNode) :
    ((ofBlocks blocks).predecessors node).Nodup := by
  refine (nodup_edges blocks).filterMap ?_
  rintro ⟨a, b⟩ ⟨a', b'⟩ c hc hc'
  simp only [mem_def, ite_none_right_eq_some, some.injEq] at hc hc'
  rw [hc.1, hc.2, hc'.1, hc'.2]

/-! ### The whole graph -/

section

variable {a : α} (h : (ofCode flow code).Holds code.length (.block n) k) (ha : code[k]? = some a)

include h ha

theorem exists_range_of_startsBlock (hstarts : (flow a).startsBlock = true) :
    ∃ stop, (ofCode flow code).ranges[n]? = some (k, stop) := by
  obtain ⟨j, hin⟩ := holds_block_iff.mp h
  obtain ⟨b, hb, -, hk⟩ := id hin
  obtain rfl : j = 0 := by
    cases hflow : flow a with
    | label l => exact hin.eq_zero_of_label ha hflow
    | _ => simp [hflow, Flow.startsBlock] at hstarts
  rw [getElem?_ranges_ofCode, hb, hk]
  exact ⟨_, rfl⟩

theorem exists_range_of_endsBlock (hends : (flow a).endsBlock = true) :
    ∃ start, (ofCode flow code).ranges[n]? = some (start, k + 1) := by
  obtain ⟨j, hin⟩ := holds_block_iff.mp h
  obtain ⟨b, hb, hj, rfl⟩ := id hin
  have hget : b[j]? = some a := (hin.getElem? hb).symm.trans ha
  have hlast : j + 1 = b.length := by
    by_contra hne
    have hlt : j + 1 < b.length := by omega
    rw [(inside_block flow code hb hget (getElem?_eq_getElem hlt)).1] at hends
    cases hends
  rw [getElem?_ranges_ofCode, hb, map_some, ← hlast]
  exact ⟨_, rfl⟩

end

theorem getElem?_reachable (blocks : List (List (Flow L))) (n : Nat) :
    (ofBlocks blocks).reachable[n]? = some true ↔ (ofBlocks blocks).Reaches .entry (.block n) := by
  rw [← mem_reachableBlocks]
  have hbound := (reachableBlocks_explored blocks).bound n
  simp only [reachable, getElem?_map, map_eq_some_iff, contains_iff_mem]
  constructor
  · rintro ⟨m, hm, hfound⟩
    obtain ⟨_, rfl⟩ := List.getElem?_eq_some_iff.mp hm
    simpa using hfound
  · intro hfound
    exact ⟨n, by simp [getElem?_range (hbound hfound)], hfound⟩

end

/-- The graph of a piece of code says where control goes in it: its blocks are the code, each of
them is entered at its first instruction and left after its last one, its edges lead where control
goes, in both directions, and the blocks that are reachable are those with a path from the entry. -/
theorem faithful_ofCode [DecidableEq L] (flow : α → Flow L) (code : List α) :
    (ofCode flow code).Faithful flow code where
  tile := tile_ofCode flow code
  starts := exists_range_of_startsBlock
  ends := exists_range_of_endsBlock
  successors := mem_successors_iff_holds
  nodup_successors := nodup_successors _
  entry := by
    intro node
    rw [holds_iff_of_enters (enters_first flow code), mem_successors, ofCode, mem_edges]
    simp
  exit := by
    refine eq_nil_iff_forall_not_mem.mpr fun node hnode => ?_
    simp [ofCode, mem_successors, mem_edges] at hnode
  predecessors := fun _ _ => mem_predecessors.trans mem_successors.symm
  nodup_predecessors := nodup_predecessors _
  length_reachable := by simp [reachable, size, ranges]
  reachable := getElem?_reachable _

end FlowGraph

end ThreeAddress
