import ThreeAddress.Proofs.Control.Positions

/-!
# Reachable blocks

The search for the blocks that can be reached from the entry visits every block at most once, so the
steps it is given suffice.  It follows edges only, and what it finds is closed under the edges of
the graph.  So it finds the blocks that control can get to, instruction by instruction.
-/

namespace ThreeAddress

open List FlowGraph

variable {α L : Type} [DecidableEq L]
variable {n k : Nat} {waiting : List FlowNode} {found : List Nat}

namespace FlowGraph

/-! ### Edges -/

section

variable (blocks : List (List (Flow L)))

theorem nodup_leaving (n : Nat) (b : List (Flow L)) : (leaving blocks n b).Nodup := by
  simp only [leaving]
  split
  · exact nodup_singleton _
  · split
    · exact nodup_singleton _
    · rename_i hne
      simpa using hne
  · exact nodup_singleton _
  · exact nodup_singleton _

theorem nodup_edges : (ofBlocks blocks).edges.Nodup := by
  show (cons _ _).Nodup
  rw [nodup_cons, nodup_flatMap]
  refine ⟨?_, ?_, ?_⟩
  · simp [mem_flatMap]
  · rintro ⟨b, n⟩ -
    exact (nodup_leaving blocks n b).map fun x y h => (Prod.mk.inj h).2
  · -- Edges from different blocks differ in their first node.
    have hindices : blocks.zipIdx.Pairwise fun x y => x.2 ≠ y.2 := by
      rw [← pairwise_map, zipIdx_map_snd]
      exact nodup_range'
    refine hindices.imp fun {x y} hne => ?_
    intro edge hx hy
    obtain ⟨node, -, rfl⟩ := mem_map.mp hx
    obtain ⟨node', -, heq⟩ := mem_map.mp hy
    exact hne (FlowNode.block.inj (Prod.mk.inj heq).1).symm

theorem nodup_successors (node : FlowNode) : ((ofBlocks blocks).successors node).Nodup := by
  refine (nodup_edges blocks).filterMap ?_
  rintro ⟨a, b⟩ ⟨a', b'⟩ c hc hc'
  simp only [Option.mem_def, Option.ite_none_right_eq_some, Option.some.injEq] at hc hc'
  rw [hc.1, hc.2, hc'.1, hc'.2]

theorem nodup_successorBlocks (node : FlowNode) :
    ((ofBlocks blocks).successorBlocks node).Nodup := by
  refine (nodup_successors blocks node).filterMap fun a a' n hn hn' => ?_
  cases a <;> cases a' <;> simp_all [FlowNode.block?]

end

theorem lt_size_of_mem_leaving {blocks : List (List (Flow L))} {m : Nat} {b : List (Flow L)}
    (h : FlowNode.block m ∈ leaving blocks n b) : m < blocks.length := by
  have htarget : ∀ l, targetOf blocks l = .block m → m < blocks.length := by
    intro l hl
    rw [targetOf_eq] at hl
    split at hl
    · rename_i k hk
      cases hl
      obtain ⟨⟨c, hc, -⟩, -⟩ := lastPosition?_eq_some_iff.mp hk
      exact (List.getElem?_eq_some_iff.mp hc).1
    · cases hl
  have hfall : fallThrough blocks n = .block m → m < blocks.length := by
    intro hf
    unfold fallThrough at hf
    split at hf
    · cases hf
      assumption
    · cases hf
  simp only [leaving] at h
  split at h
  · exact htarget _ (mem_singleton.mp h).symm
  · rename_i l hlast
    have hmem : .block m = targetOf blocks l ∨ .block m = fallThrough blocks n := by
      split at h
      · exact .inl (mem_singleton.mp h)
      · simpa using h
    exact hmem.elim (fun h => htarget l h.symm) fun h => hfall h.symm
  · simp at h
  · exact hfall (mem_singleton.mp h).symm

theorem lt_size_of_mem_successors {blocks : List (List (Flow L))} {node : FlowNode} {m : Nat}
    (h : FlowNode.block m ∈ (ofBlocks blocks).successors node) : m < (ofBlocks blocks).size := by
  have hsize : (ofBlocks blocks).size = blocks.length := by simp [size, ofBlocks]
  rw [hsize]
  rcases mem_edges.mp (mem_successors.mp h) with ⟨-, hfirst⟩ | ⟨n, b, -, -, hleaving⟩
  · cases blocks with
    | nil => cases hfirst
    | cons b rest =>
      cases hfirst
      exact Nat.zero_lt_succ _
  · exact lt_size_of_mem_leaving hleaving

/-! ### The search -/

/-- There is a path along the edges of the graph. -/
def Reaches (g : FlowGraph) : FlowNode → FlowNode → Prop :=
  Relation.ReflTransGen fun a b => b ∈ g.successors a

/-- What holds in the course of the search: the edges from all that was found have been followed,
except from the nodes that wait, and there are paths to all of them. -/
structure Explored (g : FlowGraph) (waiting : List FlowNode) (found : List Nat) : Prop where
  nodup : found.Nodup
  bound : ∀ n ∈ found, n < g.size
  entry : FlowNode.entry ∈ waiting ∨ ∀ m, FlowNode.block m ∈ g.successors .entry → m ∈ found
  closed : ∀ n ∈ found, FlowNode.block n ∈ waiting ∨
    ∀ m, FlowNode.block m ∈ g.successors (.block n) → m ∈ found
  waits : ∀ node ∈ waiting, g.Reaches .entry node
  reached : ∀ n ∈ found, g.Reaches .entry (.block n)

theorem Explored.length_le {g : FlowGraph} (h : g.Explored waiting found) :
    found.length ≤ g.size := by
  have hsub : found ⊆ .range g.size := fun n hn => mem_range.mpr (h.bound n hn)
  simpa using (subperm_of_subset h.nodup hsub).length_le

section

variable {blocks : List (List (Flow L))}

theorem Explored.visit {node : FlowNode} (h : (ofBlocks blocks).Explored (node :: waiting) found) :
    (ofBlocks blocks).Explored
      ((((ofBlocks blocks).successorBlocks node).filter fun n => !found.contains n).map
        FlowNode.block ++ waiting)
      ((((ofBlocks blocks).successorBlocks node).filter fun n => !found.contains n) ++ found) := by
  set fresh := ((ofBlocks blocks).successorBlocks node).filter fun n => !found.contains n
    with hfresh
  have hmem (n : Nat) : n ∈ fresh ↔ .block n ∈ (ofBlocks blocks).successors node ∧ n ∉ found := by
    simp [hfresh, mem_successorBlocks]
  -- All successors of the node are found now.
  have hnode : ∀ m, .block m ∈ (ofBlocks blocks).successors node → m ∈ fresh ++ found := by
    intro m hm
    by_cases hfound : m ∈ found
    · exact mem_append_right _ hfound
    · exact mem_append_left _ ((hmem m).mpr ⟨hm, hfound⟩)
  have hpath : ∀ n ∈ fresh, (ofBlocks blocks).Reaches .entry (.block n) := fun n hn =>
    (h.waits node mem_cons_self).tail ((hmem n).mp hn).1
  refine ⟨?_, ?_, ?_, ?_, ?_, ?_⟩
  · refine nodup_append.mpr ⟨(nodup_successorBlocks blocks node).filter _, h.nodup, ?_⟩
    rintro a ha b hb rfl
    exact ((hmem a).mp ha).2 hb
  · intro n hn
    rcases mem_append.mp hn with hn | hn
    · exact lt_size_of_mem_successors ((hmem n).mp hn).1
    · exact h.bound n hn
  · rcases h.entry with hwait | hall
    · rcases mem_cons.mp hwait with rfl | hwait
      · exact .inr hnode
      · exact .inl (mem_append_right _ hwait)
    · exact Or.inr fun m hm => mem_append_right _ (hall m hm)
  · intro n hn
    rcases mem_append.mp hn with hn | hn
    · exact Or.inl (mem_append_left _ (mem_map_of_mem hn))
    · rcases h.closed n hn with hwait | hall
      · rcases mem_cons.mp hwait with rfl | hwait
        · exact .inr hnode
        · exact Or.inl (mem_append_right _ hwait)
      · exact .inr fun m hm => mem_append_right _ (hall m hm)
  · refine forall_mem_append.mpr ⟨?_, fun a ha => h.waits a (mem_cons_of_mem _ ha)⟩
    simpa using hpath
  · exact forall_mem_append.mpr ⟨hpath, h.reached⟩

theorem Explored.search {fuel : Nat} (h : (ofBlocks blocks).Explored waiting found)
    (hfuel : waiting.length + ((ofBlocks blocks).size - found.length) ≤ fuel) :
    (ofBlocks blocks).Explored [] ((ofBlocks blocks).search fuel waiting found) := by
  induction fuel generalizing waiting found with
  | zero =>
    obtain rfl : waiting = [] := length_eq_zero_iff.mp (by omega)
    exact h
  | succ fuel ih =>
    cases waiting with
    | nil => exact h
    | cons node waiting =>
      have hvisit := h.visit
      have hle := hvisit.length_le
      refine ih hvisit ?_
      simp only [length_append, length_map, length_cons] at hle hfuel ⊢
      omega

theorem reachableBlocks_explored (blocks : List (List (Flow L))) :
    (ofBlocks blocks).Explored [] (ofBlocks blocks).reachableBlocks := by
  refine .search ⟨nodup_nil, by simp, .inl (by simp), by simp, ?_, by simp⟩ ?_
  · exact forall_mem_singleton.mpr .refl
  · simp
    omega

/-- The search finds the blocks at the end of a path from the entry. -/
theorem mem_reachableBlocks :
    n ∈ (ofBlocks blocks).reachableBlocks ↔ (ofBlocks blocks).Reaches .entry (.block n) := by
  have hexplored := reachableBlocks_explored blocks
  refine ⟨hexplored.reached n, fun hpath => ?_⟩
  generalize hnode : FlowNode.block n = node at hpath
  induction hpath generalizing n with
  | refl => cases hnode
  | @tail a node _ hedge ih =>
    subst hnode
    cases a with
    | entry => exact hexplored.entry.resolve_left (by simp) n hedge
    | block m => exact (hexplored.closed m (ih rfl)).resolve_left (by simp) n hedge
    | exit => simp [mem_successors, mem_edges] at hedge

end

end FlowGraph

/-! ### Positions -/

/-- Whether a position is in a block that the search finds.  The end of the code counts as well. -/
def IsReachable (flow : α → Flow L) (code : List α) (k : Nat) : Prop :=
  ∀ n j, InBlock (blocksOf flow code) k n j → n ∈ (FlowGraph.ofCode flow code).reachableBlocks

variable {flow : α → Flow L} {code : List α}

theorem isReachable_zero : IsReachable flow code 0 := by
  intro n j hin
  obtain ⟨b, hb, -, -⟩ := id hin
  have hlt : 0 < (blocksOf flow code).length :=
    Nat.zero_lt_of_lt (List.getElem?_eq_some_iff.mp hb).1
  obtain ⟨rfl, -⟩ := hin.unique (inBlock_blockStart (getElem?_eq_getElem hlt))
  refine mem_reachableBlocks.mpr (.single (mem_successors.mpr ?_))
  refine mem_edges.mpr (Or.inl ⟨rfl, ?_⟩)
  rw [if_neg (by simpa using ne_nil_of_length_pos hlt)]

theorem IsReachable.next {m : Nat} (h : IsReachable flow code k)
    (hm : m ∈ nextPositions flow code k) : IsReachable flow code m := by
  intro n' j' hin'
  obtain ⟨i, hi⟩ := exists_of_mem_nextPositions hm
  obtain ⟨n, j, b, hin, hb, -⟩ := exists_inBlock_of_getElem? flow hi
  have hfound := h n j hin
  rcases next_cases hin hb hm with ⟨-, hnext⟩ | ⟨-, n'', hedge, hnext⟩ | ⟨-, -, rfl⟩
  · obtain ⟨rfl, -⟩ := hin'.unique hnext
    exact hfound
  · obtain ⟨rfl, -⟩ := hin'.unique hnext
    have hexplored := reachableBlocks_explored ((blocksOf flow code).map (·.map flow))
    exact (hexplored.closed n hfound).resolve_left (by simp) _ hedge
  · have := hin'.lt_length
    rw [flatten_blocksOf] at this
    omega

/-- Control can get from the start of the code to a position. -/
def IsVisited (flow : α → Flow L) (code : List α) : Nat → Prop :=
  Relation.ReflTransGen (fun a b => b ∈ nextPositions flow code a) 0

theorem reflTransGen_labels {p d : Nat}
    (h : ∀ j < d, ∃ i l, code[p + j]? = some i ∧ flow i = .label l) :
    Relation.ReflTransGen (fun a b => b ∈ nextPositions flow code a) p (p + d) := by
  induction d with
  | zero => exact .refl
  | succ d ih =>
    obtain ⟨i, l, hi, hl⟩ := h d (by omega)
    exact (ih fun j hj => h j (by omega)).tail (by simp [nextPositions, hi, hl, Nat.add_assoc])

theorem isVisited_of_blockStart {j : Nat}
    (h : IsVisited flow code (blockStart (blocksOf flow code) n))
    (hin : InBlock (blocksOf flow code) k n j) : IsVisited flow code k := by
  obtain ⟨b, hb, hj, rfl⟩ := hin
  induction j with
  | zero => exact h
  | succ j ih =>
    exact (ih (by omega)).tail (succ_mem_nextPositions ⟨b, hb, by omega, rfl⟩ hb hj)

theorem FlowGraph.Reaches.isVisited {j : Nat} (h : (ofCode flow code).Reaches .entry (.block n))
    (hin : InBlock (blocksOf flow code) k n j) : IsVisited flow code k := by
  generalize hnode : FlowNode.block n = node at h
  induction h generalizing k n j with
  | refl => cases hnode
  | @tail a node _ hedge ih =>
    subst hnode
    refine isVisited_of_blockStart ?_ hin
    cases a with
    | entry =>
      rcases mem_edges.mp (mem_successors.mp hedge) with ⟨-, hfirst⟩ | ⟨_, _, ⟨⟩, -⟩
      split at hfirst
      · cases hfirst
      · cases hfirst
        exact .refl
    | exit => simp [ofCode, mem_successors, mem_edges] at hedge
    | block m =>
      -- The edge leaves the block after its last instruction, which control can get to.
      obtain ⟨_, hc, -⟩ := mem_successors_block.mp hedge
      rw [getElem?_map] at hc
      obtain ⟨b, hb, -⟩ := Option.map_eq_some_iff.mp hc
      have hpos : 0 < b.length :=
        length_pos_iff.mpr (ne_nil_of_mem_splitBy (mem_of_getElem? hb))
      have hlast : InBlock (blocksOf flow code) _ m (b.length - 1) := ⟨b, hb, by omega, rfl⟩
      obtain ⟨t, ht, ⟨_, ⟨⟩, -, -, -, rfl⟩ | ⟨⟨⟩, -⟩⟩ :=
        exists_next_of_edge hlast hb (by omega) hedge
      exact (ih hlast rfl).tail ht

/-- The search finds the blocks of the positions that control can get to. -/
theorem isReachable_iff (hk : k < code.length) :
    IsReachable flow code k ↔ IsVisited flow code k := by
  constructor
  · intro h
    obtain ⟨n, j, _, hin, -⟩ := exists_inBlock_of_getElem? flow (getElem?_eq_getElem hk)
    exact (mem_reachableBlocks.mp (h n j hin)).isVisited hin
  · intro h
    clear hk
    induction h with
    | refl => exact isReachable_zero
    | tail _ hnext ih => exact ih.next hnext

end ThreeAddress
