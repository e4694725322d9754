import Mathlib.Data.List.SplitBy
import ThreeAddress.FlowGraph.Basic
import ThreeAddress.Proofs.Traversals

/-!
# Positions in code

Execution moves from one position of a piece of code to the next, while analyses work on basic
blocks and their graph.  This module has the positions that control can go to, and shows that the
control-flow graph accounts for all of them.
-/

namespace ThreeAddress

open FlowGraph List Option

variable {α L β : Type} {blocks : List (List α)} {j k n : Nat} {b code : List α} {flow : α → Flow L}
  {l : L}
variable {g : FlowGraph}

/-! ### Jump targets -/

/-- The last position whose instruction satisfies a predicate. -/
def lastPosition? (p : α → Bool) : List α → Option Nat
  | [] => none
  | a :: rest =>
    match lastPosition? p rest with
    | some k => some (k + 1)
    | none => if p a then some 0 else none

theorem lastPosition?_eq_none_iff {p : α → Bool} :
    lastPosition? p code = none ↔ ∀ a ∈ code, p a = false := by
  induction code with
  | nil => simp [lastPosition?]
  | cons a rest ih =>
    rw [lastPosition?]
    cases hr : lastPosition? p rest with
    | some k =>
      have hne : ¬ ∀ a ∈ rest, p a = false := fun h => by
        rw [ih.mpr h] at hr
        cases hr
      simp only [reduceCtorEq, mem_cons, forall_eq_or_imp, false_iff, not_and]
      exact fun _ => hne
    | none =>
      have hrest := ih.mp hr
      cases hp : p a <;> simp [hp]
      exact hrest

theorem lastPosition?_eq_some_iff {p : α → Bool} : lastPosition? p code = some k ↔
      (∃ a, code[k]? = some a ∧ p a = true) ∧ ∀ j a, k < j → code[j]? = some a → p a = false := by
  induction code generalizing k with
  | nil => simp [lastPosition?]
  | cons a rest ih =>
    rw [lastPosition?]
    cases hr : lastPosition? p rest with
    | some m =>
      obtain ⟨⟨b, hb, hpb⟩, hlater⟩ := ih.mp hr
      constructor
      · rintro h
        cases h
        refine ⟨⟨b, by simpa using hb, hpb⟩, fun j c hj hc => ?_⟩
        cases j with
        | zero => omega
        | succ j => exact hlater j c (by omega) (by simpa using hc)
      · rintro ⟨⟨c, hc, hpc⟩, hlast⟩
        -- The position is not before the one found in the rest, nor after it.
        cases k with
        | zero =>
          have := hlast (m + 1) b (by omega) (by simpa using hb)
          rw [hpb] at this
          cases this
        | succ k =>
          have hk : ¬ m < k := fun hlt => by
            have := hlater k c hlt (by simpa using hc)
            rw [hpc] at this
            cases this
          have hm : ¬ k < m := fun hlt => by
            have := hlast (m + 1) b (by omega) (by simpa using hb)
            rw [hpb] at this
            cases this
          rw [show m = k by omega]
    | none =>
      have hrest := lastPosition?_eq_none_iff.mp hr
      cases k with
      | zero =>
        cases hp : p a with
        | true =>
          simp only [if_true, getElem?_cons_zero, some.injEq, true_iff]
          refine ⟨⟨a, rfl, hp⟩, fun j c hj hc => ?_⟩
          obtain ⟨j, rfl⟩ : ∃ i, j = i + 1 := ⟨j - 1, by omega⟩
          exact hrest c (mem_of_getElem? (by simpa using hc))
        | false =>
          simp [hp]
      | succ k =>
        constructor
        · intro h
          cases hp : p a <;> simp [hp] at h
        · rintro ⟨⟨c, hc, hpc⟩, -⟩
          rw [hrest c (mem_of_getElem? (by simpa using hc))] at hpc
          cases hpc

def targetPosition [DecidableEq L] (flow : α → Flow L) (code : List α) (l : L) : Nat :=
  (lastPosition? (fun a => decide (flow a = .label l)) code).getD code.length

theorem targetPosition_of_last [DecidableEq L] {a : α} (ha : code[k]? = some a)
    (hl : flow a = .label l) (hlast : ∀ j b, k < j → code[j]? = some b → flow b ≠ .label l) :
    targetPosition flow code l = k := by
  have hposition : lastPosition? (fun a => decide (flow a = .label l)) code = some k := by
    refine lastPosition?_eq_some_iff.mpr ⟨⟨a, ha, decide_eq_true hl⟩, ?_⟩
    intro j b hj hb
    exact decide_eq_false (hlast j b hj hb)
  rw [targetPosition, hposition, getD_some]

theorem targetPosition_le_length [DecidableEq L] (flow : α → Flow L) (code : List α)
    (l : L) : targetPosition flow code l ≤ code.length := by
  unfold targetPosition
  cases hl : lastPosition? (fun a => decide (flow a = .label l)) code with
  | none => exact Nat.le_refl _
  | some k =>
    obtain ⟨⟨a, ha, -⟩, -⟩ := lastPosition?_eq_some_iff.mp hl
    exact Nat.le_of_lt (List.getElem?_eq_some_iff.mp ha).1

theorem flow_of_getElem?_targetPosition [DecidableEq L] {a : α}
    (h : code[targetPosition flow code l]? = some a) : flow a = .label l := by
  unfold targetPosition at h
  cases hl : lastPosition? (fun a => decide (flow a = .label l)) code with
  | none =>
    rw [hl, getD_none, getElem?_eq_none (Nat.le_refl _)] at h
    cases h
  | some k =>
    obtain ⟨⟨b, hb, hpb⟩, -⟩ := lastPosition?_eq_some_iff.mp hl
    rw [hl, getD_some, hb] at h
    cases h
    exact of_decide_eq_true hpb

theorem getElem?_targetPosition_of_mem [DecidableEq L] {i : α} (hi : i ∈ code)
    (hl : flow i = .label l) :
    ∃ j, code[targetPosition flow code l]? = some j ∧ flow j = .label l := by
  unfold targetPosition
  cases hlast : lastPosition? (fun a => decide (flow a = .label l)) code with
  | none =>
    have hne := lastPosition?_eq_none_iff.mp hlast i hi
    exact absurd hl (of_decide_eq_false hne)
  | some k =>
    obtain ⟨⟨j, hj, hflow⟩, -⟩ := lastPosition?_eq_some_iff.mp hlast
    exact ⟨j, hj, of_decide_eq_true hflow⟩

def nextPositions [DecidableEq L] (flow : α → Flow L) (code : List α) (k : Nat) : List Nat :=
  match code[k]?.map flow with
  | some (.jump l) => [targetPosition flow code l]
  | some (.branch l) => [targetPosition flow code l, k + 1]
  | some .ret => [code.length]
  | some (.label _) | some .next => [k + 1]
  | none => []

theorem exists_of_mem_nextPositions [DecidableEq L] {k t : Nat}
    (h : t ∈ nextPositions flow code k) : ∃ i, code[k]? = some i := by
  cases hi : code[k]? with
  | none => simp [nextPositions, hi] at h
  | some i => exact ⟨i, rfl⟩

theorem le_length_of_mem_nextPositions [DecidableEq L] {k t : Nat}
    (h : t ∈ nextPositions flow code k) : t ≤ code.length := by
  have htarget := targetPosition_le_length flow code
  obtain ⟨a, hi⟩ := exists_of_mem_nextPositions h
  unfold nextPositions at h
  cases hf : flow a <;> simp only [hi, hf, map_some, mem_cons, not_mem_nil, or_false] at h <;> grind

theorem lastPosition?_map (g : α → β) (p : β → Bool) (code : List α) :
    lastPosition? p (code.map g) = lastPosition? (fun a => p (g a)) code := by
  induction code with
  | nil => rfl
  | cons a rest ih => rw [map_cons, lastPosition?, lastPosition?, ih]

section

variable [DecidableEq L] (flow : β → Flow L) (g : α → β) (code : List α)

theorem targetPosition_map (l : L) :
    targetPosition flow (code.map g) l = targetPosition (fun a => flow (g a)) code l := by
  rw [targetPosition, targetPosition, lastPosition?_map, length_map]

theorem nextPositions_map (k : Nat) :
    nextPositions flow (code.map g) k = nextPositions (fun a => flow (g a)) code k := by
  unfold nextPositions
  simp only [getElem?_map, Option.map_map, length_map, targetPosition_map]
  rfl

end

/-! ### Blocks -/

def blockStart (blocks : List (List α)) (n : Nat) : Nat := (blocks.take n).flatten.length

/-- Position `k` is the `j`-th of block `n`. -/
def InBlock (blocks : List (List α)) (k n j : Nat) : Prop :=
  ∃ b, blocks[n]? = some b ∧ j < b.length ∧ k = blockStart blocks n + j

@[simp] theorem blockStart_zero (blocks : List (List α)) : blockStart blocks 0 = 0 := rfl

theorem blockStart_cons_succ (b : List α) (blocks : List (List α)) (n : Nat) :
    blockStart (b :: blocks) (n + 1) = b.length + blockStart blocks n := by
  simp [blockStart]

theorem blockStart_succ (hb : blocks[n]? = some b) :
    blockStart blocks (n + 1) = blockStart blocks n + b.length := by
  simp [blockStart, take_add_one, hb]

theorem blockStart_of_length_le (h : blocks.length ≤ n) :
    blockStart blocks n = blocks.flatten.length := by
  rw [blockStart, take_of_length_le h]

theorem getElem?_blockStart_add (hb : blocks[n]? = some b) (hj : j < b.length) :
    blocks.flatten[blockStart blocks n + j]? = b[j]? := by
  induction blocks generalizing n with
  | nil => simp at hb
  | cons c rest ih =>
    cases n with
    | zero =>
      simp only [getElem?_cons_zero, some.injEq] at hb
      subst hb
      simp [getElem?_append_left hj]
    | succ n =>
      rw [blockStart_cons_succ, flatten_cons,
        getElem?_append_right (by omega), ← ih (by simpa using hb)]
      congr 1
      omega

theorem exists_inBlock (hk : k < blocks.flatten.length) : ∃ n j, InBlock blocks k n j := by
  induction blocks generalizing k with
  | nil => simp at hk
  | cons b rest ih =>
    by_cases hb : k < b.length
    · exact ⟨0, k, b, rfl, hb, by simp⟩
    · obtain ⟨n, j, c, hc, hj, hk'⟩ := ih (k := k - b.length) (by
        simp only [flatten_cons, length_append] at hk
        omega)
      refine ⟨n + 1, j, c, by simpa using hc, hj, ?_⟩
      rw [blockStart_cons_succ]
      omega

theorem InBlock.position (h : InBlock blocks k n j) (hb : blocks[n]? = some b) :
    j < b.length ∧ k = blockStart blocks n + j := by
  obtain ⟨b', hb', hposition⟩ := h
  rwa [← some.inj (hb'.symm.trans hb)]

theorem InBlock.lt_length (h : InBlock blocks k n j) : k < blocks.flatten.length := by
  obtain ⟨b, hb, hj, rfl⟩ := h
  have := getElem?_blockStart_add hb hj
  rw [getElem?_eq_getElem hj] at this
  exact (List.getElem?_eq_some_iff.mp this).1

theorem blockStart_le_blockStart (blocks : List (List α)) {m : Nat} (h : m ≤ n) :
    blockStart blocks m ≤ blockStart blocks n := by
  have hsub : (blocks.take m).Sublist (blocks.take n) := (take_prefix_take_left h).sublist
  exact hsub.flatten.length_le

theorem InBlock.unique {n' j' : Nat} (h : InBlock blocks k n j) (h' : InBlock blocks k n' j') :
    n = n' ∧ j = j' := by
  obtain ⟨b, hb, hj, hk⟩ := h
  obtain ⟨b', hb', hj', hk'⟩ := h'
  have hs := blockStart_succ hb
  have hs' := blockStart_succ hb'
  have hn : ¬ n < n' := fun hlt => by
    have := blockStart_le_blockStart blocks (m := n + 1) hlt
    omega
  have hn' : ¬ n' < n := fun hlt => by
    have := blockStart_le_blockStart blocks (m := n' + 1) hlt
    omega
  obtain rfl : n = n' := by omega
  exact ⟨rfl, by omega⟩

section

variable {f : List α × Nat → List β} (hf : ∀ b n, (f (b, n)).length = b.length)

include hf

theorem getElem?_flatMap_zipIdx (hin : InBlock blocks k n j) (hb : blocks[n]? = some b) :
    (blocks.zipIdx.flatMap f)[k]? = (f (b, n))[j]? := by
  obtain ⟨b', hb', hj, rfl⟩ := hin
  obtain rfl : b' = b := some.inj (hb'.symm.trans hb)
  have hstart : blockStart blocks n = blockStart (blocks.zipIdx.map f) n := by
    rw [blockStart, blockStart, length_flatten, length_flatten, ← map_take, List.map_map]
    congr 1
    refine ext_getElem? fun i => ?_
    simp only [getElem?_map, getElem?_take, getElem?_zipIdx]
    split
    · cases blocks[i]? <;> simp [hf]
    · rfl
  rw [hstart]
  exact getElem?_blockStart_add (by simp [hb]) (by rw [hf]; exact hj)

theorem length_flatMap_zipIdx : (blocks.zipIdx.flatMap f).length = blocks.flatten.length := by
  have hmap : blocks.zipIdx.map (fun x => (f x).length) = blocks.map length := by
    rw [← zipIdx_map_fst 0 blocks, List.map_map, zipIdx_map_fst]
    exact map_congr_left fun x _ => hf x.1 x.2
  rw [length_flatMap, hmap, length_flatten]

end

theorem flatMap_zip {γ : Type} {data : List γ} (hlength : data.length = blocks.length) (default : γ)
    (f : List α → γ → List β) :
    (blocks.zip data).flatMap (fun x => f x.1 x.2) =
      blocks.zipIdx.flatMap fun x => f x.1 (data.getD x.2 default) := by
  have hzip : blocks.zip data = blocks.zipIdx.map fun x => (x.1, data.getD x.2 default) := by
    refine ext_getElem (by simp [hlength]) fun n h h' => ?_
    have hn : n < data.length := by
      simp only [length_zip] at h
      omega
    simp [getElem?_eq_getElem hn]
  rw [hzip, flatMap_map]

/-! ### The blocks of a piece of code -/

section

variable (flow : α → Flow L) (code : List α) {a : α}

@[simp] theorem flatten_blocksOf : (blocksOf flow code).flatten = code :=
  flatten_splitBy _ _

/-- Inside a block nothing but its last instruction ends it, and nothing but its first one starts
it. -/
theorem inside_block {c : α} (hb : (blocksOf flow code)[n]? = some b) (ha : b[j]? = some a)
    (hc : b[j + 1]? = some c) : (flow a).endsBlock = false ∧ (flow c).startsBlock = false := by
  have hchain := isChain_of_mem_splitBy (mem_of_getElem? hb)
  obtain ⟨hj, rfl⟩ := List.getElem?_eq_some_iff.mp hc
  obtain ⟨hj', rfl⟩ := List.getElem?_eq_some_iff.mp ha
  have := isChain_iff_getElem.mp hchain j hj
  simpa using this

variable {code}

variable {flow}

theorem InBlock.eq_zero_of_label (h : InBlock (blocksOf flow code) k n j) (ha : code[k]? = some a)
    (hl : flow a = .label l) : j = 0 := by
  obtain ⟨b, hb, hj, rfl⟩ := h
  cases j with
  | zero => rfl
  | succ j =>
    have hget := getElem?_blockStart_add hb hj
    rw [flatten_blocksOf, ha] at hget
    have hbefore : b[j]? = some b[j] := getElem?_eq_getElem (by omega)
    have := (inside_block flow code hb hbefore hget.symm).2
    simp [hl, Flow.startsBlock] at this

theorem InBlock.getElem? (h : InBlock (blocksOf flow code) k n j)
    (hb : (blocksOf flow code)[n]? = some b) : code[k]? = b[j]? := by
  obtain ⟨hj, rfl⟩ := h.position hb
  have := getElem?_blockStart_add hb hj
  rwa [flatten_blocksOf] at this

variable (flow) in
/-- Every position of the code lies in one of its blocks. -/
theorem exists_inBlock_of_getElem? (h : code[k]? = some a) :
    ∃ n j b, InBlock (blocksOf flow code) k n j ∧ (blocksOf flow code)[n]? = some b ∧
      b[j]? = some a := by
  obtain ⟨n, j, hin⟩ : ∃ n j, InBlock (blocksOf flow code) k n j := by
    refine exists_inBlock ?_
    rw [flatten_blocksOf]
    exact (List.getElem?_eq_some_iff.mp h).1
  obtain ⟨b, hb, -, -⟩ := id hin
  exact ⟨n, j, b, hin, hb, (hin.getElem? hb).symm.trans h⟩

theorem inBlock_blockStart (hb : (blocksOf flow code)[n]? = some b) :
    InBlock (blocksOf flow code) (blockStart (blocksOf flow code) n) n 0 := by
  refine ⟨b, hb, length_pos_iff.mpr ?_, by simp⟩
  exact ne_nil_of_mem_splitBy (mem_of_getElem? hb)

end

/-! ### Edges of the graph -/

section

variable [DecidableEq L] {node : FlowNode}
variable {a : FlowNode} {blocks : List (List (Flow L))}

theorem findRev?_zipIdx (p : β → Bool) (xs : List β) (start : Nat) :
    ((xs.zipIdx start).findRev? fun x => p x.1).map Prod.snd =
      (lastPosition? p xs).map (start + ·) := by
  induction xs generalizing start with
  | nil => rfl
  | cons x rest ih =>
    have hrest := ih (start + 1)
    rw [zipIdx_cons, findRev?, lastPosition?]
    cases hf : (rest.zipIdx (start + 1)).findRev? fun x => p x.1 with
    | some y =>
      rw [hf] at hrest
      cases hl : lastPosition? p rest with
      | none => simp [hl] at hrest
      | some k =>
        simp only [hl, map_some, some.injEq] at hrest ⊢
        omega
    | none =>
      rw [hf] at hrest
      cases hl : lastPosition? p rest with
      | some k => simp [hl] at hrest
      | none => cases p x <;> simp

theorem targetOf_eq (blocks : List (List (Flow L))) (l : L) : FlowGraph.targetOf blocks l =
      match lastPosition? (fun block => decide (block.head? = some (.label l))) blocks with
      | some n => .block n
      | none => .exit := by
  have h := findRev?_zipIdx (fun block : List (Flow L) => decide (block.head? = some (.label l)))
    blocks 0
  unfold targetOf
  cases hl : lastPosition? (fun block => decide (block.head? = some (.label l))) blocks with
  | none =>
    rw [hl] at h
    rw [map_eq_none_iff.mp h]
  | some n =>
    rw [hl] at h
    obtain ⟨⟨b, m⟩, hm, hn⟩ := map_eq_some_iff.mp h
    rw [hm]
    simp at hn
    simp [hn]

variable (flow : α → Flow L) (code : List α)

theorem lastPosition?_blocks (l : L) : lastPosition? (fun a => decide (flow a = .label l)) code =
      (lastPosition? (fun block : List (Flow L) => decide (block.head? = some (.label l)))
        ((blocksOf flow code).map (·.map flow))).map (blockStart (blocksOf flow code)) := by
  cases hl : lastPosition? (fun block : List (Flow L) => decide (block.head? = some (.label l)))
      ((blocksOf flow code).map (·.map flow)) with
  | none =>
    have hnone := lastPosition?_eq_none_iff.mp hl
    rw [map_none, lastPosition?_eq_none_iff]
    intro a ha
    rw [decide_eq_false_iff_not]
    intro hfl
    obtain ⟨k, hk⟩ := mem_iff_getElem?.mp ha
    obtain ⟨n, j, b, hin, hb, hhead⟩ := exists_inBlock_of_getElem? flow hk
    obtain rfl := hin.eq_zero_of_label hk hfl
    have := hnone (b.map flow) (mem_map_of_mem (mem_of_getElem? hb))
    rw [decide_eq_false_iff_not, head?_map, head?_eq_getElem?, hhead] at this
    exact this (by simp [hfl])
  | some n =>
    obtain ⟨⟨b', hb', hhead⟩, hlater⟩ := lastPosition?_eq_some_iff.mp hl
    rw [getElem?_map] at hb'
    obtain ⟨b, hb, rfl⟩ := map_eq_some_iff.mp hb'
    rw [decide_eq_true_iff, head?_map, head?_eq_getElem?] at hhead
    obtain ⟨a, ha, hfl⟩ := map_eq_some_iff.mp hhead
    have hstart := inBlock_blockStart hb
    rw [map_some, lastPosition?_eq_some_iff]
    refine ⟨⟨a, by rw [hstart.getElem? hb, ha], by simp [hfl]⟩, fun j c hj hc => ?_⟩
    rw [decide_eq_false_iff_not]
    intro hcl
    -- A later definition of the label would start a later block.
    obtain ⟨m, i, d, hin, hd, hhead⟩ := exists_inBlock_of_getElem? flow hc
    obtain rfl := hin.eq_zero_of_label hc hcl
    obtain ⟨-, rfl⟩ := hin.position hd
    have hnm : n < m := by
      by_contra hle
      have := blockStart_le_blockStart (blocksOf flow code) (m := m) (n := n) (by omega)
      omega
    have := hlater m (d.map flow) hnm (by simp [hd])
    rw [decide_eq_false_iff_not, head?_map, head?_eq_getElem?, hhead] at this
    exact this (by simp [hcl])

/-- The node that control enters at a position: the block that starts there, or the exit at the end
of the code. -/
def Enters (m : Nat) (node : FlowNode) : Prop :=
  (∃ n, node = .block n ∧ InBlock (blocksOf flow code) m n 0) ∨ (node = .exit ∧ m = code.length)

theorem enters_targetOf (l : L) : Enters flow code (targetPosition flow code l)
      (FlowGraph.targetOf ((blocksOf flow code).map (·.map flow)) l) := by
  rw [targetOf_eq, targetPosition, lastPosition?_blocks]
  cases hl : lastPosition? (fun block : List (Flow L) => decide (block.head? = some (.label l)))
      ((blocksOf flow code).map (·.map flow)) with
  | none => exact .inr ⟨rfl, rfl⟩
  | some n =>
    obtain ⟨⟨b', hb', -⟩, -⟩ := lastPosition?_eq_some_iff.mp hl
    rw [getElem?_map] at hb'
    obtain ⟨b, hb, -⟩ := map_eq_some_iff.mp hb'
    exact .inl ⟨n, rfl, inBlock_blockStart hb⟩

theorem FlowGraph.mem_successors : node ∈ g.successors a ↔ (a, node) ∈ g.edges := by
  simp [successors]

theorem FlowGraph.mem_predecessors : a ∈ g.predecessors node ↔ (a, node) ∈ g.edges := by
  simp [predecessors]

theorem FlowGraph.mem_successorBlocks {n : Nat} :
    n ∈ g.successorBlocks a ↔ FlowNode.block n ∈ g.successors a := by
  rw [successorBlocks, mem_filterMap]
  constructor
  · rintro ⟨node, hnode, hn⟩
    cases node <;> simp [FlowNode.block?] at hn
    rwa [← hn]
  · exact fun h => ⟨_, h, rfl⟩

theorem FlowGraph.mem_edges : (a, node) ∈ (FlowGraph.ofBlocks blocks).edges ↔
      (a = .entry ∧ node = if blocks.isEmpty then .exit else .block 0) ∨
      ∃ n b, a = .block n ∧ blocks[n]? = some b ∧ node ∈ FlowGraph.leaving blocks n b := by
  simp only [ofBlocks, mem_cons, Prod.mk.injEq, mem_flatMap, List.mem_map,
    Prod.exists, mem_zipIdx_iff_getElem?]
  refine or_congr .rfl ⟨?_, ?_⟩
  · rintro ⟨b, n, hb, _, hnode, rfl, rfl⟩
    exact ⟨n, b, rfl, hb, hnode⟩
  · rintro ⟨n, b, rfl, hb, hnode⟩
    exact ⟨b, n, hb, node, hnode, rfl, rfl⟩

theorem mem_successors_block : node ∈ (FlowGraph.ofBlocks blocks).successors (.block n) ↔
      ∃ b, blocks[n]? = some b ∧ node ∈ FlowGraph.leaving blocks n b := by
  simp [mem_successors, mem_edges]

variable {flow code}

section

variable (hin : InBlock (blocksOf flow code) k n j) (hb : (blocksOf flow code)[n]? = some b)

include hin hb

omit [DecidableEq L] in
/-- From the last instruction of a block control falls through to the start of the next block, or to
the exit after the last one. -/
theorem enters_fallThrough (hj : j + 1 = b.length) :
    Enters flow code (k + 1) (FlowGraph.fallThrough ((blocksOf flow code).map (·.map flow)) n) := by
  obtain ⟨-, hk⟩ := hin.position hb
  have hstart := blockStart_succ hb
  rw [fallThrough, length_map]
  by_cases hn : n + 1 < (blocksOf flow code).length
  · have hnext := inBlock_blockStart (getElem?_eq_getElem hn)
    rw [show blockStart (blocksOf flow code) (n + 1) = k + 1 by omega] at hnext
    exact Or.inl ⟨n + 1, if_pos hn, hnext⟩
  · rw [blockStart_of_length_le (by omega), flatten_blocksOf] at hstart
    exact Or.inr ⟨if_neg hn, by omega⟩

theorem exists_enters (hj : j + 1 = b.length) :
    ∃ nodes, List.Forall₂ (Enters flow code) (nextPositions flow code k) nodes ∧
      ∀ node, node ∈ (FlowGraph.ofCode flow code).successors (.block n) ↔ node ∈ nodes := by
  have hlt : k < code.length := flatten_blocksOf flow code ▸ hin.lt_length
  have hgetLast : (b.map flow).getLast? = some (flow code[k]) := by
    rw [getLast?_map, getLast?_eq_getElem?, show b.length - 1 = j by omega,
      ← hin.getElem? hb, getElem?_eq_getElem hlt, map_some]
  have hedges : ∀ node, node ∈ (ofCode flow code).successors (.block n) ↔
      node ∈ leaving ((blocksOf flow code).map (·.map flow)) n (b.map flow) := by
    intro node
    rw [ofCode, mem_successors_block]
    simp [hb]
  have hfall := enters_fallThrough hin hb hj
  simp only [hedges, nextPositions, getElem?_eq_getElem hlt, map_some, leaving, hgetLast]
  cases flow code[k] with
  | jump l => exact ⟨_, .cons (enters_targetOf flow code l) .nil, fun _ => .rfl⟩
  | branch l =>
    refine ⟨_, .cons (enters_targetOf flow code l) (.cons hfall .nil), fun node => ?_⟩
    -- The two ways to leave are listed once if they lead to the same block.
    by_cases heq : targetOf ((blocksOf flow code).map (·.map flow)) l =
        fallThrough ((blocksOf flow code).map (·.map flow)) n
    · simp [heq]
    · simp [heq]
  | ret => exact ⟨_, .cons (.inr ⟨rfl, rfl⟩) .nil, fun _ => .rfl⟩
  | _ => exact ⟨_, .cons hfall .nil, fun _ => .rfl⟩

/-- Control moves on inside a block, or follows an edge of the graph from its end. -/
theorem next_cases {m : Nat} (hm : m ∈ nextPositions flow code k) :
    (j + 1 < b.length ∧ InBlock (blocksOf flow code) m n (j + 1)) ∨
    (j + 1 = b.length ∧ ∃ n',
      FlowNode.block n' ∈ (FlowGraph.ofCode flow code).successors (.block n) ∧
      InBlock (blocksOf flow code) m n' 0) ∨
    (j + 1 = b.length ∧ FlowNode.exit ∈ (FlowGraph.ofCode flow code).successors (.block n) ∧
      m = code.length) := by
  obtain ⟨hj, hk⟩ := hin.position hb
  by_cases hlast : j + 1 < b.length
  · -- An instruction that is not the last of its block only leads to the next one.
    have hends := (inside_block flow code hb (getElem?_eq_getElem hj) (getElem?_eq_getElem hlast)).1
    rw [nextPositions, hin.getElem? hb, getElem?_eq_getElem hj] at hm
    have hm' : m = k + 1 := by
      cases hfl : flow b[j] <;> simp [hfl, Flow.endsBlock] at hends hm <;> exact hm
    exact .inl ⟨hlast, b, hb, hlast, by omega⟩
  · have hj' : j + 1 = b.length := by omega
    obtain ⟨nodes, hnodes, hedges⟩ := exists_enters hin hb hj'
    obtain ⟨node, hnode, henters⟩ := exists_of_forall₂_of_mem hnodes.flip hm
    rcases henters with ⟨n', rfl, hin'⟩ | ⟨rfl, rfl⟩
    · exact .inr (.inl ⟨hj', n', (hedges _).mpr hnode, hin'⟩)
    · exact .inr (.inr ⟨hj', (hedges _).mpr hnode, rfl⟩)

theorem succ_mem_nextPositions (hj : j + 1 < b.length) :
    k + 1 ∈ nextPositions flow code k := by
  have hget : code[k]? = some b[j] := by rw [hin.getElem? hb, getElem?_eq_getElem (by omega)]
  have hends := (inside_block flow code hb (getElem?_eq_getElem (by omega))
    (getElem?_eq_getElem hj)).1
  rw [nextPositions, hget, map_some]
  cases hfl : flow b[j] with
  | jump l | branch l | ret =>
    rw [hfl] at hends
    cases hends
  | _ => exact mem_singleton_self _

theorem exists_next_of_edge (hj : j + 1 = b.length)
    (hnode : node ∈ (FlowGraph.ofCode flow code).successors (.block n)) :
    ∃ m ∈ nextPositions flow code k, Enters flow code m node := by
  obtain ⟨nodes, hnodes, hedges⟩ := exists_enters hin hb hj
  exact exists_of_forall₂_of_mem hnodes ((hedges node).mp hnode)

end

end

end ThreeAddress
