import Mathlib.Algebra.GroupWithZero.Nat
import Mathlib.Algebra.Order.BigOperators.Group.List
import Mathlib.Algebra.Order.Group.Nat
import ThreeAddress.FlowGraph.Backward
import ThreeAddress.Proofs.Control.Positions

/-!
# Solutions of backward analyses

The sweeps of a backward analysis end in a solution: the facts at the start of every block are
those that its instructions make of the facts at its end.  From it come the facts around every
single instruction, which is what the passes that use an analysis rely on.
-/

namespace ThreeAddress

open BackwardAnalysis FlowGraph List Std.ExtTreeSet Array Option

/-! ### Sizes of finite sets -/

section

variable {α : Type} [Ord α] [Std.TransOrd α] [Std.LawfulEqOrd α]

theorem nodup_toList (s : Std.ExtTreeSet α) : s.toList.Nodup := by
  refine s.distinct_toList.imp fun {a b} hne heq => hne ?_
  rw [heq]
  exact Std.ReflCmp.compare_self

theorem size_le_of_subset {s t : Std.ExtTreeSet α} (h : ∀ x ∈ s, x ∈ t) : s.size ≤ t.size := by
  rw [← Std.ExtTreeSet.length_toList, ← Std.ExtTreeSet.length_toList]
  refine (subperm_of_subset (nodup_toList s) fun x hx => ?_).length_le
  exact mem_toList.mpr (h x (mem_toList.mp hx))

theorem eq_of_subset_of_size_le {s t : Std.ExtTreeSet α} (h : ∀ x ∈ s, x ∈ t)
    (hsize : t.size ≤ s.size) : s = t := by
  have hsub : s.toList.Subperm t.toList :=
    subperm_of_subset (nodup_toList s) fun x hx =>
      mem_toList.mpr (h x (mem_toList.mp hx))
  have hperm := hsub.perm_of_length_le (by simpa using hsize)
  refine ext_mem fun x => ⟨h x, fun hx => ?_⟩
  exact mem_toList.mp (hperm.mem_iff.mpr (mem_toList.mpr hx))

end

/-! ### Iteration until nothing changes -/

theorem iterateUntilStable_eq {σ : Type} [DecidableEq σ] {f : σ → σ} (good : σ → Prop)
    (height : σ → Nat) (bound : Nat) (hgood : ∀ s, good s → good (f s))
    (hbound : ∀ s, good s → height s ≤ bound)
    (hclimb : ∀ s, good s → f s ≠ s → height s < height (f s)) :
    ∀ fuel s, good s → bound < fuel + height s → good (iterateUntilStable f fuel s) ∧
        f (iterateUntilStable f fuel s) = iterateUntilStable f fuel s := by
  intro fuel
  induction fuel with
  | zero =>
    intro s hs hfuel
    have := hbound s hs
    omega
  | succ fuel ih =>
    intro s hs hfuel
    rw [iterateUntilStable]
    by_cases hstable : f s = s
    · simp [hstable, hs]
    · simp only [hstable, if_false]
      have := hclimb s hs hstable
      exact ih (f s) (hgood s hs) (by omega)

theorem exists_iterate_eq {σ : Type} [DecidableEq σ] (f : σ → σ) (fuel : Nat) (s : σ) :
    ∃ rounds ≤ fuel, iterateUntilStable f fuel s = f^[rounds] s := by
  induction fuel generalizing s with
  | zero => exact ⟨0, Nat.le_refl 0, rfl⟩
  | succ fuel ih =>
    rw [iterateUntilStable]
    split
    · exact ⟨0, Nat.zero_le _, rfl⟩
    · obtain ⟨rounds, hle, heq⟩ := ih (f s)
      exact ⟨rounds + 1, Nat.succ_le_succ hle, heq⟩

theorem iterateUntilStable_induction {σ : Type} [DecidableEq σ] {f : σ → σ} (good : σ → Prop)
    (hgood : ∀ s, good s → good (f s)) (fuel : Nat) {s : σ} (hs : good s) :
    good (iterateUntilStable f fuel s) := by
  obtain ⟨rounds, -, heq⟩ := exists_iterate_eq f fuel s
  rw [heq]
  exact Function.Iterate.rec good hs hgood rounds

namespace BackwardAnalysis

variable {α : Type} [Ord α] [Std.TransOrd α] {m n : Nat} {s starts t : Array (Std.ExtTreeSet α)}

/-! ### A sweep -/

theorem mem_foldl_nodes {nodes : List FlowNode} {atExit facts : Std.ExtTreeSet α} {x : α} :
    x ∈ nodes.foldl (fun facts node =>
        match node with
        | .exit => facts ∪ atExit
        | .block s => facts ∪ starts.getD s ∅
        | .entry => facts) facts ↔
      x ∈ facts ∨ (.exit ∈ nodes ∧ x ∈ atExit) ∨
        ∃ m, .block m ∈ nodes ∧ x ∈ starts.getD m ∅ := by
  -- The facts gathered so far are kept in each step of the fold.
  induction nodes generalizing facts with
  | nil => simp
  | cons node rest ih =>
    rw [foldl_cons, ih]
    cases node with
    | entry => simp
    | exit =>
      simp only [Std.ExtTreeSet.mem_union_iff, mem_cons, true_or, true_and, reduceCtorEq, false_or]
      tauto
    | block s =>
      simp only [Std.ExtTreeSet.mem_union_iff, mem_cons, FlowNode.block.injEq, reduceCtorEq,
        false_or, or_and_right, exists_or, exists_eq_left]
      tauto

theorem mem_atEnd {a : BackwardAnalysis α} {x : α} : x ∈ a.atEnd starts n ↔
      (FlowNode.exit ∈ a.graph.successors (.block n) ∧ x ∈ a.atExit) ∨
      ∃ m, FlowNode.block m ∈ a.graph.successors (.block n) ∧ x ∈ starts.getD m ∅ :=
  mem_foldl_nodes.trans (by simp)

section

variable (a : BackwardAnalysis α)

/-- Recomputes the start of one block. -/
def update (n : Nat) (starts : Array (Std.ExtTreeSet α)) :
    Array (Std.ExtTreeSet α) :=
  starts.setIfInBounds n (a.transfer n (a.atEnd starts n))

theorem getElem?_update_ne (h : n ≠ m) (starts : Array (Std.ExtTreeSet α)) :
    (a.update n starts)[m]? = starts[m]? := by
  rw [update, getElem?_setIfInBounds, if_neg h]

@[simp] theorem size_update (n : Nat)
    (starts : Array (Std.ExtTreeSet α)) : (a.update n starts).size = starts.size := by
  simp [update]

theorem size_foldr_update (ns : List Nat)
    (starts : Array (Std.ExtTreeSet α)) : (ns.foldr a.update starts).size = starts.size := by
  induction ns with
  | nil => rfl
  | cons n rest ih => rw [foldr_cons, size_update, ih]

theorem getElem?_foldr_update {ns : List Nat} (h : m ∉ ns)
    (starts : Array (Std.ExtTreeSet α)) : (ns.foldr a.update starts)[m]? = starts[m]? := by
  induction ns with
  | nil => rfl
  | cons n rest ih =>
    rw [mem_cons, not_or] at h
    rw [foldr_cons, getElem?_update_ne a (.symm h.1), ih h.2]

end

/-- If updating some blocks one after another changes nothing in the end, none of the updates
changes anything: every block is updated once, so no change can be undone. -/
theorem update_eq_of_foldr_eq (a : BackwardAnalysis α) {ns : List Nat} (hnodup : ns.Nodup)
    (h : ns.foldr a.update starts = starts) : ∀ n ∈ ns, a.update n starts = starts := by
  induction ns with
  | nil => simp
  | cons n rest ih =>
    rw [nodup_cons] at hnodup
    rw [foldr_cons] at h
    have hrest : rest.foldr a.update starts = starts := by
      refine ext_getElem? fun m => ?_
      by_cases hm : n = m
      · subst hm
        exact getElem?_foldr_update a hnodup.1 starts
      · rw [← getElem?_update_ne a hm, h]
    intro m hm
    rcases mem_cons.mp hm with rfl | hm
    · rwa [hrest] at h
    · exact ih hnodup.2 hrest m hm

/-! ### The solution -/

/-- What makes the sweeps of an analysis climb and stop: its transfer functions are monotone, and
all facts come from a set that is not larger than the bound. -/
structure Climbs (a : BackwardAnalysis α) : Prop where
  monotone : ∀ n (s t : Std.ExtTreeSet α), (∀ x ∈ s, x ∈ t) →
    ∀ x ∈ a.transfer n s, x ∈ a.transfer n t
  bounded : ∃ all : Std.ExtTreeSet α, all.size ≤ a.factBound ∧ (∀ x ∈ a.atExit, x ∈ all) ∧
    ∀ n (s : Std.ExtTreeSet α), (∀ x ∈ s, x ∈ all) → ∀ x ∈ a.transfer n s, x ∈ all

/-- Every block has at least the facts it has in the other assignment. -/
def Below (s t : Array (Std.ExtTreeSet α)) : Prop := ∀ n, ∀ x ∈ s.getD n ∅, x ∈ t.getD n ∅

variable {a : BackwardAnalysis α}

theorem mem_getD_update {x : α} : x ∈ (a.update n starts).getD m ∅ ↔
      if n = m ∧ n < starts.size then x ∈ a.transfer n (a.atEnd starts n)
      else x ∈ starts.getD m ∅ := by
  rw [update]
  by_cases hnm : n = m
  · subst hnm
    by_cases hn : n < starts.size
    · simp [hn]
    · simp [hn]
  · simp [hnm]

theorem Climbs.update_below (h : a.Climbs) (hsize : s.size = t.size) (hst : Below s t) (n : Nat) :
    Below (a.update n s) (a.update n t) := by
  intro m x hx
  rw [mem_getD_update] at hx ⊢
  rw [← hsize]
  split at hx
  · rename_i hnm
    rw [if_pos hnm]
    refine h.monotone n _ _ (fun y hy => ?_) x hx
    rw [mem_atEnd] at hy ⊢
    rcases hy with hy | ⟨m', hm', hy⟩
    · exact .inl hy
    · exact .inr ⟨m', hm', hst m' y hy⟩
  · rename_i hnm
    rw [if_neg hnm]
    exact hst m x hx

theorem Climbs.foldr_update_below (h : a.Climbs) (hsize : s.size = t.size) (hst : Below s t)
    (ns : List Nat) : Below (ns.foldr a.update s) (ns.foldr a.update t) := by
  induction ns with
  | nil => exact hst
  | cons n rest ih =>
    exact h.update_below (by simp [size_foldr_update, hsize]) ih n

theorem foldr_update_all {all : Std.ExtTreeSet α} (hexit : ∀ x ∈ a.atExit, x ∈ all)
    (hall : ∀ n (s : Std.ExtTreeSet α), (∀ x ∈ s, x ∈ all) → ∀ x ∈ a.transfer n s, x ∈ all)
    (hs : ∀ n, ∀ x ∈ starts.getD n ∅, x ∈ all) (ns : List Nat) :
    ∀ n, ∀ x ∈ (ns.foldr a.update starts).getD n ∅, x ∈ all := by
  induction ns with
  | nil => exact hs
  | cons m rest ih =>
    intro n x hx
    rw [foldr_cons, mem_getD_update] at hx
    split at hx
    · refine hall m _ (fun y hy => ?_) x hx
      rw [mem_atEnd] at hy
      rcases hy with ⟨-, hy⟩ | ⟨m', -, hy⟩
      · exact hexit y hy
      · exact ih m' y hy
    · exact ih n x hx

variable [Std.LawfulEqOrd α]

/-- How many facts an assignment has in all. -/
def height (size : Nat) (starts : Array (Std.ExtTreeSet α)) : Nat :=
  ((List.range size).map fun n => (starts.getD n ∅).size).sum

theorem height_lt {size : Nat} (hs : s.size = size) (ht : t.size = size) (hst : Below s t)
    (hne : t ≠ s) : height size s < height size t := by
  refine sum_lt_sum _ _ (fun n _ => size_le_of_subset (hst n)) ?_
  by_contra hall
  refine hne (ext_getElem? fun n => ?_)
  by_cases hn : n < size
  · have hle : ¬ (s.getD n ∅).size < (t.getD n ∅).size := fun hlt =>
      hall ⟨n, mem_range.mpr hn, hlt⟩
    have := eq_of_subset_of_size_le (hst n) (by omega)
    simp only [getD_eq_getD_getElem?, Array.getElem?_eq_getElem (show n < s.size by omega),
      Array.getElem?_eq_getElem (show n < t.size by omega), getD_some] at this ⊢
    rw [this]
  · rw [Array.getElem?_eq_none (by omega), Array.getElem?_eq_none (by omega)]

theorem Climbs.sweep_solve (h : a.Climbs) :
    a.solve.size = a.graph.size ∧ a.sweep a.solve = a.solve := by
  obtain ⟨all, hbound, hexit, hall⟩ := h.bounded
  -- Every assignment met on the way is below its own sweep and inside the set of all facts.
  have key := iterateUntilStable_eq
    (fun s => s.size = a.graph.size ∧ Below s (a.sweep s) ∧ ∀ n, ∀ x ∈ s.getD n ∅, x ∈ all)
    (height a.graph.size) (a.graph.size * a.factBound)
    (fun s hs => by
      have hsize : (a.sweep s).size = s.size := size_foldr_update a _ s
      refine ⟨hsize.trans hs.1, ?_, foldr_update_all hexit hall hs.2.2 _⟩
      exact h.foldr_update_below hsize.symm hs.2.1 _)
    (fun s hs => by
      have := sum_le_card_nsmul
        ((List.range a.graph.size).map fun n => (s.getD n ∅).size) a.factBound (by
          intro x hx
          obtain ⟨n, -, rfl⟩ := mem_map.mp hx
          exact (size_le_of_subset (hs.2.2 n)).trans hbound)
      simpa [height] using this)
    (fun s hs hne => height_lt hs.1 ((size_foldr_update a _ s).trans hs.1) hs.2.1 hne)
    (a.graph.size * a.factBound + 1) (.replicate a.graph.size ∅)
    ⟨by simp, fun n x hx => by
        rw [getD_eq_getD_getElem?, Array.getElem?_replicate] at hx
        split at hx <;> simp at hx,
      fun n x hx => by
        rw [getD_eq_getD_getElem?, Array.getElem?_replicate] at hx
        split at hx <;> simp at hx⟩
    (by omega)
  exact ⟨key.1.1, key.2⟩

/-- The facts at the start of a block are what its transfer function makes of those at its end. -/
theorem Climbs.solve_eq (h : a.Climbs) (hn : n < a.graph.size) :
    a.solve.getD n ∅ = a.transfer n (a.atEnd a.solve n) := by
  obtain ⟨hsize, hsweep⟩ := h.sweep_solve
  have := update_eq_of_foldr_eq a nodup_range hsweep n (mem_range.mpr hn)
  rw [← congrArg (fun s => s.getD n ∅) this, update]
  simp [hsize, hn]

/-- The sweeps add only facts that are asked for: whatever blocks pass on to their starts holds of
all facts there. -/
theorem solve_induction (good : Nat → α → Prop)
    (hstep : ∀ n < a.graph.size, ∀ facts : Std.ExtTreeSet α,
      (∀ x ∈ facts, (FlowNode.exit ∈ a.graph.successors (.block n) ∧ x ∈ a.atExit) ∨
        ∃ m, FlowNode.block m ∈ a.graph.successors (.block n) ∧ good m x) →
      ∀ x ∈ a.transfer n facts, good n x) :
    ∀ n, ∀ x ∈ a.solve.getD n ∅, good n x := by
  refine iterateUntilStable_induction
    (fun starts : Array (Std.ExtTreeSet α) => ∀ n, ∀ x ∈ starts.getD n ∅, good n x)
    (fun starts hstarts => ?_) _ fun n x hx => ?_
  · have hfold : ∀ ns : List Nat, (∀ n ∈ ns, n < a.graph.size) →
        ∀ n, ∀ x ∈ (ns.foldr a.update starts).getD n ∅, good n x := by
      intro ns
      induction ns with
      | nil => exact fun _ => hstarts
      | cons m rest ih =>
        intro hns n x hx
        have hrest := ih fun n hn => hns n (mem_cons_of_mem _ hn)
        rw [foldr_cons, mem_getD_update] at hx
        split at hx
        · rename_i hmn
          refine hmn.1 ▸ hstep m (hns m mem_cons_self) _ (fun y hy => ?_) x hx
          rcases mem_atEnd.mp hy with hexit | ⟨m', hedge, hy⟩
          · exact Or.inl hexit
          · exact .inr ⟨m', hedge, hrest m' y hy⟩
        · exact hrest n x hx
    exact hfold _ fun n hn => mem_range.mp hn
  · rw [getD_eq_getD_getElem?, Array.getElem?_replicate] at hx
    split at hx <;> simp at hx

end BackwardAnalysis

/-! ### Facts around instructions -/

/-- A backward analysis of a piece of code that is given instruction by instruction. -/
structure CodeAnalysis (α β L : Type) [Ord α] where
  flow : β → Flow L
  code : List β
  /-- The facts before an instruction, from those after it. -/
  before : β → Std.ExtTreeSet α → Std.ExtTreeSet α
  /-- The facts that hold when the code is left. -/
  atExit : Std.ExtTreeSet α
  factBound : Nat

namespace CodeAnalysis

variable {α β L : Type} [Ord α] {j k : Nat} {c : CodeAnalysis α β L} {b : List β}

/-- The facts after each instruction of a block, from those at its end. -/
def factsThrough (before : β → Std.ExtTreeSet α → Std.ExtTreeSet α) :
    List β → Std.ExtTreeSet α → List (Std.ExtTreeSet α)
  | [], _ => []
  | _ :: rest, facts => rest.foldr before facts :: factsThrough before rest facts

@[simp] theorem length_factsThrough (before : β → Std.ExtTreeSet α → Std.ExtTreeSet α)
    (block : List β) (facts : Std.ExtTreeSet α) :
    (factsThrough before block facts).length = block.length := by
  induction block with
  | nil => rfl
  | cons i rest ih => simp [factsThrough, ih]

theorem getElem?_factsThrough (before : β → Std.ExtTreeSet α → Std.ExtTreeSet α) {block : List β}
    (hj : j < block.length) (facts : Std.ExtTreeSet α) :
    (factsThrough before block facts)[j]? = some ((block.drop (j + 1)).foldr before facts) := by
  induction block generalizing j with
  | nil => simp at hj
  | cons i rest ih =>
    cases j with
    | zero => rfl
    | succ j => simpa [factsThrough] using ih (by simpa using hj)

variable [DecidableEq L]

def byBlocks (c : CodeAnalysis α β L) : BackwardAnalysis α where
  graph := FlowGraph.ofCode c.flow c.code
  atExit := c.atExit
  transfer := fun n facts => ((blocksOf c.flow c.code).toArray.getD n []).foldr c.before facts
  factBound := c.factBound

variable [Std.TransOrd α]

theorem climbs (hmono : ∀ i (s t : Std.ExtTreeSet α), (∀ x ∈ s, x ∈ t) →
      ∀ x ∈ c.before i s, x ∈ c.before i t) (all : Std.ExtTreeSet α)
    (hbound : all.size ≤ c.factBound) (hexit : ∀ x ∈ c.atExit, x ∈ all)
    (hall : ∀ i ∈ c.code, ∀ s : Std.ExtTreeSet α, (∀ x ∈ s, x ∈ all) →
      ∀ x ∈ c.before i s, x ∈ all) : c.byBlocks.Climbs where
  monotone := by
    intro n s t hst
    show ∀ x ∈ ((blocksOf c.flow c.code).toArray.getD n []).foldr c.before s,
      x ∈ ((blocksOf c.flow c.code).toArray.getD n []).foldr c.before t
    induction (blocksOf c.flow c.code).toArray.getD n [] with
    | nil => exact hst
    | cons i rest ih => exact hmono i _ _ ih
  bounded := by
    refine ⟨all, hbound, hexit, fun n s hs => ?_⟩
    have hsub : ∀ i ∈ (blocksOf c.flow c.code).toArray.getD n [], i ∈ c.code := by
      intro i hi
      cases hb : (blocksOf c.flow c.code)[n]? with
      | none => simp [hb] at hi
      | some b =>
        rw [← flatten_blocksOf c.flow c.code]
        exact mem_flatten.mpr ⟨b, mem_of_getElem? hb, by simpa [hb] using hi⟩
    show ∀ x ∈ ((blocksOf c.flow c.code).toArray.getD n []).foldr c.before s, x ∈ all
    revert hsub
    generalize (blocksOf c.flow c.code).toArray.getD n [] = block
    intro hsub
    induction block with
    | nil => exact hs
    | cons i rest ih =>
      exact hall i (hsub i mem_cons_self) _ (ih fun i hi => hsub i (mem_cons_of_mem _ hi))

variable [Std.LawfulEqOrd α]

def atEnd (c : CodeAnalysis α β L) (n : Nat) : Std.ExtTreeSet α :=
  c.byBlocks.atEnd c.byBlocks.solve n

/-- The facts after the instruction at a position. -/
def factsAfter (c : CodeAnalysis α β L) (k : Nat) : Std.ExtTreeSet α :=
  ((blocksOf c.flow c.code).zipIdx.flatMap fun (block, n) =>
    factsThrough c.before block (c.atEnd n))[k]?.getD ∅

/-- The facts before the instruction at a position; at the end of the code, those at the exit. -/
def factsBefore (c : CodeAnalysis α β L) (k : Nat) : Std.ExtTreeSet α :=
  match c.code[k]? with
  | some i => c.before i (c.factsAfter k)
  | none => c.atExit

theorem factsBefore_of_getElem? {i : β} (hi : c.code[k]? = some i) :
    c.factsBefore k = c.before i (c.factsAfter k) := by
  rw [factsBefore, hi]

section

variable (c : CodeAnalysis α β L) {n : Nat} (hin : InBlock (blocksOf c.flow c.code) k n j)
  (hb : (blocksOf c.flow c.code)[n]? = some b)

include hin hb

theorem factsAfter_eq : c.factsAfter k = (b.drop (j + 1)).foldr c.before (c.atEnd n) := by
  rw [factsAfter, getElem?_flatMap_zipIdx (fun b n => length_factsThrough _ _ _) hin hb,
    getElem?_factsThrough _ (hin.position hb).1, getD_some]

theorem factsBefore_eq : c.factsBefore k = (b.drop j).foldr c.before (c.atEnd n) := by
  have hj := (hin.position hb).1
  rw [factsBefore, hin.getElem? hb, List.getElem?_eq_getElem hj, c.factsAfter_eq hin hb,
    drop_eq_getElem_cons hj, foldr_cons]

end

theorem factsAfter_of_length_le (c : CodeAnalysis α β L) (hk : c.code.length ≤ k) :
    c.factsAfter k = ∅ := by
  have hlength : ((blocksOf c.flow c.code).zipIdx.flatMap fun (block, n) =>
      factsThrough c.before block (c.atEnd n)).length = c.code.length := by
    rw [length_flatMap_zipIdx fun b n => length_factsThrough _ _ _, flatten_blocksOf]
  rw [factsAfter, getElem?_eq_none (by omega), getD_none]

/-- The facts where control goes next are among those after the instruction it comes from. -/
theorem factsBefore_subset (h : c.byBlocks.Climbs) {m : Nat}
    (hm : m ∈ nextPositions c.flow c.code k) : ∀ x ∈ c.factsBefore m, x ∈ c.factsAfter k := by
  intro x hx
  obtain ⟨i, hi⟩ := exists_of_mem_nextPositions hm
  obtain ⟨n, j, b, hin, hb, -⟩ := exists_inBlock_of_getElem? c.flow hi
  rw [c.factsAfter_eq hin hb]
  rcases next_cases hin hb hm with ⟨-, hin'⟩ | ⟨hj, n', hedge, hin'⟩ | ⟨hj, hedge, rfl⟩
  · rwa [c.factsBefore_eq hin' hb] at hx
  · -- The facts at the start of a successor are facts at the end of the block.
    obtain ⟨b', hb', -, -⟩ := id hin'
    rw [c.factsBefore_eq hin' hb'] at hx
    rw [hj, drop_length, foldr_nil, atEnd, mem_atEnd]
    refine .inr ⟨n', hedge, ?_⟩
    have hsize : n' < c.byBlocks.graph.size := by
      have := (List.getElem?_eq_some_iff.mp hb').1
      simpa [byBlocks, FlowGraph.size, ofCode, ofBlocks] using this
    rw [h.solve_eq hsize]
    simpa [byBlocks, hb', atEnd] using hx
  · rw [factsBefore, List.getElem?_eq_none (Nat.le_refl _)] at hx
    rw [hj, drop_length, foldr_nil, atEnd, mem_atEnd]
    exact .inl ⟨hedge, hx⟩

/-! ### The least solution -/

section

variable {c : CodeAnalysis α β L} {holds : Nat → α → Prop}

omit [Std.LawfulEqOrd α] in
/-- Facts that are passed on from instruction to instruction, from the end of a block to one of its
positions.  The induction is on the number of instructions that follow in the block. -/
theorem exists_next_of_mem_foldr (hstep : ∀ k i, c.code[k]? = some i → ∀ facts : Std.ExtTreeSet α,
      (∀ x ∈ facts, ∃ m ∈ nextPositions c.flow c.code k, holds m x) →
      ∀ x ∈ c.before i facts, holds k x) {n : Nat} (hb : (blocksOf c.flow c.code)[n]? = some b)
    {facts : Std.ExtTreeSet α}
    (hfacts : ∀ k j, InBlock (blocksOf c.flow c.code) k n j → j + 1 = b.length →
      ∀ x ∈ facts, ∃ m ∈ nextPositions c.flow c.code k, holds m x) (d : Nat)
    (hin : InBlock (blocksOf c.flow c.code) k n j) (hj : j + 1 + d = b.length) :
    ∀ x ∈ (b.drop (j + 1)).foldr c.before facts,
      ∃ m ∈ nextPositions c.flow c.code k, holds m x := by
  induction d generalizing k j with
  | zero =>
    intro x hx
    rw [drop_of_length_le (by omega), foldr_nil] at hx
    exact hfacts k j hin (by omega) x hx
  | succ d ih =>
    intro x hx
    have hlt : j + 1 < b.length := by omega
    have hin' : InBlock (blocksOf c.flow c.code) (k + 1) n (j + 1) :=
      ⟨b, hb, hlt, congrArg (· + 1) (hin.position hb).2⟩
    rw [drop_eq_getElem_cons hlt, foldr_cons] at hx
    refine ⟨k + 1, succ_mem_nextPositions hin hb hlt, hstep (k + 1) b[j + 1] ?_ _ ?_ x hx⟩
    · rw [hin'.getElem? hb, List.getElem?_eq_getElem hlt]
    · exact ih hin' (by omega)

/-- The solution is the least one: if something holds of all facts at the exit and is passed on by
every instruction, it holds of all facts that are found. -/
theorem exists_next_of_mem_factsAfter (hexit : ∀ x ∈ c.atExit, holds c.code.length x)
    (hstep : ∀ k i, c.code[k]? = some i → ∀ facts : Std.ExtTreeSet α,
      (∀ x ∈ facts, ∃ m ∈ nextPositions c.flow c.code k, holds m x) →
      ∀ x ∈ c.before i facts, holds k x) (hk : k < c.code.length) :
    ∀ x ∈ c.factsAfter k, ∃ m ∈ nextPositions c.flow c.code k, holds m x := by
  let blocks := blocksOf c.flow c.code
  -- What comes along the edges of the graph comes from where control goes.
  have hedges : ∀ (n : Nat) (facts : Std.ExtTreeSet α), (∀ x ∈ facts,
        (.exit ∈ c.byBlocks.graph.successors (.block n) ∧ x ∈ c.byBlocks.atExit) ∨
        ∃ m, .block m ∈ c.byBlocks.graph.successors (.block n) ∧ holds (blockStart blocks m) x) →
      ∀ b, blocks[n]? = some b → ∀ k j, InBlock blocks k n j → j + 1 = b.length →
        ∀ x ∈ facts, ∃ m ∈ nextPositions c.flow c.code k, holds m x := by
    intro n facts hfacts b hb k j hin hj x hx
    rcases hfacts x hx with ⟨hedge, hx⟩ | ⟨m, hedge, hx⟩
    · obtain ⟨t, ht, ⟨n', hnode, -⟩ | ⟨-, rfl⟩⟩ := exists_next_of_edge hin hb hj hedge
      · cases hnode
      · exact ⟨_, ht, hexit x hx⟩
    · obtain ⟨t, ht, ⟨n', hnode, hin'⟩ | ⟨hnode, -⟩⟩ := exists_next_of_edge hin hb hj hedge
      · cases hnode
        obtain ⟨-, -, -, rfl⟩ := hin'
        exact ⟨_, ht, hx⟩
      · cases hnode
  have hstarts : ∀ n, ∀ x ∈ c.byBlocks.solve.getD n ∅, holds (blockStart blocks n) x := by
    refine solve_induction (fun n => holds (blockStart blocks n))
      fun n hn facts hfacts x hx => ?_
    have hn' : n < blocks.length := by
      simpa [byBlocks, FlowGraph.size, ofCode, ofBlocks] using hn
    have hb : blocks[n]? = some blocks[n] := getElem?_eq_getElem hn'
    have hin := inBlock_blockStart hb
    have hpos := (hin.position hb).1
    have hx' : x ∈ (blocks[n].drop 0).foldr c.before facts := by
      have hget : blocks.toArray.getD n [] = blocks[n] := by simp [hn']
      rw [← hget]
      exact hx
    rw [drop_eq_getElem_cons hpos] at hx'
    refine hstep _ _ ?_ _ ?_ x hx'
    · rw [hin.getElem? hb, List.getElem?_eq_getElem hpos]
    · exact exists_next_of_mem_foldr hstep hb (hedges n facts hfacts _ hb)
        (blocks[n].length - 1) hin (by omega)
  obtain ⟨n, j, b, hin, hb, -⟩ := exists_inBlock_of_getElem? c.flow (getElem?_eq_getElem hk)
  have hj := (hin.position hb).1
  rw [c.factsAfter_eq hin hb]
  refine exists_next_of_mem_foldr hstep hb (hedges n _ (fun x hx => ?_) b hb)
    (b.length - 1 - j) hin (by omega)
  refine (mem_atEnd.mp hx).imp_right ?_
  rintro ⟨m, hedge, hx⟩
  exact ⟨m, hedge, hstarts m x hx⟩

end

end CodeAnalysis

end ThreeAddress
