import ThreeAddress.Proofs.Control.BackwardFacts

/-!
# Checked steps

A step often relies on what earlier steps have established: that a position lies inside a list, that
a case cannot arise, that a number can be represented.  A checked step tests this first and fails
where it does not hold; otherwise it is the step itself.  This module has the checks in the
construction of control-flow graphs and in backward analyses, and shows that none of them fails.
-/

namespace ThreeAddress

open List

/-- How a checked step fails. -/
inductive Fault where
  /-- A case is reached that was thought impossible. -/
  | unreachable
  /-- There is nothing at a position. -/
  | outOfRange
  /-- A number is too large, or less than zero. -/
  | overflow
  /-- What was asserted does not hold. -/
  | assertion
  deriving DecidableEq, Repr

abbrev Checked := Except Fault

namespace Checked

variable {α β σ : Type}
variable {xs : List α} {f : σ → α → Checked σ} {g : σ → α → σ}

/-- Tests what a step relies on. -/
def ensure (fault : Fault) (p : Prop) [Decidable p] : Checked Unit :=
  if p then .ok () else .error fault

theorem ensure_eq {p : Prop} [Decidable p] (h : p) (fault : Fault) : ensure fault p = .ok () :=
  if_pos h

theorem ok_bind (a : α) (f : α → Checked β) : ((.ok a : Checked α) >>= f) = f a := rfl

theorem ensure_bind {p : Prop} [Decidable p] (h : p) (fault : Fault) (f : Unit → Checked β) :
    (ensure fault p >>= f) = f () := by
  rw [ensure_eq h, ok_bind]

theorem forM_eq_ok {f : α → Checked Unit} (h : ∀ a ∈ xs, f a = .ok ()) : xs.forM f = .ok () := by
  induction xs with
  | nil => rfl
  | cons a rest ih =>
    obtain ⟨ha, hrest⟩ := forall_mem_cons.mp h
    show (f a >>= fun _ => rest.forM f) = .ok ()
    rw [ha, ok_bind, ih hrest]

theorem mapM_eq_ok {f : α → Checked β} {g : α → β} (h : ∀ a ∈ xs, f a = .ok (g a)) :
    xs.mapM f = .ok (xs.map g) := by
  induction xs with
  | nil => rfl
  | cons a rest ih =>
    obtain ⟨ha, hrest⟩ := forall_mem_cons.mp h
    rw [mapM_cons, ha, ih hrest]
    rfl

/-- A loop of checked steps does not fail if each step keeps what the next ones rely on.  This may
depend on the elements that the loop has passed. -/
theorem foldlM_eq_ok (good : List α → σ → Prop) {s : σ}
    (hstep : ∀ passed a s, passed ++ [a] <+: xs → good passed s →
      f s a = .ok (g s a) ∧ good (passed ++ [a]) (g s a)) (hs : good [] s) :
    xs.foldlM f s = .ok (xs.foldl g s) ∧ good xs (xs.foldl g s) := by
  -- The induction is on what is left; what was passed only grows.
  have key : ∀ (rest passed : List α) (s : σ), passed ++ rest = xs → good passed s →
      rest.foldlM f s = .ok (rest.foldl g s) ∧ good xs (rest.foldl g s) := by
    intro rest
    induction rest with
    | nil =>
      rintro passed s rfl hgood
      rw [append_nil]
      exact ⟨rfl, hgood⟩
    | cons a rest ih =>
      intro passed s hxs hgood
      have hxs' : (passed ++ [a]) ++ rest = xs := by simpa using hxs
      obtain ⟨hf, hgood⟩ := hstep passed a s ⟨rest, hxs'⟩ hgood
      rw [foldlM_cons, hf]
      exact ih (passed ++ [a]) (g s a) hxs' hgood
  exact key xs [] s rfl hs

theorem foldlM_eq_ok_of_invariant (good : σ → Prop) {s : σ}
    (hstep : ∀ a ∈ xs, ∀ s, good s → f s a = .ok (g s a) ∧ good (g s a)) (hs : good s) :
    xs.foldlM f s = .ok (xs.foldl g s) ∧ good (xs.foldl g s) := by
  refine foldlM_eq_ok (fun _ => good) (fun passed a s hinitial hgood => ?_) hs
  exact hstep a (hinitial.subset (by simp)) s hgood

/-- A step has its result, unless a number is too large. -/
def OkUnless (large : Prop) (x : Checked α) (a : α) : Prop :=
  x = .ok a ∨ (x = .error .overflow ∧ large)

namespace OkUnless

variable {large : Prop} {x : Checked α} {a : α}

theorem ensure {p : Prop} [Decidable p] (h : ¬ p → large) :
    OkUnless large (Checked.ensure .overflow p) () := by
  by_cases hp : p
  · exact .inl (ensure_eq hp _)
  · exact .inr ⟨if_neg hp, h hp⟩

theorem bind {f : α → Checked β} {b : β} (hx : OkUnless large x a) (hf : OkUnless large (f a) b) :
    OkUnless large (x >>= f) b := by
  rcases hx with rfl | ⟨rfl, hlarge⟩
  · exact hf
  · exact .inr ⟨rfl, hlarge⟩

theorem foldlM (good : σ → Prop) {s : σ}
    (hstep : ∀ a ∈ xs, ∀ s, good s → OkUnless large (f s a) (g s a) ∧ good (g s a)) (hs : good s) :
    OkUnless large (xs.foldlM f s) (xs.foldl g s) := by
  induction xs generalizing s with
  | nil => exact .inl rfl
  | cons a rest ih =>
    obtain ⟨hf, hgood⟩ := hstep a mem_cons_self s hs
    exact hf.bind (ih (fun b hb => hstep b (mem_cons_of_mem _ hb)) hgood)

theorem eq_ok (h : OkUnless large x a) (hsmall : ¬ large) : x = .ok a :=
  h.resolve_right fun hlarge => hsmall hlarge.2

end OkUnless

end Checked

open Checked

/-! ### Control-flow graphs -/

namespace FlowGraph

variable {L : Type} [DecidableEq L] {blocks : List (List (Flow L))}

/-- Tests an edge of a graph with a number of blocks: it does not leave the exit, does not enter the
entry, and its ends exist. -/
def checkEdge (size : Nat) (e : FlowNode × FlowNode) : Checked Unit := do
  ensure .unreachable (e.1 ≠ .exit)
  ensure .unreachable (e.2 ≠ .entry)
  ensure .outOfRange (∀ n ∈ e.1.block?, n < size)
  ensure .outOfRange (∀ n ∈ e.2.block?, n < size)

/-- The graph of a sequence of blocks.  The first and the last instruction of every block are looked
at. -/
def ofBlocksChecked (blocks : List (List (Flow L))) : Checked FlowGraph := do
  blocks.forM fun block => ensure .outOfRange (block ≠ [])
  let g := ofBlocks blocks
  g.edges.forM (checkEdge g.size)
  return g

/-- Edges lead from the entry or a block to a block or the exit. -/
structure IsEdge (size : Nat) (e : FlowNode × FlowNode) : Prop where
  source : e.1 = .entry ∨ ∃ n < size, e.1 = .block n
  target : e.2 = .exit ∨ ∃ n < size, e.2 = .block n

theorem checkEdge_eq {size : Nat} {e : FlowNode × FlowNode} (h : IsEdge size e) :
    checkEdge size e = .ok () := by
  obtain ⟨source, target⟩ := e
  obtain ⟨rfl | ⟨n, hn, rfl⟩, rfl | ⟨m, hm, rfl⟩⟩ := h <;>
    simp [checkEdge, ensure, FlowNode.block?, *] <;> rfl

theorem targetOf_cases (l : L) :
    targetOf blocks l = .exit ∨ ∃ n < blocks.length, targetOf blocks l = .block n := by
  unfold targetOf
  split
  · rename_i block n hfind
    rw [findRev?_eq_find?_reverse] at hfind
    have hmem := mem_reverse.mp (mem_of_find?_eq_some hfind)
    exact .inr ⟨n, (mem_zipIdx' hmem).1, rfl⟩
  · exact .inl rfl

omit [DecidableEq L] in
theorem fallThrough_eq_exit_or (n : Nat) :
    fallThrough blocks n = .exit ∨ ∃ m < blocks.length, fallThrough blocks n = .block m := by
  unfold fallThrough
  split
  · rename_i hn
    exact Or.inr ⟨n + 1, hn, rfl⟩
  · exact Or.inl rfl

theorem leaving_cases {n : Nat} {block : List (Flow L)} {node : FlowNode}
    (h : node ∈ leaving blocks n block) : node = .exit ∨ ∃ m < blocks.length, node = .block m := by
  unfold leaving at h
  simp only at h
  split at h
  · rw [mem_singleton.mp h]
    exact targetOf_cases _
  · split at h
    · rw [mem_singleton.mp h]
      exact targetOf_cases _
    · rcases mem_cons.mp h with rfl | h
      · exact targetOf_cases _
      · rw [mem_singleton.mp h]
        exact fallThrough_eq_exit_or n
  · exact .inl (mem_singleton.mp h)
  · rw [mem_singleton.mp h]
    exact fallThrough_eq_exit_or n

theorem isEdge_of_mem_ofBlocks {e : FlowNode × FlowNode} (h : e ∈ (ofBlocks blocks).edges) :
    IsEdge blocks.length e := by
  rcases mem_cons.mp h with rfl | h
  · refine ⟨.inl rfl, ?_⟩
    cases blocks with
    | nil => exact .inl rfl
    | cons block rest => exact .inr ⟨0, Nat.succ_pos _, rfl⟩
  · obtain ⟨⟨block, n⟩, hblock, hmem⟩ := mem_flatMap.mp h
    obtain ⟨node, hnode, rfl⟩ := mem_map.mp hmem
    exact ⟨.inr ⟨n, (mem_zipIdx' hblock).1, rfl⟩, leaving_cases hnode⟩

theorem size_ofBlocks (blocks : List (List (Flow L))) : (ofBlocks blocks).size = blocks.length :=
  length_map _

/-- No check fails in the construction of a graph, since blocks are not empty. -/
theorem ofBlocksChecked_eq (h : ∀ block ∈ blocks, block ≠ []) :
    ofBlocksChecked blocks = .ok (ofBlocks blocks) := by
  unfold ofBlocksChecked
  rw [forM_eq_ok fun block hblock => ensure_eq (h block hblock) _]
  simp only
  rw [forM_eq_ok fun e he => checkEdge_eq (size_ofBlocks blocks ▸ isEdge_of_mem_ofBlocks he)]
  rfl

end FlowGraph

/-! ### Backward analyses -/

/-- Applies a checked function until it changes nothing, at most the given number of times, and
counts how often. -/
def iterateChecked {σ : Type} [DecidableEq σ] (limit : Nat) (f : σ → Checked σ) :
    Nat → Nat → σ → Checked σ
  | 0, _, s => .ok s
  | fuel + 1, count, s => do
    ensure .overflow (count + 1 ≤ limit)
    let next ← f s
    if next = s then return s else iterateChecked limit f fuel (count + 1) next

theorem iterateChecked_eq {σ : Type} [DecidableEq σ] {limit : Nat} {f : σ → Checked σ} {g : σ → σ}
    (good : σ → Prop) (hstep : ∀ s, good s → f s = .ok (g s) ∧ good (g s)) {fuel count : Nat}
    (hlimit : count + fuel ≤ limit) {s : σ} (hs : good s) :
    iterateChecked limit f fuel count s = .ok (iterateUntilStable g fuel s) := by
  induction fuel generalizing count s with
  | zero => rfl
  | succ fuel ih =>
    obtain ⟨hf, hgood⟩ := hstep s hs
    rw [iterateChecked, ensure_bind (by omega), hf, ok_bind, iterateUntilStable]
    split
    · rfl
    · exact ih (by omega) hgood

namespace BackwardAnalysis

variable {α : Type} [Ord α] [Std.TransOrd α] (a : BackwardAnalysis α)
  {starts : Array (Std.ExtTreeSet α)} {n limit : Nat}

/-- Tests a node to which control goes at the end of a block: the facts at its start are read. -/
def checkSuccessor (starts : Array (Std.ExtTreeSet α)) : FlowNode → Checked Unit
  | .exit => .ok ()
  | .block n => ensure .outOfRange (n < starts.size)
  | .entry => .error .unreachable

def atEndChecked (starts : Array (Std.ExtTreeSet α)) (n : Nat) : Checked (Std.ExtTreeSet α) := do
  ensure .outOfRange (n < a.graph.size)
  (a.graph.successors (.block n)).forM (checkSuccessor starts)
  return a.atEnd starts n

def updateChecked (starts : Array (Std.ExtTreeSet α)) (n : Nat) :
    Checked (Array (Std.ExtTreeSet α)) := do
  let facts ← a.atEndChecked starts n
  ensure .outOfRange (n < starts.size)
  return starts.setIfInBounds n (a.transfer n facts)

def sweepChecked (starts : Array (Std.ExtTreeSet α)) : Checked (Array (Std.ExtTreeSet α)) :=
  (List.range a.graph.size).reverse.foldlM a.updateChecked starts

def solveChecked [Std.LawfulEqOrd α] (limit : Nat) : Checked (Array (Std.ExtTreeSet α)) :=
  iterateChecked limit a.sweepChecked (a.graph.size * a.factBound + 1) 0
    (Array.replicate a.graph.size ∅)

variable {a}

section

variable (hedges : ∀ e ∈ a.graph.edges, FlowGraph.IsEdge a.graph.size e)

include hedges

theorem atEndChecked_eq (hstarts : starts.size = a.graph.size) (hn : n < a.graph.size) :
    a.atEndChecked starts n = .ok (a.atEnd starts n) := by
  have hsuccessors : ∀ node ∈ a.graph.successors (.block n),
      checkSuccessor starts node = .ok () := by
    intro node hnode
    obtain ⟨e, he, htarget⟩ := mem_filterMap.mp hnode
    obtain ⟨-, rfl⟩ : e.1 = .block n ∧ e.2 = node := by simpa using htarget
    rcases (hedges e he).target with hexit | ⟨m, hm, hblock⟩
    · rw [hexit]
      rfl
    · rw [hblock]
      exact ensure_eq (hstarts ▸ hm) _
  rw [atEndChecked, ensure_bind hn, forM_eq_ok hsuccessors]
  rfl

theorem sweepChecked_eq (hstarts : starts.size = a.graph.size) :
    a.sweepChecked starts = .ok (a.sweep starts) ∧ (a.sweep starts).size = a.graph.size := by
  rw [sweep, ← foldl_reverse]
  refine foldlM_eq_ok_of_invariant
    (fun starts : Array (Std.ExtTreeSet α) => starts.size = a.graph.size) ?_ hstarts
  intro n hn starts hstarts
  have hn : n < a.graph.size := mem_range.mp (mem_reverse.mp hn)
  refine ⟨?_, (Array.size_setIfInBounds ..).trans hstarts⟩
  rw [updateChecked, atEndChecked_eq hedges hstarts hn, ok_bind, ensure_bind (hstarts ▸ hn)]
  rfl

/-- No check fails in an analysis of a graph whose edges join its blocks. -/
theorem solveChecked_eq [Std.LawfulEqOrd α] (hlimit : a.graph.size * a.factBound + 1 ≤ limit) :
    a.solveChecked limit = .ok a.solve ∧ a.solve.size = a.graph.size := by
  have hsize : (Array.replicate a.graph.size (∅ : Std.ExtTreeSet α)).size = a.graph.size :=
    Array.size_replicate
  refine ⟨iterateChecked_eq (fun starts => starts.size = a.graph.size)
    (fun starts hstarts => sweepChecked_eq hedges hstarts) (by omega) hsize, ?_⟩
  exact iterateUntilStable_induction
    (fun starts : Array (Std.ExtTreeSet α) => starts.size = a.graph.size)
    (fun starts hstarts => (sweepChecked_eq hedges hstarts).2) _ hsize

end

end BackwardAnalysis

end ThreeAddress
