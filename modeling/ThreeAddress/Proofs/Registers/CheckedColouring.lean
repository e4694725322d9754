import ThreeAddress.Proofs.Registers.CheckedGraphs
import ThreeAddress.Proofs.Registers.Rounds
import ThreeAddress.Registers.Dot

/-!
# Checked allocation

The checks in the allocation of registers.  Nodes that are removed take part in the graph, so their
degrees are known.  To find the node that is cheapest to spill, costs are multiplied by degrees;
both are bounded by the size of the function.  In the end neighbours are tested for different
registers.  None of these checks fails, in any round of allocation, if the square of the size of the
function can be represented.
-/

namespace ThreeAddress

open Checked List

/-! ### Colouring -/

namespace InterferenceGraph

open WellFormed

variable {R : Type} [DecidableEq R] (g : InterferenceGraph R)

/-- Degrees are known of the nodes that take part. -/
abbrev HasDegree (degrees : Array Nat) (n : Nat) : Prop := n < degrees.size ∧ g.isMerged n = false

def cheaperChecked (limit : Nat) (degrees : Array Nat) (best n : Nat) : Checked Nat := do
  ensure .outOfRange (best < g.size)
  ensure .outOfRange (n < g.size)
  ensure .outOfRange (g.HasDegree degrees best)
  ensure .outOfRange (g.HasDegree degrees n)
  ensure .overflow (g.spillCost n * degrees.getD best 0 ≤ limit)
  ensure .overflow (g.spillCost best * degrees.getD n 0 ≤ limit)
  return g.cheaper degrees best n

def nextRemovalChecked (limit k : Nat) (degrees : Array Nat) (first : Nat) (others : List Nat) :
    Checked Nat := do
  (first :: others).forM fun n => ensure .outOfRange (g.HasDegree degrees n)
  match (first :: others).find? fun n => degrees.getD n 0 < k with
  | some n => return n
  | none => others.foldlM (g.cheaperChecked limit degrees) first

def removeAllChecked (limit k : Nat) :
    Nat → Array Nat → List Nat → List Nat → Checked (List Nat)
  | fuel + 1, degrees, first :: others, removed => do
    let n ← g.nextRemovalChecked limit k degrees first others
    ensure .outOfRange (n < g.size)
    let degrees := (g.neighbours n).toList.foldl
      (fun degrees m => degrees.modify m (· - 1)) degrees
    removeAllChecked limit k fuel degrees ((first :: others).erase n) (n :: removed)
  | _, _, _, removed => .ok removed

/-- The pseudo registers of the graph, in the reverse of the order in which they are removed. -/
def removalOrderChecked (limit k : Nat) : Checked (List Nat) := do
  g.liveNodes.forM fun n => ensure .outOfRange (n < g.size)
  let degrees := (Array.range g.size).map g.degree
  let remaining := g.liveNodes.filter fun n => !g.isPrecoloured n
  g.removeAllChecked limit k remaining.length degrees remaining []

def assignChecked (colours : List R) (assigned : Assigned R) (n : Nat) : Checked (Assigned R) := do
  ensure .outOfRange (n < g.size)
  return g.assign colours assigned n

/-- Colours the pseudo registers of a graph, and tests that neighbours have different registers. -/
def colourChecked (limit : Nat) (colours : List R) : Checked (Colouring R) := do
  let order ← g.removalOrderChecked limit colours.length
  let assigned ← order.foldlM (g.assignChecked colours) g.precoloured
  g.edges.forM fun (a, b) =>
    ensure .assertion (∀ r ∈ assigned.getD a none, assigned.getD b none ≠ some r)
  let named := order.filterMap fun n =>
    ((g.location? n).bind Location.pseudo?).map fun name => (name, assigned.getD n none)
  return {
    registers := named.filterMap fun (name, r) => r.map (name, ·)
    spilled :=
      (named.filterMap fun (name, r) => if r.isNone then some name else none).mergeSort
        fun a b => (compare a b).isLE }

variable {g} {uses : List (Location R)} {degrees : Array Nat} {limit bound : Nat}

section

omit [DecidableEq R]

theorem degree_le_size (h : g.WellFormed) (n : Nat) : g.degree n ≤ g.size := by
  have hsubset : (g.neighbours n).toList ⊆ range g.size := fun m hm =>
    mem_range.mpr (h.active (Std.ExtTreeSet.mem_toList.mp hm)).lt_size
  simpa [degree] using (subperm_of_subset (nodup_toList (g.neighbours n)) hsubset).length_le

/-- Degrees of the nodes of a graph, none of them larger than a bound. -/
structure Degrees (g : InterferenceGraph R) (bound : Nat) (degrees : Array Nat) : Prop where
  size_eq : degrees.size = g.size
  le : ∀ n, degrees.getD n 0 ≤ bound

theorem Degrees.initial (h : g.WellFormed) (hbound : g.size ≤ bound) :
    Degrees g bound ((Array.range g.size).map g.degree) where
  size_eq := by simp
  le := fun n => by
    rw [Array.getD_eq_getD_getElem?, Array.getElem?_map]
    cases hn : (Array.range g.size)[n]? with
    | none => exact Nat.zero_le _
    | some m => exact (degree_le_size h m).trans hbound

theorem Degrees.remove (h : Degrees g bound degrees) (ns : List Nat) :
    Degrees g bound (ns.foldl (fun degrees m => degrees.modify m (· - 1)) degrees) := by
  induction ns generalizing degrees with
  | nil => exact h
  | cons m rest ih =>
    refine ih ⟨(Array.size_modify ..).trans h.size_eq, fun n => ?_⟩
    have hn := h.le n
    rw [Array.getD_eq_getD_getElem?] at hn ⊢
    rw [Array.getElem?_modify]
    split
    · cases hd : degrees[n]? with
      | none => exact Nat.zero_le _
      | some d =>
        rw [hd] at hn
        exact (Nat.sub_le d 1).trans hn
    · exact hn

theorem hasDegree (h : Degrees g bound degrees) {n : Nat} (hn : g.IsActive n) :
    g.HasDegree degrees n :=
  ⟨h.size_eq.symm ▸ hn.lt_size, hn.isMerged_eq⟩

variable (hcost : ∀ {n : Nat}, g.IsActive n → g.spillCost n ≤ bound)

include hcost

theorem cheaperChecked_okUnless (limit : Nat) (hd : Degrees g bound degrees) {best n : Nat}
    (hbest : g.IsActive best) (hn : g.IsActive n) :
    OkUnless (limit < bound ^ 2) (g.cheaperChecked limit degrees best n)
      (g.cheaper degrees best n) := by
  have hproduct {a : Nat} (ha : g.IsActive a) (b : Nat) :
      ¬ g.spillCost a * degrees.getD b 0 ≤ limit → limit < bound ^ 2 := by
    intro hlarge
    rw [Nat.pow_two]
    exact (Nat.not_le.mp hlarge).trans_le (Nat.mul_le_mul (hcost ha) (hd.le b))
  rw [cheaperChecked, ensure_bind hbest.lt_size, ensure_bind hn.lt_size,
    ensure_bind (hasDegree hd hbest), ensure_bind (hasDegree hd hn)]
  exact (OkUnless.ensure (hproduct hn best)).bind
    ((OkUnless.ensure (hproduct hbest n)).bind (Or.inl rfl))

theorem nextRemovalChecked_okUnless (limit : Nat) (hd : Degrees g bound degrees) (k : Nat)
    {first : Nat} {others : List Nat} (hactive : ∀ n ∈ first :: others, g.IsActive n) :
    OkUnless (limit < bound ^ 2) (g.nextRemovalChecked limit k degrees first others)
      (g.nextRemoval k degrees first others) := by
  have hdegrees : ∀ n ∈ first :: others,
      ensure .outOfRange (g.HasDegree degrees n) = .ok () := fun n hn =>
    ensure_eq (hasDegree hd (hactive n hn)) _
  rw [nextRemovalChecked, forM_eq_ok hdegrees, ok_bind, nextRemoval]
  cases (first :: others).find? fun n => degrees.getD n 0 < k with
  | some n => exact Or.inl rfl
  | none =>
    -- The candidate is always one of the nodes compared so far.
    refine OkUnless.foldlM g.IsActive (fun n hn best hbest => ?_) (hactive first mem_cons_self)
    have hn := hactive n (mem_cons_of_mem _ hn)
    refine ⟨cheaperChecked_okUnless hcost limit hd hbest hn, ?_⟩
    unfold cheaper
    split
    · exact hn
    · exact hbest

theorem removeAllChecked_okUnless (limit : Nat) (hd : Degrees g bound degrees) (k fuel : Nat)
    {remaining : List Nat} (hactive : ∀ n ∈ remaining, g.IsActive n) (removed : List Nat) :
    OkUnless (limit < bound ^ 2) (g.removeAllChecked limit k fuel degrees remaining removed)
      (g.removeAll k fuel degrees remaining removed) := by
  induction fuel generalizing degrees remaining removed with
  | zero => cases remaining <;> exact Or.inl rfl
  | succ fuel ih =>
    cases remaining with
    | nil => exact Or.inl rfl
    | cons first others =>
      have hn := hactive _ (nextRemoval_mem (g := g) k degrees first others)
      refine (nextRemovalChecked_okUnless hcost limit hd k hactive).bind ?_
      rw [ensure_bind hn.lt_size]
      exact ih (hd.remove _) (fun n hn => hactive n (mem_of_mem_erase hn)) _

end

/-- Colouring a graph can only fail because a cost becomes too large when it is multiplied by a
degree. -/
theorem colourChecked_okUnless
    (hcost : ∀ {n : Nat}, g.IsActive n → g.spillCost n ≤ bound) (h : g.WellFormed)
    (hsize : g.size ≤ bound) (limit : Nat) (colours : List R) :
    OkUnless (limit < bound ^ 2) (g.colourChecked limit colours) (g.colour colours) := by
  have hlive : ∀ n ∈ g.liveNodes, g.IsActive n := by
    intro n hn
    obtain ⟨hrange, hmerged⟩ := mem_filter.mp hn
    have hlt : n < g.nodes.size := mem_range.mp hrange
    refine ⟨_, Array.getElem?_eq_getElem hlt, ?_⟩
    simpa [isMerged, Array.getElem?_eq_getElem hlt] using hmerged
  have horder : OkUnless (limit < bound ^ 2) (g.removalOrderChecked limit colours.length)
      (g.removalOrder colours.length) := by
    rw [removalOrderChecked, forM_eq_ok fun n hn => ensure_eq (hlive n hn).lt_size _]
    exact removeAllChecked_okUnless hcost limit (.initial h hsize) _ _
      (fun n hn => hlive n (mem_filter.mp hn).1) []
  have hassigned : (g.removalOrder colours.length).foldlM (g.assignChecked colours) g.precoloured =
      .ok (assignedRegisters g colours) := by
    refine (foldlM_eq_ok_of_invariant (fun _ => True) (fun n hn assigned _ => ⟨?_, trivial⟩)
      trivial).1
    rw [assignChecked, ensure_bind (mem_removalOrder hn).1.lt_size]
    rfl
  have hvalid : ∀ e ∈ g.edges, ensure .assertion (∀ r ∈ (assignedRegisters g colours).getD e.1 none,
        (assignedRegisters g colours).getD e.2 none ≠ some r) = .ok () := by
    intro e he
    obtain ⟨a, -, hmem⟩ := mem_flatMap.mp he
    obtain ⟨b, hb, rfl⟩ := mem_map.mp hmem
    have hb : b ∈ g.neighbours a := Std.ExtTreeSet.mem_toList.mp (mem_filter.mp hb).1
    exact ensure_eq (fun r hr => (h.isColouring_assigned colours).valid hb hr) _
  refine horder.bind ?_
  rw [hassigned, ok_bind, forM_eq_ok hvalid]
  exact .inl rfl

/-- No check fails when a graph is coloured whose costs are numbers of uses. -/
theorem colourChecked_eq (h : g.Tallied uses) (huses : uses.length ≤ bound)
    (hlimit : bound ^ 2 ≤ limit) (hsize : g.size ≤ bound) (colours : List R) :
    g.colourChecked limit colours = .ok (g.colour colours) :=
  (colourChecked_okUnless (fun hn => (h.spillCost_le hn.isMerged_eq).trans huses) h.wellFormed hsize
    limit colours).eq_ok (Nat.not_lt.mpr hlimit)

theorem length_renames_le : g.renames.length ≤ g.size := by
  refine (length_filterMap_le _ _).trans ?_
  rw [Array.length_toList, size]

end InterferenceGraph

/-! ### Allocation -/

section

open AllocationProblem AllSeparate

variable {F R C L : Type} [Ord R] [Std.TransOrd R] [Std.LawfulEqOrd R] [DecidableEq R]
  [DecidableEq C] [DecidableEq L] [Target F R C L] {limit : Nat}

/-- One round of coalescing: the graphs that result, and the new places of pseudo registers. -/
def roundChecked (limit : Nat) (f : F) :
    Checked (List (C × InterferenceGraph R) × Renaming R) := do
  let problem : AllocationProblem R C L := Target.problem f
  let graphs ← problem.graphsChecked limit
  let graphs ← problem.coalesceChecked limit graphs
  let renames ← graphs.mapM fun x => x.2.renamesChecked
  return (graphs, renames.flatten)

/-- Coalesces a function until nothing changes, for at most the given number of rounds. -/
def coalesceRoundsChecked (limit : Nat) : Nat → F → Nat → Checked (Coalesced F R C)
  | 0, f, count => do
    let round ← roundChecked limit f
    return ⟨f, round.1, count⟩
  | fuel + 1, f, count => do
    let round ← roundChecked limit f
    if round.2.isEmpty then return ⟨f, round.1, count⟩
    else
      ensure .overflow (count + round.2.length ≤ limit)
      coalesceRoundsChecked limit fuel (Target.rename f round.2) (count + round.2.length)

def allocateChecked (limit : Nat) (f : F) : Checked (F × Allocation R) := do
  let rounds := (problemOf f).pseudoUses
  let coalesced : Coalesced F R C ← coalesceRoundsChecked limit rounds f 0
  let problem : AllocationProblem R C L := Target.problem coalesced.function
  let colourings ← coalesced.graphs.mapM fun (c, g) => g.colourChecked limit (problem.colours c)
  return (coalesced.function,
    { registers := Std.ExtTreeMap.ofList (colourings.flatMap Colouring.registers) compare
      spilled := Std.ExtTreeSet.ofList (colourings.flatMap Colouring.spilled) compare
      slots := []
      coalesced := coalesced.count
      graphs := coalesced.graphs.map Prod.snd })

omit [Ord R] [Std.TransOrd R] [Std.LawfulEqOrd R] [DecidableEq L] in
theorem length_allRenames_le {p : AllocationProblem R C L} (hnodup : p.classes.Nodup)
    {graphs : List (C × InterferenceGraph R)} (hclasses : graphs.map Prod.fst = p.classes)
    (hgraphs : ∀ x ∈ graphs, p.Weighed x.1 x.2) : (allRenames graphs).length ≤ p.weight := by
  refine Nat.le_trans ?_ (sum_size_le hnodup hclasses hgraphs)
  rw [allRenames, length_flatMap]
  exact sum_le_sum fun x _ => InterferenceGraph.length_renames_le

theorem roundChecked_eq {f : F} (hout : (problemOf f).HandsOut)
    (hlimit : (problemOf f).weight ^ 2 ≤ limit) :
    let graphs := (problemOf f).coalesce (problemOf f).graphs
    roundChecked limit f = .ok (graphs, allRenames graphs) ∧
      (∀ x ∈ graphs, (problemOf f).Weighed x.1 x.2) ∧
      (allRenames graphs).length ≤ (problemOf f).weight := by
  intro graphs
  obtain ⟨hgraphs, hbuilt⟩ := graphsChecked_eq hout hlimit
  obtain ⟨hcoalesce, hmerged⟩ := coalesceChecked_eq
    ((Nat.le_self_pow two_ne_zero _).trans hlimit) hbuilt
  have hclasses : graphs.map Prod.fst = (problemOf f).classes := by
    have htrivial : ∀ x ∈ (problemOf f).graphs, (fun _ _ => True) x.1 x.2 := fun _ _ => trivial
    obtain ⟨hsame, -⟩ := coalesce_induction (fun _ _ => True)
      (fun _ _ _ _ _ => trivial) htrivial
    exact hsame.trans ((map_map ..).trans (map_id _))
  refine ⟨?_, hmerged, length_allRenames_le hout.nodup hclasses hmerged⟩
  rw [roundChecked, hgraphs, ok_bind, hcoalesce, ok_bind,
    mapM_eq_ok fun x hx => (hmerged x hx).tallied.renamesChecked_eq]
  rfl

theorem coalesceRounds_succ {f : F} (fuel count : Nat) : coalesceRounds (fuel + 1) f count =
      let graphs := (problemOf f).coalesce (problemOf f).graphs
      let renames := allRenames graphs
      if renames.isEmpty then ⟨f, graphs, count⟩
      else coalesceRounds fuel (Target.rename f renames) (count + renames.length) := by
  conv_lhs => unfold coalesceRounds
  dsimp only
  split
  · rename_i hfuel hrenames
    cases hfuel
    rw [if_neg (by rw [allRenames, hrenames]; nofun)]
    rfl
  · rename_i hnil
    rw [if_pos (List.isEmpty_iff.mpr (by_contra fun h => ?_))]
    obtain ⟨x, rest, hrenames⟩ := exists_cons_of_ne_nil h
    exact hnil fuel x rest rfl hrenames

section

variable {size : F → Nat} (hout : ∀ f : F, (problemOf f).HandsOut)
  (hsize : ∀ f : F, (problemOf f).weight ≤ size f)
  (hshrink : ∀ (f : F) (renames : Renaming R), size (Target.rename f renames) ≤ size f)

include hout hsize hshrink

theorem coalesceRoundsChecked_eq {bound : Nat} (hlimit : bound ^ 2 ≤ limit) (fuel : Nat) (f : F)
    (count : Nat) (hf : size f ≤ bound) (hcount : count + fuel * bound ≤ limit) :
    coalesceRoundsChecked limit fuel f count = .ok (coalesceRounds fuel f count) ∧
      size (coalesceRounds fuel f count).function ≤ bound ∧
      ∀ x ∈ (coalesceRounds fuel f count).graphs,
        (problemOf (coalesceRounds fuel f count).function).Weighed x.1 x.2 := by
  induction fuel generalizing f count with
  | zero =>
    obtain ⟨hround, hmerged, -⟩ := roundChecked_eq (hout f)
      ((Nat.pow_le_pow_left ((hsize f).trans hf) 2).trans hlimit)
    refine ⟨?_, hf, hmerged⟩
    rw [coalesceRoundsChecked, hround]
    rfl
  | succ fuel ih =>
    have hweight := (hsize f).trans hf
    obtain ⟨hround, hmerged, hlength⟩ := roundChecked_eq (hout f)
      ((Nat.pow_le_pow_left hweight 2).trans hlimit)
    rw [Nat.succ_mul] at hcount
    rw [coalesceRoundsChecked, hround, ok_bind]
    rw [coalesceRounds_succ]
    dsimp only
    split
    · exact ⟨rfl, hf, hmerged⟩
    · rw [ensure_bind (by omega)]
      exact ih _ _ ((hshrink f _).trans hf) (by omega)

/-- No check fails in the allocation of a function whose size, squared, is within the limit.  The
function does not become larger. -/
theorem allocateChecked_eq {f : F} (hlimit : size f ^ 2 ≤ limit) :
    allocateChecked limit f = .ok (allocate f) ∧ size (allocate f).1 ≤ size f ∧
      ∀ g ∈ (allocate f).2.graphs, g.WellFormed := by
  have huses : (problemOf f).pseudoUses ≤ size f := by
    refine Nat.le_trans ?_ (hsize f)
    have hfilter := length_filter_le Location.isPseudo
      ((problemOf f).code.flatMap fun a => a.reads ++ a.writes)
    unfold pseudoUses weight
    omega
  have hrounds : 0 + (problemOf f).pseudoUses * size f ≤ limit := by
    rw [Nat.zero_add]
    exact ((Nat.mul_le_mul_right _ huses).trans (Nat.pow_two _).ge).trans hlimit
  obtain ⟨hcoalesce, hshrunk, hgraphs⟩ := coalesceRoundsChecked_eq hout hsize hshrink hlimit
    (problemOf f).pseudoUses f 0 (Nat.le_refl _) hrounds
  have hweight := (hsize (coalesceAll f).function).trans hshrunk
  have hcolour : ∀ x ∈ (coalesceAll f).graphs,
      x.2.colourChecked limit ((problemOf (coalesceAll f).function).colours x.1) =
        .ok (x.2.colour ((problemOf (coalesceAll f).function).colours x.1)) := by
    intro x hx
    exact InterferenceGraph.colourChecked_eq (hgraphs x hx).tallied
      ((length_usesIn_le _).trans hweight) hlimit ((hgraphs x hx).size_le_weight.trans hweight) _
  refine ⟨?_, hshrunk, fun g hg => ?_⟩
  · rw [allocateChecked]
    rw [hcoalesce]
    show (((coalesceAll f).graphs.mapM fun x => x.2.colourChecked limit
      ((problemOf (coalesceAll f).function).colours x.1)) >>= fun _ => _) = _
    rw [mapM_eq_ok hcolour]
    rfl
  · obtain ⟨x, hx, rfl⟩ := mem_map.mp hg
    exact (hgraphs x hx).tallied.wellFormed

end

end

/-! ### Stack slots -/

namespace Allocation

variable {R : Type} {a : Allocation R} {names : List String} {limit : Nat}

/-- Gives a stack slot to a name, unless it has a register or a slot already.  The slot ends so many
bytes from the base of the frame. -/
def assignSlotChecked (limit : Nat) (a : Allocation R) (name : String) :
    Checked (Allocation R) := do
  unless a.registers.contains name || a.slots.contains name do
    ensure .overflow (8 * (a.slots.length + 1) ≤ limit)
  return a.assignSlot name

def assignSlotsChecked (limit : Nat) (a : Allocation R) (names : List String) :
    Checked (Allocation R) :=
  names.foldlM (assignSlotChecked limit) a

theorem length_slots_assignSlot_le (name : String) :
    (a.assignSlot name).slots.length ≤ a.slots.length + 1 := by
  unfold assignSlot
  split
  · exact Nat.le_succ _
  · rw [length_append]
    rfl

theorem assignSlotChecked_eq (h : 8 * (a.slots.length + 1) ≤ limit) (name : String) :
    a.assignSlotChecked limit name = .ok (a.assignSlot name) := by
  unfold assignSlotChecked
  split
  · rfl
  · rw [ensure_bind h]
    rfl

theorem graphs_assignSlots (a : Allocation R) (names : List String) :
    (a.assignSlots names).graphs = a.graphs := by
  induction names generalizing a with
  | nil => rfl
  | cons name rest ih =>
    refine (ih (a.assignSlot name)).trans ?_
    unfold assignSlot
    split <;> rfl

theorem assignSlotsChecked_eq (h : 8 * (a.slots.length + names.length) ≤ limit) :
    a.assignSlotsChecked limit names = .ok (a.assignSlots names) ∧
      (a.assignSlots names).slots.length ≤ a.slots.length + names.length := by
  refine foldlM_eq_ok
    (fun passed (b : Allocation R) => b.slots.length ≤ a.slots.length + passed.length)
    (fun passed name b hinitial hb => ?_) (Nat.le_refl _)
  have hpassed := hinitial.length_le
  rw [length_append, length_singleton] at hpassed
  refine ⟨assignSlotChecked_eq (by omega) name, ?_⟩
  have hslot := length_slots_assignSlot_le (a := b) name
  rw [length_append, length_singleton]
  omega

end Allocation

/-! ### Drawings -/

/-- The drawing of a graph, for which the nodes and both ends of the edges are looked at. -/
def InterferenceGraph.dotChecked {R : Type} [DecidableEq R] (registerText : R → String)
    (g : InterferenceGraph R) : Checked String := do
  g.liveNodes.forM fun n => ensure .outOfRange (n < g.size)
  g.edges.forM fun e => ensure .outOfRange (e.1 < g.size ∧ e.2 < g.size)
  return g.dot registerText

theorem InterferenceGraph.WellFormed.dotChecked_eq {R : Type} [DecidableEq R]
    {g : InterferenceGraph R} (h : g.WellFormed) (registerText : R → String) :
    g.dotChecked registerText = .ok (g.dot registerText) := by
  have hnodes : ∀ n ∈ g.liveNodes, n < g.size := by
    intro n hn
    exact mem_range.mp (mem_filter.mp hn).1
  have hedges : ∀ e ∈ g.edges, e.1 < g.size ∧ e.2 < g.size := by
    intro e he
    obtain ⟨n, hn, he⟩ := mem_flatMap.mp he
    obtain ⟨k, hk, rfl⟩ := mem_map.mp he
    have hneighbour := Std.ExtTreeSet.mem_toList.mp (mem_filter.mp hk).1
    exact ⟨hnodes n hn, (h.active hneighbour).lt_size⟩
  rw [dotChecked, forM_eq_ok fun n hn => ensure_eq (hnodes n hn) _,
    forM_eq_ok fun e he => ensure_eq (hedges e he) _]
  rfl

end ThreeAddress
