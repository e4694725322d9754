import ThreeAddress.Proofs.Registers.CheckedColouring
import ThreeAddress.Proofs.Registers.FullColouring

/-!
# Complete colourings

What colouring does to any graph that can be built.  Every pseudo register that takes part is
removed once and served once, so it is given a register or spilled, and not both.  It is spilled
only if its neighbours have all registers at the time it is served, and they keep them to the end.
-/

namespace ThreeAddress

open List Option Location

variable {name : String}

/-- The register that a location is in.  A machine register is in itself. -/
def Colouring.registerOf? {R : Type} (c : Colouring R) : Location R → Option R
  | .reg r => some r
  | .pseudo name => c.registers.lookup name

namespace InterferenceGraph

open Checked

variable {R : Type} {g : InterferenceGraph R} {k n : Nat}

/-! ### Building a graph -/

instance : Decidable (g.IsActive n) :=
  decidable_of_iff (g.nodes[n]?.any (fun m => !m.isMerged) = true) <| by
    rw [IsActive, Option.any_eq_true]
    simp

section

variable [DecidableEq R]

/-- The graphs that can be built, with the number of steps that this takes and the locations that
were added.  Edges, uses and merges are of nodes that take part, and some of them can be merged into
others. -/
inductive GrownBy (movable : InterferenceGraph R → Nat → Prop) :
    Nat → List (Location R) → InterferenceGraph R → Prop
  | empty (name : String) : GrownBy movable 0 [] (.empty name)
  | add {steps added g} (h : GrownBy movable steps added g) (l : Location R) :
    GrownBy movable (steps + 1) (l :: added) (g.add l).2
  | addEdge {steps added g} (h : GrownBy movable steps added g) {a b : Nat} (ha : g.IsActive a)
    (hb : g.IsActive b) : GrownBy movable (steps + 1) added (g.addEdge a b)
  | bumpCost {steps added g} (h : GrownBy movable steps added g) {n : Nat} (hn : g.IsActive n) :
    GrownBy movable (steps + 1) added (g.bumpCost n 1)
  | merge {steps added g} (h : GrownBy movable steps added g) {s t : Nat} (hs : movable g s)
    (ht : g.IsActive t) (hst : s ≠ t) : GrownBy movable (steps + 1) added (g.merge s t)

/-- The graphs that can be built in so many steps, if only pseudo registers are merged into others.
-/
def Constructed (steps : Nat) (g : InterferenceGraph R) : Prop :=
  ∃ added, GrownBy IsPseudoNode steps added g

theorem size_add_le (g : InterferenceGraph R) (l : Location R) : (g.add l).2.size ≤ g.size + 1 := by
  cases hid : g.idOf? l with
  | some a =>
    rw [add_of_idOf?_eq_some hid]
    exact Nat.le_succ _
  | none =>
    rw [add_of_idOf?_eq_none hid]
    exact (Array.size_push ..).le

theorem countUse_of_isActive (h : g.WellFormed) (hn : g.IsActive n) :
    ∃ l, g.countUse l = g.bumpCost n 1 := by
  obtain ⟨m, hm, hactive⟩ := hn
  have hid : g.idOf? m.location = some n := by
    rw [h.idOf?_eq hm, h.representative_eq hm hactive]
  refine ⟨m.location, ?_⟩
  rw [countUse, add_of_idOf?_eq_some hid]

theorem Constructed.tallied {steps : Nat} (h : Constructed steps g) :
    ∃ uses, g.Tallied uses ∧ uses.length + g.size ≤ steps := by
  obtain ⟨added, h⟩ := h
  induction h with
  | empty name => exact ⟨[], .empty name, Nat.le_refl _⟩
  | @add _ _ g h l ih =>
    obtain ⟨uses, htallied, hle⟩ := ih
    have hsize := size_add_le g l
    exact ⟨uses, htallied.add l, by omega⟩
  | @addEdge _ _ g h a b ha hb ih =>
    obtain ⟨uses, htallied, hle⟩ := ih
    have hsize := (SameShape.addEdge (g := g) a b).size_eq
    exact ⟨uses, htallied.addEdge ha hb, by omega⟩
  | @bumpCost _ _ g h n hn ih =>
    obtain ⟨uses, htallied, hle⟩ := ih
    obtain ⟨l, hl⟩ := countUse_of_isActive htallied.wellFormed hn
    have hsize := (sameShape_bumpCost (g := g) n 1).size_eq
    refine ⟨uses ++ [l], hl ▸ htallied.countUse l, ?_⟩
    rw [length_append, length_singleton]
    omega
  | @merge _ _ g h s t hs ht hst ih =>
    obtain ⟨uses, htallied, hle⟩ := ih
    have hsize := size_merge g s t
    exact ⟨uses, htallied.merge hs.1 hs.2 ht hst, by omega⟩

end

/-! ### The order of removal -/

theorem removeAll_perm (degrees : Array Nat) {fuel : Nat} {remaining : List Nat}
    (hfuel : remaining.length ≤ fuel) (removed : List Nat) :
    (g.removeAll k fuel degrees remaining removed).Perm (remaining ++ removed) := by
  induction fuel generalizing degrees remaining removed with
  | zero =>
    obtain rfl := length_eq_zero_iff.mp (Nat.le_zero.mp hfuel)
    exact .refl _
  | succ fuel ih =>
    cases remaining with
    | nil => exact .refl _
    | cons first others =>
      have hmem := nextRemoval_mem (g := g) k degrees first others
      have hlength := length_erase_of_mem hmem
      -- The node that is taken out moves from one list to the other.
      exact (ih _ (by omega) _).trans
        (perm_middle.trans ((perm_cons_erase hmem).symm.append_right removed))

theorem removalOrder_perm :
    (g.removalOrder k).Perm (g.liveNodes.filter fun n => !g.isPrecoloured n) := by
  simpa [removalOrder] using removeAll_perm _ (Nat.le_refl _) []

theorem mem_removalOrder_iff : n ∈ g.removalOrder k ↔ g.IsPseudoNode n :=
  removalOrder_perm.mem_iff.trans mem_filter_liveNodes

theorem nodup_removalOrder : (g.removalOrder k).Nodup :=
  removalOrder_perm.nodup_iff.mpr ((nodup_range.filter _).filter _)

/-! ### Names -/

theorem isPseudoNode_of_location (hn : g.IsActive n) (hname : g.location? n = some (.pseudo name)) :
    g.IsPseudoNode n := by
  obtain ⟨m, hm, hlocation⟩ := map_eq_some_iff.mp hname
  refine ⟨hn, ?_⟩
  simp [isPrecoloured, InterferenceNode.isPrecoloured, hm, hlocation, isPseudo, pseudo?]

theorem map_fst_append_perm (named : List (String × Option R)) :
    ((named.filterMap fun (name, r) => r.map (name, ·)).map Prod.fst ++
      named.filterMap fun (name, r) => if r.isNone then some name else none).Perm
      (named.map Prod.fst) := by
  induction named with
  | nil => exact .refl _
  | cons x rest ih =>
    obtain ⟨name, r⟩ := x
    cases r with
    | none => simpa using perm_middle.trans (ih.cons name)
    | some r => simpa using ih.cons name

/-! ### Handing out registers -/

variable [DecidableEq R] {colours : List R}

theorem size_assign (assigned : Assigned R) :
    (g.assign colours assigned n).size = assigned.size := by
  rcases assign_cases g colours assigned n with ⟨r, -, -, heq⟩ | ⟨-, heq⟩
  · rw [heq, Array.size_setIfInBounds]
  · rw [heq]

/-- A node that is served but finds no register has neighbours with all of them.  A neighbour that
is served later has none yet, and the others keep what they have. -/
theorem exists_neighbour_of_getD_eq_none {assigned : Assigned R} {order : List Nat}
    (hnodup : order.Nodup) (hsize : ∀ m ∈ order, m < assigned.size)
    (hnone : ∀ m ∈ order, assigned.getD m none = none) (hn : n ∈ order)
    (hspilled : (order.foldl (g.assign colours) assigned).getD n none = none) {r : R}
    (hr : r ∈ colours) :
    ∃ m ∈ g.neighbours n, (order.foldl (g.assign colours) assigned).getD m none = some r := by
  induction order generalizing assigned with
  | nil => cases hn
  | cons p rest ih =>
    obtain ⟨hp, hrest⟩ := nodup_cons.mp hnodup
    rw [foldl_cons] at hspilled ⊢
    rcases mem_cons.mp hn with rfl | hn
    · -- The node is served now, and nobody is served twice.
      rw [getD_foldl_assign hp] at hspilled
      rcases assign_cases g colours assigned n with ⟨s, -, -, heq⟩ | ⟨hall, heq⟩
      · have hlt := hsize n mem_cons_self
        simp [heq, Array.getD_eq_getD_getElem?, hlt] at hspilled
      · obtain ⟨m, hm, hmr⟩ := hall r hr
        -- The neighbour has its register already, so it is not served any more.
        have hlater : m ∉ rest := by
          intro hmem
          rw [hnone m (mem_cons_of_mem _ hmem)] at hmr
          cases hmr
        exact ⟨m, hm, by rw [heq, getD_foldl_assign hlater, hmr]⟩
    · have hlater : ∀ m ∈ rest, (g.assign colours assigned p).getD m none = none := by
        intro m hm
        have hne : m ∉ [p] := fun hmem => hp (mem_singleton.mp hmem ▸ hm)
        have hkeep : ([p].foldl (g.assign colours) assigned).getD m none = assigned.getD m none :=
          getD_foldl_assign hne
        exact hkeep.trans (hnone m (mem_cons_of_mem _ hm))
      refine ih hrest (fun m hm => ?_) hlater hn hspilled
      rw [size_assign]
      exact hsize m (mem_cons_of_mem _ hm)

/-! ### Registers and spills -/

theorem registers_append_spilled_perm (g : InterferenceGraph R) (colours : List R) :
    ((g.colour colours).registers.map Prod.fst ++ (g.colour colours).spilled).Perm
      ((g.removalOrder colours.length).filterMap fun n =>
        (g.location? n).bind Location.pseudo?) := by
  have hsorted := (mergeSort_perm ((((g.removalOrder colours.length).filterMap fun n =>
    ((g.location? n).bind pseudo?).map fun name =>
      (name, (WellFormed.assignedRegisters g colours).getD n none))).filterMap
        fun (name, r) => if r.isNone then some name else none) fun a b => (compare a b).isLE)
  refine ((hsorted.append_left _).trans (map_fst_append_perm _)).trans (.of_eq ?_)
  simp [map_filterMap, Function.comp_def]

namespace WellFormed

variable (h : g.WellFormed)

include h

theorem nodup_registers_append_spilled (colours : List R) :
    ((g.colour colours).registers.map Prod.fst ++ (g.colour colours).spilled).Nodup := by
  rw [(registers_append_spilled_perm g colours).nodup_iff]
  refine nodup_removalOrder.filterMap fun a b name ha hb => ?_
  obtain ⟨m, hm, hma⟩ := map_eq_some_iff.mp (bind_pseudo?_eq_some.mp ha)
  obtain ⟨m', hm', hmb⟩ := map_eq_some_iff.mp (bind_pseudo?_eq_some.mp hb)
  exact h.location_injective hm hm' (hma.trans hmb.symm)

omit h in
theorem mem_registers_append_spilled :
    name ∈ (g.colour colours).registers.map Prod.fst ++ (g.colour colours).spilled ↔
      ∃ n, g.IsActive n ∧ g.location? n = some (.pseudo name) := by
  rw [(registers_append_spilled_perm g colours).mem_iff, mem_filterMap]
  refine exists_congr fun n => ?_
  rw [mem_removalOrder_iff, bind_pseudo?_eq_some]
  exact ⟨fun hn => ⟨hn.1.1, hn.2⟩, fun hn => ⟨isPseudoNode_of_location hn.1 hn.2, hn.2⟩⟩

theorem registerOf?_location {m : InterferenceNode R} (hm : g.nodes[n]? = some m)
    (hactive : m.isMerged = false) :
    (g.colour colours).registerOf? m.location = (assignedRegisters g colours).getD n none := by
  cases hlocation : m.location with
  | reg r => exact ((h.isColouring_assigned colours).register hm hlocation).symm
  | pseudo name =>
    refine ext fun r => ⟨fun hr => ?_, fun hr => ?_⟩
    · -- An entry of the list comes from a node, and only one node has the name.
      obtain ⟨before, after, hsplit, -⟩ := lookup_eq_some_iff.mp hr
      have hmem : (name, r) ∈ (g.colour colours).registers := hsplit ▸ by simp
      obtain ⟨n', m', hm', -, hlocation', hassigned⟩ := exists_of_mem_registers hmem
      obtain rfl := h.location_injective hm' hm (hlocation'.trans hlocation.symm)
      exact hassigned
    · have hname : g.location? n = some (.pseudo name) := by simp [location?, hm, hlocation]
      have horder : n ∈ g.removalOrder colours.length :=
        mem_removalOrder_iff.mpr (isPseudoNode_of_location ⟨m, hm, hactive⟩ hname)
      have hmem : (name, r) ∈ (g.colour colours).registers :=
        mem_filterMap.mpr ⟨(name, some r), mem_filterMap.mpr ⟨n, horder, by
          rw [hname]
          exact congrArg (fun r => some (name, r)) hr⟩, rfl⟩
      -- No other entry has the name.
      obtain ⟨before, after, hsplit⟩ := append_of_mem hmem
      have hnodup := (nodup_append.mp (h.nodup_registers_append_spilled colours)).1
      refine lookup_eq_some_iff.mpr ⟨before, after, hsplit, fun x hx => ?_⟩
      rw [hsplit, map_append] at hnodup
      have hne := (nodup_append.mp hnodup).2.2 x.1 (mem_map_of_mem hx) name mem_cons_self
      simpa using hne.symm

end WellFormed

/-! ### The colouring of a graph -/

/-- What a colouring should be: every pseudo register has one of the registers or is spilled, no
neighbours share a register, and nothing is spilled without need. -/
structure IsComplete (g : InterferenceGraph R) (colours : List R) (c : Colouring R) : Prop where
  nodup : (c.registers.map Prod.fst ++ c.spilled).Nodup
  mem_iff : ∀ {name : String}, name ∈ c.registers.map Prod.fst ++ c.spilled ↔
    ∃ n, g.IsActive n ∧ g.location? n = some (.pseudo name)
  mem_colours : ∀ x ∈ c.registers, x.2 ∈ colours
  /-- Neighbours have different registers, be they pseudo registers or machine registers. -/
  apart : ∀ {a b : Nat} {l k : Location R} {r : R}, b ∈ g.neighbours a → g.location? a = some l →
    g.location? b = some k → c.registerOf? l = some r → c.registerOf? k ≠ some r
  /-- The neighbours of a pseudo register that is spilled have all registers. -/
  crowded : ∀ {n : Nat} {name : String}, g.IsActive n → g.location? n = some (.pseudo name) →
    name ∈ c.spilled → ∀ r ∈ colours, ∃ m ∈ g.neighbours n, ∃ l, g.location? m = some l ∧
      c.registerOf? l = some r
  spilled_eq_nil : g.CanBeEmptied colours.length → c.spilled = []

theorem WellFormed.colour_crowded (h : g.WellFormed) (hname : g.location? n = some (.pseudo name))
    (hspilled : name ∈ (g.colour colours).spilled) {r : R} (hr : r ∈ colours) :
    ∃ m ∈ g.neighbours n, ∃ l, g.location? m = some l ∧
      (g.colour colours).registerOf? l = some r := by
  obtain ⟨n', m', horder, hm', hlocation', hnone⟩ := exists_of_mem_spilled hspilled
  obtain ⟨m, hm, hlocation⟩ := map_eq_some_iff.mp hname
  obtain rfl := h.location_injective hm' hm (hlocation'.trans hlocation.symm)
  have hsize : ∀ a ∈ g.removalOrder colours.length, a < g.precoloured.size := fun a ha => by
    simpa [precoloured, size] using (mem_removalOrder ha).1.lt_size
  obtain ⟨b, hb, hbr⟩ := exists_neighbour_of_getD_eq_none nodup_removalOrder hsize
    (fun _ => getD_precoloured_of_mem_removalOrder) horder hnone hr
  obtain ⟨mb, hmb, hactive⟩ := h.active hb
  exact ⟨b, hb, mb.location, by simp [location?, hmb],
    (h.registerOf?_location hmb hactive).trans hbr⟩

/-- The colouring of a graph that can be built is complete.  If it fails, it is because the product
of a cost and a degree is too large, and the graph was built in many steps. -/
theorem Constructed.colour_isComplete {steps : Nat} (h : Constructed steps g) {colours : List R}
    (hnodup : colours.Nodup) :
    g.IsComplete colours (g.colour colours) ∧
      ∀ limit, OkUnless (limit < steps ^ 2) (g.colourChecked limit colours) (g.colour colours) := by
  obtain ⟨uses, htallied, hsteps⟩ := h.tallied
  have hwf := htallied.wellFormed
  have hcost : ∀ {n : Nat}, g.IsActive n → g.spillCost n ≤ steps := fun hn =>
    (htallied.spillCost_le hn.isMerged_eq).trans (by omega)
  refine ⟨⟨hwf.nodup_registers_append_spilled colours, WellFormed.mem_registers_append_spilled,
    fun x hx => ?_, fun {a b l k r} hb hl hk hr => ?_, fun _ hname hspilled r hr =>
      hwf.colour_crowded hname hspilled hr, fun hempty => hempty.noCore.spilled_colour hwf hnodup⟩,
    fun limit => colourChecked_okUnless hcost hwf (by omega) limit colours⟩
  · obtain ⟨n, m, hm, -, hlocation, hassigned⟩ := WellFormed.exists_of_mem_registers hx
    exact (hwf.isColouring_assigned colours).pseudo hm (by simp [hlocation, isPseudo,
      pseudo?]) hassigned
  · obtain ⟨m, hm, rfl⟩ := map_eq_some_iff.mp hl
    obtain ⟨m', hm', rfl⟩ := map_eq_some_iff.mp hk
    -- Neighbours are not merged, so that their locations have the registers of their nodes.
    obtain ⟨m₁, hm₁, hactive⟩ := hwf.active (hwf.symmetric hb)
    obtain ⟨m₂, hm₂, hactive'⟩ := hwf.active hb
    obtain rfl := some.inj (hm₁.symm.trans hm)
    obtain rfl := some.inj (hm₂.symm.trans hm')
    rw [hwf.registerOf?_location hm hactive] at hr
    rw [hwf.registerOf?_location hm' hactive']
    exact (hwf.isColouring_assigned colours).valid hb hr

/-- A machine register and five pseudo registers. -/
def corners : InterferenceGraph Nat :=
  let g := ((empty "int").add (.reg 0)).2
  let g := (g.add (.pseudo "a")).2
  let g := (g.add (.pseudo "b")).2
  let g := (g.add (.pseudo "c")).2
  let g := (g.add (.pseudo "d")).2
  (g.add (.pseudo "e")).2

/-- Three pseudo registers that are all connected.  A fourth is merged into a machine register, and
a fifth into a neighbour of its own. -/
def triangle : InterferenceGraph Nat :=
  let g := ((corners.addEdge 1 2).addEdge 2 3).addEdge 1 3
  let g := ((g.addEdge 4 1).addEdge 5 3).addEdge 5 2
  ((g.bumpCost 2 1).merge 4 0).merge 5 3

theorem grownBy_triangle {movable : InterferenceGraph Nat → Nat → Prop}
    (h : ∀ {g n}, IsPseudoNode g n → movable g n) : GrownBy movable 15
      [.pseudo "e", .pseudo "d", .pseudo "c", .pseudo "b", .pseudo "a", .reg 0] triangle := by
  have hempty : GrownBy movable 0 [] (.empty "int") := .empty "int"
  have hcorners := (((((hempty.add (.reg 0)).add (.pseudo "a")).add (.pseudo "b")).add
    (.pseudo "c")).add (.pseudo "d")).add (.pseudo "e")
  refine .merge (.merge (.bumpCost (.addEdge (.addEdge (.addEdge (.addEdge (.addEdge (.addEdge
    hcorners ?_ ?_) ?_ ?_) ?_ ?_) ?_ ?_) ?_ ?_) ?_ ?_) ?_) (h ?_) ?_ ?_) (h ?_) ?_ ?_ <;>
      decide +kernel

/-- With two registers one of the three is spilled, with three registers none. -/
theorem triangle_colour_isComplete :
    Constructed 15 triangle ∧ (triangle.colour [0, 1]).spilled.length = 1 ∧
      triangle.IsComplete [0, 1] (triangle.colour [0, 1]) ∧
      triangle.CanBeEmptied [0, 1, 2].length ∧
      triangle.IsComplete [0, 1, 2] (triangle.colour [0, 1, 2]) ∧
      OkUnless (10 ^ 3 < 15 ^ 2) (triangle.colourChecked (10 ^ 3) [0, 1])
        (triangle.colour [0, 1]) := by
  have hbuilt : Constructed 15 triangle := ⟨_, grownBy_triangle id⟩
  have hempty : triangle.CanBeEmptied [0, 1, 2].length :=
    canBeEmptied_of_forall_lt [1, 2, 3] (by decide +kernel) (by decide +kernel)
  exact ⟨hbuilt, by decide +kernel, (hbuilt.colour_isComplete (by decide)).1, hempty,
    (hbuilt.colour_isComplete (by decide)).1, (hbuilt.colour_isComplete (by decide)).2 (10 ^ 3)⟩

end InterferenceGraph

end ThreeAddress
