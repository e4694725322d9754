import ThreeAddress.Proofs.Control.CheckedSteps
import ThreeAddress.Proofs.Registers.Separation

/-!
# Checked interference graphs

The checks in the construction of interference graphs and in coalescing: a node is looked up by its
number, and the cost of a node is counted.  None of them fails.  The nodes that are looked up are
those that stand for locations and their neighbours, and all of them exist.  The cost of a node is
the number of uses of the locations it stands for, also after merging, so it is no larger than the
code.
-/

namespace ThreeAddress

open Checked List Array FlowGraph

/-! ### Costs -/

namespace InterferenceGraph

variable {R : Type} {g g' : InterferenceGraph R} {n a b s t : Nat}

theorem spillCost_modify (f : InterferenceNode R → InterferenceNode R) (uses : Nat)
    (hf : ∀ m, (f m).spillCost = m.spillCost + uses) (hn : n < g.size) :
    (g.modify n f).spillCost a = g.spillCost a + if n = a then uses else 0 := by
  unfold spillCost
  rw [getElem?_modify]
  split
  · rename_i heq
    subst heq
    rw [Array.getElem?_eq_getElem hn]
    exact hf _
  · rfl

theorem spillCost_modify_of_eq {f : InterferenceNode R → InterferenceNode R}
    (hf : ∀ m, (f m).spillCost = m.spillCost) : (g.modify n f).spillCost a = g.spillCost a := by
  unfold spillCost
  rw [getElem?_modify]
  split
  · cases g.nodes[a]? with
    | none => rfl
    | some m => exact hf m
  · rfl

@[simp] theorem spillCost_addEdge : (g.addEdge a b).spillCost n = g.spillCost n := by
  unfold addEdge
  split
  · rfl
  · rw [spillCost_modify_of_eq, spillCost_modify_of_eq]
    · exact fun _ => rfl
    · exact fun _ => rfl

theorem spillCost_edgesMoved : (g.edgesMoved s t).spillCost n = g.spillCost n := by
  unfold edgesMoved
  generalize (g.neighbours s).toList = ns
  have hisolated : (g.modify s fun node => { node with neighbours := ∅ }).spillCost n =
      g.spillCost n := spillCost_modify_of_eq fun _ => rfl
  rw [← hisolated]
  generalize g.modify s _ = isolated
  induction ns generalizing isolated with
  | nil => rfl
  | cons m rest ih =>
    rw [foldl_cons, ih, moveEdge, spillCost_addEdge, spillCost_modify_of_eq]
    exact fun _ => rfl

theorem spillCost_merge (ht : t < g.size) :
    (g.merge s t).spillCost n = g.spillCost n + if t = n then g.spillCost s else 0 := by
  have hmoved : t < (g.edgesMoved s t).size := (sameShape_edgesMoved g s t).size_eq ▸ ht
  have hlast : (g.merge s t).spillCost n =
      (((g.edgesMoved s t).bumpCost t ((g.edgesMoved s t).spillCost s)).modify s
        fun node => { node with isMerged := true }).spillCost n := by
    unfold spillCost merge
    rw [Array.getElem?_map, Option.map_map]
    refine congrArg (fun cost => Option.getD cost 0) (Option.map_congr fun m _ => ?_)
    simp only [Function.comp]
    split <;> rfl
  rw [hlast]
  rw [spillCost_modify_of_eq, bumpCost, spillCost_modify _ _ (fun _ => rfl) hmoved,
    spillCost_edgesMoved, spillCost_edgesMoved]
  exact fun _ => rfl

theorem size_merge (g : InterferenceGraph R) (s t : Nat) : (g.merge s t).size = g.size := by
  refine Nat.le_antisymm (Nat.not_lt.mp fun hlt => ?_) (Nat.not_lt.mp fun hlt => ?_)
  · obtain ⟨m, hm, -⟩ := exists_node_of_merge (getElem?_eq_getElem hlt)
    exact absurd (Array.getElem?_eq_some_iff.mp hm).1 (Nat.lt_irrefl _)
  · obtain ⟨m, hm, -⟩ := exists_merge_node (getElem?_eq_getElem hlt)
    exact absurd (Array.getElem?_eq_some_iff.mp hm).1 (Nat.lt_irrefl _)

theorem IsActive.isMerged_eq (h : g.IsActive n) : g.isMerged n = false := by
  obtain ⟨m, hm, hmerged⟩ := h
  simpa [isMerged, hm] using hmerged

theorem SameShape.isMerged_eq (h : SameShape g g') (n : Nat) : g'.isMerged n = g.isMerged n := by
  have hn := h n
  unfold isMerged
  cases hm : g.nodes[n]? <;> cases hm' : g'.nodes[n]? <;> simp_all [shape]

theorem isMerged_merge (hs : s < g.size) : (g.merge s t).isMerged n = (g.isMerged n || n == s) := by
  unfold isMerged
  cases hm : g.nodes[n]? with
  | some m =>
    obtain ⟨m', hm', -, hmerged, -⟩ := exists_merge_node hm
    rw [hm']
    exact hmerged
  | none =>
    have hn : g.size ≤ n := getElem?_eq_none_iff.mp hm
    have hn' : (g.merge s t).nodes.size ≤ n := (size_merge g s t).trans_le hn
    rw [Array.getElem?_eq_none hn']
    simp [show n ≠ s by omega]

theorem countP_eq_add {α : Type} {xs : List α} {p q r : α → Bool}
    (h : ∀ a ∈ xs, (p a).toNat = (q a).toNat + (r a).toNat) :
    xs.countP p = xs.countP q + xs.countP r := by
  induction xs with
  | nil => rfl
  | cons a rest ih =>
    cases hp : p a <;> cases hq : q a <;> cases hr : r a <;> simp_all <;> omega

theorem Linked.nodup_locations (h : g.Linked) :
    (g.nodes.toList.map InterferenceNode.location).Nodup := by
  refine List.pairwise_iff_getElem.mpr fun i j hi hj hlt heq => Nat.ne_of_lt hlt ?_
  simp only [length_map, length_toList] at hi hj
  refine h.location_injective (getElem?_eq_getElem hi) (getElem?_eq_getElem hj) ?_
  simpa using heq

theorem WellFormed.size_le_of_within (h : g.WellFormed) {ls : List (Location R)}
    (hwithin : g.Within (· ∈ ls)) : g.size ≤ ls.length := by
  have hsub := subperm_of_subset h.nodup_locations fun l hl => by
    obtain ⟨m, hm, rfl⟩ := mem_map.mp hl
    obtain ⟨n, hn⟩ := mem_iff_getElem?.mp hm
    exact hwithin n m (by simpa using hn)
  simpa [size] using hsub.length_le

section

variable [DecidableEq R] {uses : List (Location R)} {l : Location R}

theorem add_spec (g : InterferenceGraph R) (l : Location R) (n : Nat) :
    (g.add l).2.spillCost n = g.spillCost n ∧ (g.add l).2.isMerged n = g.isMerged n := by
  cases hid : g.idOf? l with
  | some a =>
    rw [add_of_idOf?_eq_some hid]
    exact ⟨rfl, rfl⟩
  | none =>
    rw [add_of_idOf?_eq_none hid]
    unfold spillCost isMerged
    rw [getElem?_push]
    split
    · rename_i heq
      subst heq
      simp
    · exact ⟨rfl, rfl⟩

/-- The cost of a node is the number of uses of the locations it stands for. -/
structure Tallied (g : InterferenceGraph R) (uses : List (Location R)) : Prop where
  wellFormed : g.WellFormed
  covered : ∀ l ∈ uses, ∃ n, g.idOf? l = some n
  cost : ∀ n, g.isMerged n = false →
    g.spillCost n = uses.countP fun l => g.idOf? l == some n

namespace Tallied

theorem empty (name : String) : Tallied (.empty name : InterferenceGraph R) [] where
  wellFormed := (Built.empty (P := fun _ => True) (E := fun _ _ => True) name).wellFormed
  covered := nofun
  cost := fun n _ => by simp [spillCost, InterferenceGraph.empty]

section

variable (h : Tallied g uses)

include h

theorem of_extends (hwf : g'.WellFormed) (hextends : Extends g g')
    (hkeep : ∀ n, g'.spillCost n = g.spillCost n ∧ g'.isMerged n = g.isMerged n) :
    Tallied g' uses where
  wellFormed := hwf
  covered := fun l hl => by
    obtain ⟨n, hn⟩ := h.covered l hl
    exact ⟨n, hextends.idOf? hn⟩
  cost := fun n hn => by
    rw [(hkeep n).1, h.cost n ((hkeep n).2 ▸ hn)]
    refine countP_congr fun l hl => ?_
    obtain ⟨k, hk⟩ := h.covered l hl
    rw [hk, hextends.idOf? hk]

theorem add (l : Location R) : Tallied (g.add l).2 uses :=
  h.of_extends (h.wellFormed.add l) (.add g l) (add_spec g l)

theorem addEdge (ha : g.IsActive a) (hb : g.IsActive b) : Tallied (g.addEdge a b) uses :=
  h.of_extends (h.wellFormed.addEdge ha hb) (.addEdge ha.lt_size hb.lt_size)
    fun n => ⟨spillCost_addEdge, (SameShape.addEdge a b).isMerged_eq n⟩

theorem isActive_add (l : Location R) : (g.add l).2.IsActive (g.add l).1 :=
  (h.wellFormed.add l).isActive_of_idOf? (idOf?_add g l)

theorem countUse (l : Location R) : Tallied (g.countUse l) (uses ++ [l]) where
  wellFormed := (h.add l).wellFormed.bumpCost _ _
  covered := by
    have hbump := Extends.bumpCost (g.add l).2 (g.add l).1 1
    intro k hk
    rcases mem_append.mp hk with hk | hk
    · obtain ⟨n, hn⟩ := (h.add l).covered k hk
      exact ⟨n, hbump.idOf? hn⟩
    · obtain rfl := mem_singleton.mp hk
      exact ⟨_, hbump.idOf? (idOf?_add g k)⟩
  cost := by
    intro n hn
    have hshape := sameShape_bumpCost (g := (g.add l).2) (g.add l).1 1
    rw [InterferenceGraph.countUse, hshape.isMerged_eq] at hn
    rw [InterferenceGraph.countUse, bumpCost,
      spillCost_modify _ _ (fun _ => rfl) (h.isActive_add l).lt_size, (h.add l).cost n hn]
    simp only [show ∀ k, ((g.add l).2.modify (g.add l).1 fun node =>
        { node with spillCost := node.spillCost + 1 }).idOf? k = (g.add l).2.idOf? k from
      hshape.idOf?_eq]
    simp [idOf?_add]

theorem merge (hs : g.IsActive s) (hsource : g.isPrecoloured s = false) (ht : g.IsActive t)
    (hne : s ≠ t) : Tallied (g.merge s t) uses := by
  have hpseudo := isPseudo_of_isPrecoloured_eq_false hsource
  have hid {l : Location R} {a : Nat} :=
    h.wellFormed.idOf?_merge (l := l) (a := a) hs ht hne
  refine ⟨h.wellFormed.merge hs ht hne hpseudo, fun l hl => ?_, fun n hn => ?_⟩
  · obtain ⟨n, hn⟩ := h.covered l hl
    exact ⟨_, hid hn⟩
  · rw [isMerged_merge hs.lt_size, Bool.or_eq_false_iff, beq_eq_false_iff_ne] at hn
    obtain ⟨hn, hns⟩ := hn
    rw [spillCost_merge ht.lt_size, h.cost n hn, h.cost s hs.isMerged_eq]
    by_cases htn : t = n
    · subst htn
      rw [if_pos rfl]
      refine (countP_eq_add fun l hl => ?_).symm
      obtain ⟨a, ha⟩ := h.covered l hl
      rw [hid ha, ha]
      by_cases has : a = s
      · simp [has, hne]
      · simp [has]
    · rw [if_neg htn]
      refine countP_congr fun l hl => ?_
      obtain ⟨a, ha⟩ := h.covered l hl
      rw [hid ha, ha]
      by_cases has : a = s
      · simp [has, htn, Ne.symm hns]
      · simp [has]

theorem spillCost_le (hn : g.isMerged n = false) : g.spillCost n ≤ uses.length := by
  rw [h.cost n hn]
  exact countP_le_length

theorem spillCost_add_le (hs : g.isMerged s = false) (ht : g.isMerged t = false) (hne : s ≠ t) :
    g.spillCost t + g.spillCost s ≤ uses.length := by
  have hboth : (uses.countP fun l => g.idOf? l == some t || g.idOf? l == some s) =
      g.spillCost t + g.spillCost s := by
    rw [h.cost t ht, h.cost s hs]
    refine countP_eq_add fun l _ => ?_
    cases g.idOf? l with
    | none => rfl
    | some a =>
      by_cases hat : a = t
      · simp [hat, Ne.symm hne]
      · simp [beq_eq_false_iff_ne.mpr hat]
  rw [← hboth]
  exact countP_le_length

end

end Tallied

/-! ### Checked operations -/

variable {limit : Nat}

def countUseChecked (limit : Nat) (g : InterferenceGraph R) (l : Location R) :
    Checked (InterferenceGraph R) := do
  ensure .outOfRange ((g.add l).1 < (g.add l).2.size)
  ensure .overflow ((g.add l).2.spillCost (g.add l).1 + 1 ≤ limit)
  return g.countUse l

def connectChecked (w : Nat) (g : InterferenceGraph R) (l : Location R) :
    Checked (InterferenceGraph R) := do
  ensure .outOfRange (w < (g.add l).2.size)
  ensure .outOfRange ((g.add l).1 < (g.add l).2.size)
  return g.connect w l

def connectAllChecked (others : Location R → List (Location R)) (g : InterferenceGraph R)
    (l : Location R) : Checked (InterferenceGraph R) :=
  (others l).foldlM (connectChecked (g.add l).1) (g.add l).2

def mergeChecked (limit : Nat) (g : InterferenceGraph R) (source into : Nat) :
    Checked (InterferenceGraph R) := do
  ensure .outOfRange (source < g.size)
  (g.neighbours source).toList.forM fun n => ensure .outOfRange (n < g.size)
  ensure .outOfRange (into < g.size)
  ensure .overflow (g.spillCost into + g.spillCost source ≤ limit)
  return g.merge source into

/-- Merges two nodes connected by a copy, if that is safe.  The tests look at the neighbours of the
nodes. -/
def coalesceNodesChecked (limit : Nat) (g : InterferenceGraph R) (k dst src : Nat) :
    Checked (InterferenceGraph R) := do
  ensure .outOfRange (dst < g.size)
  ensure .outOfRange (src < g.size)
  if dst = src || g.interferes dst src then return g
  else
    (g.neighbours dst ∪ g.neighbours src).toList.forM fun n => ensure .outOfRange (n < g.size)
    match g.isPrecoloured dst, g.isPrecoloured src with
    | true, true => return g
    | true, false => if g.george k src dst then g.mergeChecked limit src dst else return g
    | false, true => if g.george k dst src then g.mergeChecked limit dst src else return g
    | false, false => if g.briggs k dst src then g.mergeChecked limit src dst else return g

/-- Merges the two sides of a copy, if both are in the graph and that is safe. -/
def coalesceMoveChecked (limit : Nat) (g : InterferenceGraph R) (k : Nat) (dst src : Location R) :
    Checked (InterferenceGraph R) :=
  match g.idOf? dst, g.idOf? src with
  | some a, some b => g.coalesceNodesChecked limit k a b
  | _, _ => .ok g

def renamesChecked (g : InterferenceGraph R) : Checked (Renaming R) := do
  g.nodes.toList.forM fun n => ensure .outOfRange (∀ r ∈ g.idOf? n.location, r < g.size)
  return g.renames

namespace Tallied

section

variable (h : Tallied g uses)

include h

theorem countUseChecked_eq (l : Location R) (hlimit : uses.length + 1 ≤ limit) :
    g.countUseChecked limit l = .ok (g.countUse l) := by
  have hactive := h.isActive_add l
  have hcost := (h.add l).spillCost_le hactive.isMerged_eq
  rw [countUseChecked, ensure_bind hactive.lt_size, ensure_bind (by omega)]
  rfl

theorem connectChecked_eq {w : Nat} {l₀ : Location R} (hw : g.idOf? l₀ = some w) (l : Location R) :
    g.connectChecked w l = .ok (g.connect w l) ∧ Tallied (g.connect w l) uses ∧
      (g.connect w l).idOf? l₀ = some w := by
  have hn := h.isActive_add l
  have hwid := (Extends.add g l).idOf? hw
  have hwactive := (h.add l).wellFormed.isActive_of_idOf? hwid
  rw [connectChecked, ensure_bind hwactive.lt_size, ensure_bind hn.lt_size]
  exact ⟨rfl, (h.add l).addEdge hwactive hn,
    (Extends.addEdge hwactive.lt_size hn.lt_size).idOf? hwid⟩

theorem connectAllChecked_eq (others : Location R → List (Location R)) (l : Location R) :
    g.connectAllChecked others l = .ok (g.connectAll others l) ∧
      Tallied (g.connectAll others l) uses := by
  obtain ⟨hok, htallied, -⟩ := foldlM_eq_ok_of_invariant
    (fun g' => Tallied g' uses ∧ g'.idOf? l = some (g.add l).1)
    (fun k _ g' hg' => hg'.1.connectChecked_eq hg'.2 k)
    ⟨h.add l, idOf?_add g l⟩
  exact ⟨hok, htallied⟩

theorem mergeChecked_eq (hlimit : uses.length ≤ limit) (hs : g.IsActive s) (ht : g.IsActive t)
    (hne : s ≠ t) : g.mergeChecked limit s t = .ok (g.merge s t) := by
  have hneighbours : ∀ n ∈ (g.neighbours s).toList, n < g.size := fun n hn =>
    (h.wellFormed.active (Std.ExtTreeSet.mem_toList.mp hn)).lt_size
  have hcost := h.spillCost_add_le hs.isMerged_eq ht.isMerged_eq hne
  rw [mergeChecked, ensure_bind hs.lt_size, forM_eq_ok fun n hn => ensure_eq (hneighbours n hn) _,
    ensure_bind ht.lt_size, ensure_bind (by omega)]
  rfl

theorem coalesceNodesChecked_eq (hlimit : uses.length ≤ limit) (k : Nat) (ha : g.IsActive a)
    (hb : g.IsActive b) : g.coalesceNodesChecked limit k a b = .ok (g.coalesceNodes k a b) := by
  have hneighbours : ∀ n ∈ (g.neighbours a ∪ g.neighbours b).toList, n < g.size := by
    intro n hn
    rw [Std.ExtTreeSet.mem_toList, Std.ExtTreeSet.mem_union_iff] at hn
    exact hn.elim (fun hn => (h.wellFormed.active hn).lt_size)
      fun hn => (h.wellFormed.active hn).lt_size
  rw [coalesceNodesChecked, ensure_bind ha.lt_size, ensure_bind hb.lt_size, coalesceNodes]
  split
  · rfl
  · rename_i hapart
    have hne : a ≠ b := fun heq => hapart (by simp [heq])
    rw [forM_eq_ok fun n hn => ensure_eq (hneighbours n hn) _]
    cases g.isPrecoloured a <;> cases g.isPrecoloured b <;> dsimp only
    · split
      · exact h.mergeChecked_eq hlimit hb ha hne.symm
      · rfl
    · split
      · exact h.mergeChecked_eq hlimit ha hb hne
      · rfl
    · split
      · exact h.mergeChecked_eq hlimit hb ha hne.symm
      · rfl
    · rfl

theorem coalesceMove (k : Nat) (dst src : Location R) :
    Tallied (g.coalesceMove k dst src) uses := by
  rcases h.wellFormed.coalesceMove_cases k dst src with heq | ⟨s, t, hmerge, heq⟩
  · rwa [heq]
  · rw [heq]
    exact h.merge hmerge.source hmerge.pseudo hmerge.target hmerge.ne

theorem coalesceMoveChecked_eq (hlimit : uses.length ≤ limit) (k : Nat) (dst src : Location R) :
    g.coalesceMoveChecked limit k dst src = .ok (g.coalesceMove k dst src) := by
  unfold coalesceMoveChecked InterferenceGraph.coalesceMove
  cases ha : g.idOf? dst with
  | none => rfl
  | some a =>
    cases hb : g.idOf? src with
    | none => rfl
    | some b =>
      exact h.coalesceNodesChecked_eq hlimit k (h.wellFormed.isActive_of_idOf? ha)
        (h.wellFormed.isActive_of_idOf? hb)

theorem renamesChecked_eq : g.renamesChecked = .ok g.renames := by
  have hnodes : ∀ n ∈ g.nodes.toList,
      ensure .outOfRange (∀ r ∈ g.idOf? n.location, r < g.size) = .ok () := fun n _ =>
    ensure_eq (fun r hr => (h.wellFormed.isActive_of_idOf? hr).lt_size) _
  rw [renamesChecked, forM_eq_ok hnodes]
  rfl

end

end Tallied

theorem size_coalesceMove_eq (h : g.WellFormed) (k : Nat) (dst src : Location R) :
    (g.coalesceMove k dst src).size = g.size := by
  rcases h.coalesceMove_cases k dst src with heq | ⟨s, t, -, heq⟩
  · rw [heq]
  · rw [heq, size_merge]

end

end InterferenceGraph

/-! ### The graphs of a function -/

def modifyFirstChecked {C G : Type} [DecidableEq C] (c : C) (f : G → Checked G) :
    List (C × G) → Checked (List (C × G))
  | [] => .ok []
  | (d, g) :: rest => do
    if d = c then return (d, ← f g) :: rest else return (d, g) :: (← modifyFirstChecked c f rest)

theorem modifyFirstChecked_eq {C G : Type} [DecidableEq C] {c : C} {f : G → Checked G} {f' : G → G}
    {graphs : List (C × G)} (h : ∀ x ∈ graphs, x.1 = c → f x.2 = .ok (f' x.2)) :
    modifyFirstChecked c f graphs = .ok (modifyFirst c f' graphs) := by
  induction graphs with
  | nil => rfl
  | cons x rest ih =>
    obtain ⟨hx, hrest⟩ := forall_mem_cons.mp h
    rw [modifyFirstChecked, modifyFirst]
    split
    · rename_i heq
      rw [hx heq]
      rfl
    · rw [ih hrest]
      rfl

namespace AllocationProblem

open InterferenceGraph

variable {R C L : Type} [Ord R] [Std.TransOrd R] [Std.LawfulEqOrd R] [DecidableEq R]
  [DecidableEq C] [DecidableEq L] (p : AllocationProblem R C L) {c : C} {limit : Nat}
variable {graphs : List (C × InterferenceGraph R)}

/-- The locations of a class that an instruction uses, as often as it uses them. -/
def usesOf (c : C) (a : Access R L) : List (Location R) :=
  a.reads.filter (fun l => p.classOf l == some c) ++ a.writes.filter fun l => p.classOf l == some c

/-- The locations of a class that the code uses, as often as it uses them. -/
def usesIn (c : C) : List (Location R) := p.code.flatMap (p.usesOf c)

/-- The size of a problem: its instructions, the locations they use, and the registers. -/
def weight : Nat :=
  p.code.length + (p.code.flatMap fun a => a.reads ++ a.writes).length + p.exitLive.length +
    (p.classes.flatMap p.colours).length + 1

/-- Liveness around every instruction of a block with a number. -/
def liveAroundChecked (analysis : BackwardAnalysis (Location R)) (starts : Array (LocationSet R))
    (x : List (Access R L) × Nat) : Checked (List (Live R)) := do
  let live ← analysis.atEndChecked starts x.2
  return (p.liveThrough x.1 live).1

def livenessChecked (limit : Nat) : Checked (List (Live R)) := do
  let graph ← FlowGraph.ofBlocksChecked (p.blocks.map (·.map Access.flow))
  let analysis := { p.livenessAnalysis with graph := graph }
  ensure .outOfRange (graph.size ≤ p.blocks.length)
  let starts ← analysis.solveChecked limit
  let live ← p.blocks.zipIdx.mapM (p.liveAroundChecked analysis starts)
  return live.flatten

def interfereChecked (limit : Nat) (c : C) (g : InterferenceGraph R) (a : Access R L)
    (after : LocationSet R) : Checked (InterferenceGraph R) := do
  let inClass := fun l => p.classOf l == some c
  let live := after.toList.filter inClass
  let source? := a.move?.map Prod.snd
  let used ← (p.usesOf c a).foldlM (countUseChecked limit) g
  (a.writes.filter inClass).foldlM
    (connectAllChecked fun written => live.filter fun l => l ≠ written ∧ some l ≠ source?) used

/-- The interference graph of a class.  The liveness of every instruction is looked up. -/
def interferenceChecked (limit : Nat) (live : List (Live R)) (c : C) :
    Checked (InterferenceGraph R) := do
  let registers := (p.colours c).foldl (fun g r => (g.add (.reg r)).2) (.empty (p.className c))
  ensure .outOfRange (p.code.length ≤ live.length)
  (p.code.zip live).foldlM (fun g (a, l) => p.interfereChecked limit c g a l.after) registers

def graphsChecked (limit : Nat) : Checked (List (C × InterferenceGraph R)) := do
  let live ← p.livenessChecked limit
  p.classes.mapM fun c => return (c, ← p.interferenceChecked limit live c)

/-- Merges along one copy, if both of its sides have the same class. -/
def coalesceOneChecked (limit : Nat) (graphs : List (C × InterferenceGraph R)) (a : Access R L) :
    Checked (List (C × InterferenceGraph R)) :=
  match a.move? with
  | none => .ok graphs
  | some (dst, src) =>
    match p.classOf dst, p.classOf src with
    | some c, some d =>
      if c = d then
        modifyFirstChecked c (·.coalesceMoveChecked limit (p.colours c).length dst src) graphs
      else .ok graphs
    | _, _ => .ok graphs

def coalesceChecked (limit : Nat) (graphs : List (C × InterferenceGraph R)) :
    Checked (List (C × InterferenceGraph R)) :=
  p.code.foldlM (p.coalesceOneChecked limit) graphs

variable {p}

section

omit [Ord R] [Std.TransOrd R] [Std.LawfulEqOrd R] [DecidableEq L]

omit [DecidableEq R] [DecidableEq C] in
theorem length_blocks_le : p.blocks.length ≤ p.code.length := by
  have hone : ∀ n ∈ p.blocks.map length, 1 ≤ n := by
    intro n hn
    obtain ⟨block, hblock, rfl⟩ := mem_map.mp hn
    exact length_pos_iff.mpr (ne_nil_of_mem_splitBy hblock)
  have hsum := length_le_sum_of_one_le _ hone
  rwa [length_map, ← length_flatten, blocks, flatten_blocksOf] at hsum

omit [DecidableEq R] in
theorem usesIn_eq (c : C) : p.usesIn c =
    (p.code.flatMap fun a => a.reads ++ a.writes).filter fun l => p.classOf l == some c := by
  rw [usesIn, List.filter_flatMap]
  exact congrArg p.code.flatMap (funext fun a => (List.filter_append ..).symm)

omit [DecidableEq R] in
theorem length_usesIn_le (c : C) : (p.usesIn c).length ≤ p.weight := by
  have huses := length_filter_le (fun l => p.classOf l == some c)
    (p.code.flatMap fun a => a.reads ++ a.writes)
  rw [usesIn_eq, weight]
  omega

theorem sum_length_filter_le {α : Type} (class? : α → Option C) {classes : List C}
    (hnodup : classes.Nodup) (xs : List α) :
    (classes.map fun c => (xs.filter fun x => class? x == some c).length).sum ≤ xs.length := by
  induction classes generalizing xs with
  | nil => exact Nat.zero_le _
  | cons c rest ih =>
    obtain ⟨hc, hrest⟩ := nodup_cons.mp hnodup
    -- The elements of the other classes are among those that are not of the first.
    have hothers : ∀ d ∈ rest, (xs.filter fun x => class? x == some d) =
        (xs.filter fun x => !(class? x == some c)).filter fun x => class? x == some d := by
      intro d hd
      rw [List.filter_filter]
      refine filter_congr fun x _ => ?_
      cases hx : class? x == some d with
      | false => rfl
      | true =>
        have hne : d ≠ c := fun heq => hc (heq ▸ hd)
        simp [eq_of_beq hx, hne]
    have hlength := length_eq_length_filter_add (l := xs) fun x => class? x == some c
    have hsum := ih hrest (xs.filter fun x => !(class? x == some c))
    rw [map_cons, sum_cons, map_congr_left fun d hd =>
      congrArg length (hothers d hd)]
    omega

/-- A graph of a class whose costs are numbers of uses, and whose nodes are nodes of registers or of
locations that are used. -/
structure Weighed (p : AllocationProblem R C L) (c : C) (g : InterferenceGraph R) : Prop where
  mem_classes : c ∈ p.classes
  tallied : g.Tallied (p.usesIn c)
  size_le : g.size ≤ (p.colours c).length + (p.usesIn c).length

theorem Weighed.size_le_weight {g : InterferenceGraph R} (h : p.Weighed c g) :
    g.size ≤ p.weight := by
  have hsize := h.size_le
  have hcolours : (p.colours c).length ≤ (p.classes.flatMap p.colours).length :=
    (sublist_flatten_of_mem (mem_map_of_mem h.mem_classes)).length_le
  have huses := length_filter_le (fun l => p.classOf l == some c)
    (p.code.flatMap fun a => a.reads ++ a.writes)
  rw [← usesIn_eq] at huses
  unfold weight
  omega

theorem sum_size_le (hnodup : p.classes.Nodup) (hclasses : graphs.map Prod.fst = p.classes)
    (hgraphs : ∀ x ∈ graphs, p.Weighed x.1 x.2) :
    (graphs.map fun x => x.2.size).sum ≤ p.weight := by
  have hsizes : (graphs.map fun x => x.2.size).sum ≤
      (graphs.map fun x => (p.colours x.1).length + (p.usesIn x.1).length).sum :=
    sum_le_sum fun x hx => (hgraphs x hx).size_le
  have hbounds : (graphs.map fun x => (p.colours x.1).length + (p.usesIn x.1).length) =
      p.classes.map fun c => (p.colours c).length + (p.usesIn c).length := by
    rw [← hclasses, List.map_map]
    rfl
  have hcolours : (p.classes.map fun c => (p.colours c).length).sum =
      (p.classes.flatMap p.colours).length := length_flatMap.symm
  have huses := sum_length_filter_le p.classOf hnodup (p.code.flatMap fun a => a.reads ++ a.writes)
  simp only [← usesIn_eq] at huses
  rw [hbounds, sum_map_add, hcolours] at hsizes
  unfold weight
  omega

end

section

omit [DecidableEq R] [DecidableEq C]

omit [Std.LawfulEqOrd R] in
theorem size_graph_livenessAnalysis (p : AllocationProblem R C L) :
    p.livenessAnalysis.graph.size = p.blocks.length :=
  (size_ofBlocks _).trans (length_map _)

omit [Std.LawfulEqOrd R] in
theorem rounds_le (p : AllocationProblem R C L) :
    p.livenessAnalysis.graph.size * p.livenessAnalysis.factBound + 1 ≤ p.weight ^ 2 := by
  have hblocks : p.livenessAnalysis.graph.size + 1 ≤ p.weight := by
    have := p.length_blocks_le
    rw [size_graph_livenessAnalysis, weight]
    omega
  have hfacts : p.livenessAnalysis.factBound ≤ p.weight := by
    have hreads : (p.code.flatMap Access.reads).length ≤
        (p.code.flatMap fun a => a.reads ++ a.writes).length := by
      induction p.code with
      | nil => exact Nat.le_refl _
      | cons a rest ih =>
        simp only [flatMap_cons, length_append] at ih ⊢
        omega
    show (p.code.flatMap Access.reads).length + p.exitLive.length ≤ _
    unfold weight
    omega
  calc p.livenessAnalysis.graph.size * p.livenessAnalysis.factBound + 1
      ≤ p.livenessAnalysis.graph.size * p.weight + p.weight :=
        Nat.add_le_add (Nat.mul_le_mul_left _ hfacts) (Nat.le_trans (Nat.le_add_left 1 _) hblocks)
    _ = (p.livenessAnalysis.graph.size + 1) * p.weight := (Nat.succ_mul _ _).symm
    _ ≤ p.weight * p.weight := Nat.mul_le_mul_right _ hblocks
    _ = p.weight ^ 2 := (Nat.pow_two _).symm

theorem livenessChecked_eq (hlimit : p.weight ^ 2 ≤ limit) :
    p.livenessChecked limit = .ok p.liveness := by
  let flows := p.blocks.map (·.map Access.flow)
  have hgraph : p.livenessAnalysis.graph = ofBlocks flows := rfl
  have hflows : ∀ block ∈ flows, block ≠ [] := by
    intro block hblock
    obtain ⟨block', hblock', rfl⟩ := mem_map.mp hblock
    exact fun hnil => ne_nil_of_mem_splitBy hblock' (map_eq_nil_iff.mp hnil)
  have hsize := p.size_graph_livenessAnalysis
  have hedges : ∀ e ∈ p.livenessAnalysis.graph.edges, IsEdge p.livenessAnalysis.graph.size e := by
    intro e he
    rw [hgraph, size_ofBlocks]
    exact isEdge_of_mem_ofBlocks he
  obtain ⟨hsolve, hstarts⟩ := BackwardAnalysis.solveChecked_eq hedges (p.rounds_le.trans hlimit)
  have hblock : ∀ x ∈ p.blocks.zipIdx,
      p.liveAroundChecked p.livenessAnalysis p.livenessAnalysis.solve x =
        .ok (p.liveThrough x.1 (p.livenessAnalysis.atEnd p.livenessAnalysis.solve x.2)).1 := by
    intro x hx
    have hn : x.2 < p.livenessAnalysis.graph.size := hsize ▸ (mem_zipIdx' hx).1
    rw [liveAroundChecked, BackwardAnalysis.atEndChecked_eq hedges hstarts hn]
    rfl
  rw [livenessChecked, ofBlocksChecked_eq hflows, ok_bind]
  show (ensure .outOfRange (p.livenessAnalysis.graph.size ≤ p.blocks.length) >>= fun _ =>
    p.livenessAnalysis.solveChecked limit >>= fun starts =>
      p.blocks.zipIdx.mapM (p.liveAroundChecked p.livenessAnalysis starts) >>= fun live =>
        .ok live.flatten) = _
  rw [ensure_bind hsize.le, hsolve, ok_bind, mapM_eq_ok hblock]
  rfl

end

omit [Std.LawfulEqOrd R] [DecidableEq L] in
theorem interfereChecked_eq {g : InterferenceGraph R} {uses : List (Location R)}
    (h : g.Tallied uses) (a : Access R L) (after : LocationSet R)
    (hlimit : (uses ++ p.usesOf c a).length ≤ limit) :
    p.interfereChecked limit c g a after = .ok (p.interfere c g a after) ∧
      (p.interfere c g a after).Tallied (uses ++ p.usesOf c a) := by
  have hstep : ∀ passed l g, passed ++ [l] <+: p.usesOf c a → Tallied g (uses ++ passed) →
      g.countUseChecked limit l = .ok (g.countUse l) ∧
        Tallied (g.countUse l) (uses ++ (passed ++ [l])) := by
    intro passed l g hinitial hg
    have hlength := hinitial.length_le
    simp only [length_append, length_singleton] at hlength hlimit
    rw [← List.append_assoc]
    exact ⟨hg.countUseChecked_eq l (by simp only [length_append]; omega), hg.countUse l⟩
  obtain ⟨hused, htallied⟩ := foldlM_eq_ok (fun passed g => Tallied g (uses ++ passed)) hstep
    (by rwa [append_nil])
  rw [interfereChecked, hused, ok_bind, interfere_eq]
  exact foldlM_eq_ok_of_invariant (Tallied · (uses ++ p.usesOf c a))
    (fun written _ g hg => hg.connectAllChecked_eq _ written) htallied

/-- The registers that are handed out are those that have a class, and no class is listed twice. -/
structure HandsOut (p : AllocationProblem R C L) : Prop where
  nodup : p.classes.Nodup
  classOf_reg : ∀ c ∈ p.classes, ∀ r, p.classOf (.reg r) = some c ↔ r ∈ p.colours c

omit [Std.LawfulEqOrd R] [DecidableEq L] in
theorem interferenceChecked_tallied {live : List (Live R)} (hlive : p.code.length ≤ live.length)
    (hlimit : p.weight ≤ limit) (c : C) :
    p.interferenceChecked limit live c = .ok (p.interference live c) ∧
      (p.interference live c).Tallied (p.usesIn c) := by
  let registers : InterferenceGraph R :=
    (p.colours c).foldl (fun g r => (g.add (.reg r)).2) (.empty (p.className c))
  have hregisters : registers.Tallied [] :=
    foldlRecOn (motive := (Tallied · [])) (p.colours c) _ (Tallied.empty _)
      fun _ hg _ _ => hg.add _
  have hcode : (p.code.zip live).flatMap (fun x => p.usesOf c x.1) = p.usesIn c := by
    rw [usesIn, ← flatMap_map Prod.fst (p.usesOf c), map_fst_zip hlive]
  have huses := p.length_usesIn_le c
  rw [interferenceChecked, ensure_bind hlive, ← hcode]
  refine foldlM_eq_ok (fun (passed : List (Access R L × Live R)) g =>
      Tallied g (passed.flatMap fun x => p.usesOf c x.1))
    (fun passed x g hinitial hg => ?_) hregisters
  obtain ⟨rest, hrest⟩ := hinitial
  rw [← hcode, ← hrest, List.flatMap_append, length_append] at huses
  rw [List.flatMap_append, List.flatMap_singleton] at huses ⊢
  exact interfereChecked_eq hg x.1 x.2.after (by omega)

/-- No check fails when the graphs of a function are built. -/
theorem graphsChecked_eq (hp : p.HandsOut) (hlimit : p.weight ^ 2 ≤ limit) :
    p.graphsChecked limit = .ok p.graphs ∧ ∀ x ∈ p.graphs, p.Weighed x.1 x.2 := by
  have hweight : p.weight ≤ limit := (Nat.le_self_pow two_ne_zero _).trans hlimit
  have hlength : p.code.length ≤ p.liveness.length := by rw [length_liveness]
  have hgraph (c : C) := interferenceChecked_tallied hlength hweight c
  constructor
  · rw [graphsChecked, livenessChecked_eq hlimit]
    refine mapM_eq_ok fun c _ => ?_
    rw [(hgraph c).1]
    rfl
  · intro x hx
    obtain ⟨c, hc, rfl⟩ := mem_map.mp hx
    refine ⟨hc, (hgraph c).2, ?_⟩
    obtain ⟨hbuilt, -⟩ := interference_spec fun r hr => (hp.classOf_reg c hc r).mpr hr
    have hwithin : (p.interference p.liveness c).Within
        (· ∈ (p.colours c).map .reg ++ p.usesIn c) := by
      intro n m hm
      obtain ⟨hclass, hoccurs⟩ := hbuilt.within n m hm
      cases hl : m.location with
      | reg r =>
        rw [hl] at hclass
        exact mem_append_left _ (mem_map.mpr ⟨r, (hp.classOf_reg c hc r).mp hclass, rfl⟩)
      | pseudo x =>
        rw [hl] at hoccurs
        obtain hreg | ⟨a, ha, hnames⟩ := hoccurs
        · cases hreg
        · refine mem_append_right _ (mem_flatMap.mpr ⟨a, ha, ?_⟩)
          rw [usesOf, ← List.filter_append, List.mem_filter, List.mem_append]
          exact ⟨hnames, by simpa [hl] using hclass⟩
    have hsize := hbuilt.wellFormed.size_le_of_within hwithin
    rwa [length_append, length_map] at hsize

omit [Ord R] [Std.TransOrd R] [Std.LawfulEqOrd R] [DecidableEq L] in
/-- No check fails when nodes are merged along the copies of a function. -/
theorem coalesceChecked_eq (hlimit : p.weight ≤ limit) (h : ∀ x ∈ graphs, p.Weighed x.1 x.2) :
    p.coalesceChecked limit graphs = .ok (p.coalesce graphs) ∧
      ∀ x ∈ p.coalesce graphs, p.Weighed x.1 x.2 := by
  refine foldlM_eq_ok_of_invariant
    (fun graphs : List (C × InterferenceGraph R) => ∀ x ∈ graphs, p.Weighed x.1 x.2)
    (fun a _ graphs hgraphs => ?_) h
  have hone (c : C) (dst src : Location R) :
      modifyFirstChecked c (·.coalesceMoveChecked limit (p.colours c).length dst src) graphs =
          .ok (modifyFirst c (·.coalesceMove (p.colours c).length dst src) graphs) ∧
        ∀ x ∈ modifyFirst c (·.coalesceMove (p.colours c).length dst src) graphs,
          p.Weighed x.1 x.2 := by
    refine ⟨modifyFirstChecked_eq fun x hx _ => ?_, forall_mem_modifyFirst (fun g hg => ?_) hgraphs⟩
    · exact (hgraphs x hx).tallied.coalesceMoveChecked_eq
        ((p.length_usesIn_le x.1).trans hlimit) _ dst src
    · exact ⟨hg.mem_classes, hg.tallied.coalesceMove _ dst src,
        (size_coalesceMove_eq hg.tallied.wellFormed _ dst src).trans_le hg.size_le⟩
  unfold coalesceOneChecked coalesceOne
  cases a.move? with
  | none => exact ⟨rfl, hgraphs⟩
  | some move =>
    obtain ⟨dst, src⟩ := move
    dsimp only
    cases p.classOf dst with
    | none => exact ⟨rfl, hgraphs⟩
    | some c =>
      cases p.classOf src with
      | none => exact ⟨rfl, hgraphs⟩
      | some d =>
        dsimp only
        split
        · exact hone c dst src
        · exact ⟨rfl, hgraphs⟩

end AllocationProblem

end ThreeAddress
