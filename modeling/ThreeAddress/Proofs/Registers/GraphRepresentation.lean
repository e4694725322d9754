import ThreeAddress.Proofs.Registers.CompleteColouring

/-!
# The representation of interference graphs

A graph stores every edge at both of its ends and every location beside the node that stands for it.
Whatever is added, counted and merged, and in whatever order, the two ends of an edge agree, no edge
leads to a node that was merged away, and every location leads to a node that takes part.  A merge
moves edges and costs from one node to the other and changes nothing else.
-/

namespace ThreeAddress.InterferenceGraph

open List

variable {R : Type} {g : InterferenceGraph R} {a b n s t : Nat}

/-! ### Edges -/

theorem mem_liveNodes : n ∈ g.liveNodes ↔ g.IsActive n := by
  rw [liveNodes, mem_filter, mem_range, isMerged, IsActive]
  constructor
  · rintro ⟨hlt, hmerged⟩
    rw [Array.getElem?_eq_getElem (show n < g.nodes.size from hlt)] at hmerged ⊢
    exact ⟨_, rfl, by simpa using hmerged⟩
  · rintro ⟨m, hm, hmerged⟩
    exact ⟨(Array.getElem?_eq_some_iff.mp hm).1, by simp [hm, hmerged]⟩

theorem nodup_liveNodes (g : InterferenceGraph R) : g.liveNodes.Nodup := nodup_range.filter _

theorem interferes_iff : g.interferes a b = true ↔ b ∈ g.neighbours a :=
  Std.ExtTreeSet.contains_iff_mem

theorem nodup_edges (g : InterferenceGraph R) : g.edges.Nodup := by
  refine nodup_flatMap.mpr ⟨fun a _ => ?_, (nodup_liveNodes g).imp fun hne => ?_⟩
  · have hdistinct : (g.neighbours a).toList.Nodup :=
      Std.ExtTreeSet.distinct_toList.imp fun h heq => h (Std.LawfulEqOrd.compare_eq_iff_eq.mpr heq)
    exact (hdistinct.filter _).map fun b c heq => congrArg Prod.snd heq
  · -- The first ends of the edges differ.
    intro e he he'
    obtain ⟨b, -, rfl⟩ := mem_map.mp he
    obtain ⟨c, -, heq⟩ := mem_map.mp he'
    exact hne (congrArg Prod.fst heq).symm

namespace Linked

variable (h : g.Linked)

include h

theorem isActive_of_mem (hb : b ∈ g.neighbours a) : g.IsActive a ∧ g.IsActive b :=
  ⟨h.active (h.symmetric hb), h.active hb⟩

theorem mem_edges_iff : (a, b) ∈ g.edges ↔ a < b ∧ b ∈ g.neighbours a := by
  simp only [edges, mem_flatMap, mem_map, mem_filter, Std.ExtTreeSet.mem_toList,
    decide_eq_true_eq, Prod.mk.injEq, mem_liveNodes]
  constructor
  · rintro ⟨_, -, _, ⟨hb, hlt⟩, rfl, rfl⟩
    exact ⟨hlt, hb⟩
  · rintro ⟨hlt, hb⟩
    exact ⟨a, (h.isActive_of_mem hb).1, b, ⟨hb, hlt⟩, rfl, rfl⟩

/-- An edge is listed once, from its lower end. -/
theorem count_edges (a b : Nat) :
    g.edges.count (a, b) + g.edges.count (b, a) = if g.interferes a b then 1 else 0 := by
  have hsymmetric : a ∈ g.neighbours b ↔ b ∈ g.neighbours a := ⟨h.symmetric, h.symmetric⟩
  simp only [(nodup_edges g).count, h.mem_edges_iff, hsymmetric]
  by_cases hb : b ∈ g.neighbours a
  · have hne : a ≠ b := fun heq => h.irreflexive (heq ▸ hb)
    rw [if_pos (interferes_iff.mpr hb)]
    rcases Nat.lt_or_gt_of_ne hne with hlt | hlt
    · simp [hb, hlt, Nat.not_lt_of_gt hlt]
    · simp [hb, hlt, Nat.not_lt_of_gt hlt]
  · rw [if_neg fun hinterferes => hb (interferes_iff.mp hinterferes)]
    simp [hb]

end Linked

/-! ### Costs -/

def totalCost (g : InterferenceGraph R) : Nat := (g.liveNodes.map g.spillCost).sum

theorem liveNodes_merge (hs : g.IsActive s) : (g.merge s t).liveNodes = g.liveNodes.erase s := by
  rw [(nodup_liveNodes g).erase_eq_filter, liveNodes, size_merge, liveNodes, filter_filter]
  refine filter_congr fun n _ => ?_
  rw [isMerged_merge hs.lt_size, Bool.not_or, Bool.and_comm]
  rfl

theorem totalCost_merge (hs : g.IsActive s) (ht : g.IsActive t) (hst : s ≠ t) :
    (g.merge s t).totalCost = g.totalCost := by
  have ht' : t ∈ g.liveNodes.erase s :=
    (mem_erase_of_ne hst.symm).mpr (mem_liveNodes.mpr ht)
  have hcost := fun n => spillCost_merge (s := s) (n := n) ht.lt_size
  have hnodup := (nodup_liveNodes g).erase s
  -- All other nodes have the cost they had.
  have hothers : ((g.liveNodes.erase s).erase t).map (g.merge s t).spillCost =
      ((g.liveNodes.erase s).erase t).map g.spillCost := by
    refine map_congr_left fun n hn => ?_
    rw [hcost, if_neg fun heq => (hnodup.mem_erase_iff.mp hn).1 heq.symm, Nat.add_zero]
  rw [totalCost, liveNodes_merge hs, ← sum_map_erase _ ht', hothers, hcost, if_pos rfl,
    totalCost, ← sum_map_erase _ (mem_liveNodes.mpr hs), ← sum_map_erase _ ht']
  omega

/-! ### What a merge does -/

variable [DecidableEq R]

/-- What a merge changes, and what it leaves alone. -/
structure Merges (g : InterferenceGraph R) (s t : Nat) : Prop where
  /-- The node that is left has the neighbours of both. -/
  into : ∀ c, (g.merge s t).interferes t c = true ↔
    (g.interferes t c = true ∨ g.interferes s c = true) ∧ c ≠ s ∧ c ≠ t
  /-- Other nodes have their neighbours, with the one node in place of the other. -/
  others : ∀ x, x ≠ s → x ≠ t → ∀ c, (g.merge s t).interferes x c = true ↔
    ∃ d, g.interferes x d = true ∧ c = if d = s then t else d
  /-- The node that was merged takes no further part. -/
  isActive : ∀ n, (g.merge s t).IsActive n ↔ g.IsActive n ∧ n ≠ s
  /-- Its locations lead to the node that is left. -/
  idOf? : ∀ l, (g.merge s t).idOf? l = (g.idOf? l).map fun n => if n = s then t else n
  /-- Costs are moved and not lost. -/
  totalCost : (g.merge s t).totalCost = g.totalCost

omit [DecidableEq R] in
theorem isActive_merge (hs : g.IsActive s) : (g.merge s t).IsActive n ↔ g.IsActive n ∧ n ≠ s := by
  rw [← mem_liveNodes, liveNodes_merge hs, (nodup_liveNodes g).mem_erase_iff, mem_liveNodes,
    and_comm]

theorem Linked.merges (h : g.Linked) (hs : g.IsActive s) (ht : g.IsActive t) (hst : s ≠ t) :
    g.Merges s t where
  into := by
    intro c
    simp only [interferes_iff, h.mem_neighbours_merge hs ht hst]
    constructor
    · rintro ⟨-, hcs, htc, hc | ⟨-, hc⟩ | ⟨rfl, -⟩⟩
      · exact ⟨.inl hc, hcs, htc.symm⟩
      · exact ⟨.inr hc, hcs, htc.symm⟩
      · exact absurd rfl htc
    · rintro ⟨hc, hcs, hct⟩
      exact ⟨hst.symm, hcs, hct.symm, hc.imp_right fun hc => .inl ⟨trivial, hc⟩⟩
  others := by
    intro x hxs hxt c
    simp only [interferes_iff, h.mem_neighbours_merge hs ht hst]
    constructor
    · rintro ⟨-, hcs, -, hc | ⟨rfl, -⟩ | ⟨rfl, hx⟩⟩
      · exact ⟨c, hc, (if_neg hcs).symm⟩
      · exact absurd rfl hxt
      · exact ⟨s, h.symmetric hx, (if_pos rfl).symm⟩
    · rintro ⟨d, hd, rfl⟩
      by_cases hds : d = s
      · subst hds
        rw [if_pos rfl]
        exact ⟨hxs, hst.symm, hxt, .inr (.inr ⟨rfl, h.symmetric hd⟩)⟩
      · rw [if_neg hds]
        exact ⟨hxs, hds, fun heq => h.irreflexive (heq ▸ hd), .inl hd⟩
  isActive := fun n => isActive_merge hs
  idOf? := by
    intro l
    cases hid : g.idOf? l with
    | some a => exact h.idOf?_merge hs ht hst hid
    | none => exact idOf?_eq_none_iff.mpr (.merge (idOf?_eq_none_iff.mp hid))
  totalCost := totalCost_merge hs ht hst

/-! ### Every way to build a graph -/

/-- The graphs that can be built, with the locations that were ever added, if any node that takes
part can be merged into any other. -/
def Grown (added : List (Location R)) (g : InterferenceGraph R) : Prop :=
  ∃ steps, GrownBy IsActive steps added g

namespace Grown

variable {added : List (Location R)}

theorem linked (h : Grown added g) : g.Linked ∧ ∀ l ∈ added, ∃ n, g.idOf? l = some n := by
  obtain ⟨steps, h⟩ := h
  -- Only merging takes a location from its node, and then to another one.
  induction h with
  | empty name =>
    exact ⟨(Built.empty (P := fun _ => True) (E := fun _ _ => True) name).wellFormed.toLinked,
      by simp⟩
  | @add _ _ g h l ih =>
    refine ⟨ih.1.add l, fun k hk => ?_⟩
    rcases mem_cons.mp hk with rfl | hk
    · exact ⟨_, idOf?_add g k⟩
    · obtain ⟨n, hn⟩ := ih.2 k hk
      exact ⟨n, (Extends.add g l).idOf? hn⟩
  | addEdge h ha hb ih =>
    refine ⟨ih.1.addEdge ha hb, fun k hk => ?_⟩
    rw [(SameShape.addEdge _ _).idOf?_eq]
    exact ih.2 k hk
  | bumpCost h hn ih =>
    refine ⟨ih.1.bumpCost _ 1, fun k hk => ?_⟩
    rw [(sameShape_bumpCost _ _).idOf?_eq]
    exact ih.2 k hk
  | merge h hs ht hst ih =>
    refine ⟨ih.1.merge hs ht hst, fun k hk => ?_⟩
    obtain ⟨n, hn⟩ := ih.2 k hk
    exact ⟨_, ih.1.idOf?_merge hs ht hst hn⟩

/-- However a graph was built, its edges are symmetric, join different nodes that take part, and are
listed once; the locations that were added lead to nodes that take part; and a merge of any two
nodes does what it should. -/
theorem keeps_representation (h : Grown added g) :
    (∀ a b, g.interferes a b = g.interferes b a) ∧ (∀ a, g.interferes a a = false) ∧
      (∀ a b, g.interferes a b = true → g.IsActive a ∧ g.IsActive b) ∧
      (∀ l ∈ added, ∃ n, g.idOf? l = some n ∧ g.IsActive n) ∧
      (∀ a b, g.edges.count (a, b) + g.edges.count (b, a) = if g.interferes a b then 1 else 0) ∧
      (∀ a b, (a, b) ∈ g.edges → a < b) ∧
      ∀ s t, g.IsActive s → g.IsActive t → s ≠ t → g.Merges s t := by
  obtain ⟨hlinked, hadded⟩ := h.linked
  refine ⟨fun a b => Bool.eq_iff_iff.mpr ?_, fun a => ?_, fun a b hab => ?_, fun l hl => ?_,
    hlinked.count_edges, fun a b he => (hlinked.mem_edges_iff.mp he).1,
    fun s t => hlinked.merges⟩
  · exact ⟨hlinked.symmetric, hlinked.symmetric⟩
  · exact Bool.eq_false_iff.mpr fun ha => hlinked.irreflexive (interferes_iff.mp ha)
  · exact hlinked.isActive_of_mem (interferes_iff.mp hab)
  · obtain ⟨n, hn⟩ := hadded l hl
    exact ⟨n, hn, hlinked.isActive_of_idOf? hn⟩

/-- A machine register that a pseudo register was merged into is merged in turn, into a node that it
is not connected to but shares a neighbour with. -/
theorem triangle_keeps_representation :
    (∃ added, Grown added triangle ∧ .pseudo "d" ∈ added) ∧ triangle.Merges 0 2 ∧
      (triangle.merge 0 2).idOf? (.pseudo "d") = some 2 := by
  have hgrown : Grown _ triangle := ⟨_, grownBy_triangle And.left⟩
  obtain ⟨-, -, -, -, -, -, hmerges⟩ := hgrown.keeps_representation
  exact ⟨⟨_, hgrown, by simp⟩, hmerges 0 2 (by decide +kernel) (by decide +kernel) (by decide),
    by decide +kernel⟩

end Grown

end ThreeAddress.InterferenceGraph
