import Mathlib.Tactic.Tauto
import ThreeAddress.Registers.Interference

/-!
# Operations on interference graphs

The allocator only ever adds nodes and edges and merges nodes.  These operations keep a graph
well-formed: edges go both ways and join different nodes that still take part, and every location
is represented by such a node.

Two locations are apart if the nodes that stand for them are connected.  Locations that are apart
stay apart, also when their nodes are merged with others.
-/

namespace ThreeAddress.InterferenceGraph

open Array Option Std.ExtTreeSet

variable {R : Type} {g g' : InterferenceGraph R} {a b n : Nat} {l k : Location R}
  {f : InterferenceNode R → InterferenceNode R}
variable {m : InterferenceNode R} {P : Location R → Prop}

/-- A node that still takes part. -/
def IsActive (g : InterferenceGraph R) (n : Nat) : Prop :=
  ∃ m, g.nodes[n]? = some m ∧ m.isMerged = false

/-- What holds of every graph, whatever nodes are merged. -/
structure Linked (g : InterferenceGraph R) : Prop where
  location_injective : ∀ {a b : Nat} {m n : InterferenceNode R}, g.nodes[a]? = some m →
    g.nodes[b]? = some n → m.location = n.location → a = b
  symmetric : ∀ {a b : Nat}, b ∈ g.neighbours a → a ∈ g.neighbours b
  irreflexive : ∀ {a : Nat}, a ∉ g.neighbours a
  active : ∀ {a b : Nat}, b ∈ g.neighbours a → g.IsActive b
  representative_active : ∀ {a : Nat} {m : InterferenceNode R}, g.nodes[a]? = some m →
    g.IsActive m.representative
  representative_eq : ∀ {a : Nat} {m : InterferenceNode R}, g.nodes[a]? = some m →
    m.isMerged = false → m.representative = a

/-- What holds of the graphs of the allocator, which merges pseudo registers only. -/
structure WellFormed (g : InterferenceGraph R) : Prop extends g.Linked where
  isPseudo_of_merged : ∀ {a : Nat} {m : InterferenceNode R}, g.nodes[a]? = some m →
    m.isMerged = true → m.location.isPseudo = true

/-- All nodes are nodes of locations with a property. -/
def Within (P : Location R → Prop) (g : InterferenceGraph R) : Prop :=
  ∀ (a : Nat) (m : InterferenceNode R), g.nodes[a]? = some m → P m.location

theorem IsActive.lt_size (h : g.IsActive n) : n < g.size := by
  obtain ⟨m, hm, -⟩ := h
  exact (Array.getElem?_eq_some_iff.mp hm).1

theorem isPseudo_of_isPrecoloured_eq_false (h : g.isPrecoloured n = false) :
    ∀ m, g.nodes[n]? = some m → m.location.isPseudo = true := by
  intro m hm
  simpa [isPrecoloured, hm, InterferenceNode.isPrecoloured] using h

theorem WellFormed.isMerged_of_reg (h : g.WellFormed) {r : R} (hm : g.nodes[n]? = some m)
    (hr : m.location = .reg r) : m.isMerged = false := by
  cases hmerged : m.isMerged with
  | false => rfl
  | true =>
    have hpseudo := h.isPseudo_of_merged hm hmerged
    rw [hr] at hpseudo
    cases hpseudo

/-! ### Neighbours -/

theorem mem_neighbours : b ∈ g.neighbours a ↔ ∃ m, g.nodes[a]? = some m ∧ b ∈ m.neighbours := by
  unfold neighbours
  cases g.nodes[a]? with
  | none => simp
  | some m => simp

theorem lt_size_of_mem_neighbours (h : b ∈ g.neighbours a) : a < g.size := by
  obtain ⟨m, hm, -⟩ := mem_neighbours.mp h
  exact (Array.getElem?_eq_some_iff.mp hm).1

theorem getElem?_modify (f : InterferenceNode R → InterferenceNode R) :
    (g.modify n f).nodes[a]? = if n = a then g.nodes[a]?.map f else g.nodes[a]? :=
  Array.getElem?_modify

theorem neighbours_modify_ne (h : n ≠ a) : (g.modify n f).neighbours a = g.neighbours a := by
  rw [neighbours, getElem?_modify, if_neg h, neighbours]

theorem neighbours_modify_self {s : Std.ExtTreeSet Nat → Std.ExtTreeSet Nat}
    (hf : ∀ m, (f m).neighbours = s m.neighbours) (h : n < g.size) :
    (g.modify n f).neighbours n = s (g.neighbours n) := by
  rw [neighbours, getElem?_modify, neighbours, getElem?_eq_getElem (show n < g.nodes.size from h)]
  simp [hf]

theorem neighbours_modify_of_eq (hf : ∀ m, (f m).neighbours = m.neighbours) :
    (g.modify n f).neighbours a = g.neighbours a := by
  rw [neighbours, getElem?_modify]
  split
  · rw [neighbours, Option.map_map, show InterferenceNode.neighbours ∘ f = _ from funext hf]
  · rfl

@[simp] theorem size_modify (f : InterferenceNode R → InterferenceNode R) :
    (g.modify n f).size = g.size := Array.size_modify ..

theorem mem_neighbours_addEdge {c x : Nat} (ha : a < g.size) (hb : b < g.size) (hne : a ≠ b) :
    c ∈ (g.addEdge a b).neighbours x ↔
      c ∈ g.neighbours x ∨ (x = a ∧ c = b) ∨ (x = b ∧ c = a) := by
  rw [addEdge, if_neg hne]
  by_cases hxb : x = b
  · subst hxb
    rw [neighbours_modify_self (s := fun s => s.insert a) (fun _ => rfl) (by simpa using hb),
      neighbours_modify_ne hne, mem_insert, Std.LawfulEqOrd.compare_eq_iff_eq]
    simp [hne.symm, eq_comm, or_comm]
  · rw [neighbours_modify_ne (.symm hxb)]
    by_cases hxa : x = a
    · subst hxa
      rw [neighbours_modify_self (s := fun s => s.insert b) (fun _ => rfl) ha,
        mem_insert, Std.LawfulEqOrd.compare_eq_iff_eq]
      simp [hne, eq_comm, or_comm]
    · rw [neighbours_modify_ne (.symm hxa)]
      simp [hxa, hxb]

/-! ### Shapes -/

/-- What a node stands for. -/
def shape (m : InterferenceNode R) : Location R × Bool × Nat :=
  (m.location, m.isMerged, m.representative)

/-- Graphs that differ in their edges and costs only. -/
def SameShape (g g' : InterferenceGraph R) : Prop :=
  ∀ n : Nat, g'.nodes[n]?.map shape = g.nodes[n]?.map shape

namespace SameShape

theorem refl (g : InterferenceGraph R) : SameShape g g := fun _ => rfl

theorem trans {g'' : InterferenceGraph R} (h : SameShape g g') (h' : SameShape g' g'') :
    SameShape g g'' :=
  fun n => (h' n).trans (h n)

theorem symm (h : SameShape g g') : SameShape g' g := fun n => (h n).symm

theorem modify (hf : ∀ m, shape (f m) = shape m) (n : Nat) : SameShape g (g.modify n f) := by
  intro a
  rw [getElem?_modify]
  split
  · rw [Option.map_map, show shape ∘ f = shape from funext hf]
  · rfl

theorem addEdge (a b : Nat) : SameShape g (g.addEdge a b) := by
  unfold InterferenceGraph.addEdge
  split
  · exact .refl g
  · refine .trans (modify ?_ a) (modify ?_ b)
    all_goals exact fun _ => rfl

theorem moveEdge (s t n : Nat) : SameShape g (moveEdge s t g n) := by
  refine .trans (modify ?_ n) (addEdge t n)
  exact fun _ => rfl

section

variable (h : SameShape g g')

include h

theorem exists_node {m' : InterferenceNode R} (hm : g'.nodes[n]? = some m') :
    ∃ m, g.nodes[n]? = some m ∧ m.location = m'.location ∧ m.isMerged = m'.isMerged ∧
      m.representative = m'.representative := by
  have := h n
  rw [hm] at this
  obtain ⟨m, hm', heq⟩ := map_eq_some_iff.mp this.symm
  simp only [shape, Prod.mk.injEq] at heq
  exact ⟨m, hm', heq.1, heq.2.1, heq.2.2⟩

theorem map_eq : g'.nodes.map shape = g.nodes.map shape :=
  ext_getElem? fun n => by simpa using h n

theorem size_eq : g'.size = g.size := by
  simpa [size] using congrArg Array.size h.map_eq

theorem isActive (hn : g.IsActive n) : g'.IsActive n := by
  obtain ⟨m, hm, hmerged⟩ := hn
  obtain ⟨m', hm', -, hmerged', -⟩ := h.symm.exists_node hm
  exact ⟨m', hm', hmerged'.trans hmerged⟩

theorem within (hP : g.Within P) : g'.Within P := by
  intro a m' hm'
  obtain ⟨m, hm, hlocation, -⟩ := h.exists_node hm'
  exact hlocation ▸ hP _ _ hm

end

theorem idOf?_eq [DecidableEq R] (h : SameShape g g') (l : Location R) :
    g'.idOf? l = g.idOf? l := by
  have key : ∀ g : InterferenceGraph R,
      g.idOf? l = ((g.nodes.map shape).find? fun s => s.1 == l).map fun s => s.2.2 := by
    intro g
    rw [find?_map, Option.map_map]
    rfl
  rw [key, key, h.map_eq]

theorem linked (h : SameShape g g') (hg : g.Linked)
    (hsymmetric : ∀ {a b : Nat}, b ∈ g'.neighbours a → a ∈ g'.neighbours b)
    (hirreflexive : ∀ {a : Nat}, a ∉ g'.neighbours a)
    (hactive : ∀ {a b : Nat}, b ∈ g'.neighbours a → g.IsActive b) : g'.Linked where
  location_injective := by
    intro a b m n hm hn heq
    obtain ⟨m', hm', hlm, -⟩ := h.exists_node hm
    obtain ⟨n', hn', hln, -⟩ := h.exists_node hn
    exact hg.location_injective hm' hn' (hlm.trans (heq.trans hln.symm))
  symmetric := hsymmetric
  irreflexive := hirreflexive
  active := fun hb => h.isActive (hactive hb)
  representative_active := by
    intro a m hm
    obtain ⟨m', hm', -, -, hrep⟩ := h.exists_node hm
    exact hrep ▸ h.isActive (hg.representative_active hm')
  representative_eq := by
    intro a m hm hmerged
    obtain ⟨m', hm', -, hmerged', hrep⟩ := h.exists_node hm
    exact hrep ▸ hg.representative_eq hm' (hmerged'.trans hmerged)

theorem wellFormed (h : SameShape g g') (hg : g.WellFormed) (hlinked : g'.Linked) :
    g'.WellFormed where
  toLinked := hlinked
  isPseudo_of_merged := by
    intro a m hm hmerged
    obtain ⟨m', hm', hlocation, hmerged', -⟩ := h.exists_node hm
    exact hlocation ▸ hg.isPseudo_of_merged hm' (hmerged'.trans hmerged)

end SameShape

theorem sameShape_bumpCost (n uses : Nat) : SameShape g (g.bumpCost n uses) := by
  refine .modify ?_ n
  exact fun _ => rfl

theorem neighbours_bumpCost (n uses a : Nat) : (g.bumpCost n uses).neighbours a = g.neighbours a :=
  neighbours_modify_of_eq fun _ => rfl

theorem Linked.bumpCost (h : g.Linked) (n uses : Nat) : (g.bumpCost n uses).Linked := by
  refine (sameShape_bumpCost n uses).linked h ?_ ?_ ?_
  all_goals simp only [neighbours_bumpCost]
  · exact h.symmetric
  · exact h.irreflexive
  · exact h.active

theorem Linked.addEdge (h : g.Linked) (ha : g.IsActive a) (hb : g.IsActive b) :
    (g.addEdge a b).Linked := by
  by_cases hne : a = b
  · rwa [InterferenceGraph.addEdge, if_pos hne]
  · refine (SameShape.addEdge a b).linked h ?_ ?_ ?_
    all_goals simp only [mem_neighbours_addEdge ha.lt_size hb.lt_size hne]
    · rintro x c (hc | ⟨rfl, rfl⟩ | ⟨rfl, rfl⟩)
      · exact .inl (h.symmetric hc)
      · exact .inr (.inr ⟨rfl, rfl⟩)
      · exact .inr (.inl ⟨rfl, rfl⟩)
    · rintro x (hx | ⟨rfl, rfl⟩ | ⟨rfl, rfl⟩)
      · exact h.irreflexive hx
      · exact hne rfl
      · exact hne rfl
    · rintro x c (hc | ⟨rfl, rfl⟩ | ⟨rfl, rfl⟩)
      · exact h.active hc
      · exact hb
      · exact ha

theorem WellFormed.bumpCost (h : g.WellFormed) (n uses : Nat) : (g.bumpCost n uses).WellFormed :=
  (sameShape_bumpCost n uses).wellFormed h (h.toLinked.bumpCost n uses)

theorem WellFormed.addEdge (h : g.WellFormed) (ha : g.IsActive a) (hb : g.IsActive b) :
    (g.addEdge a b).WellFormed :=
  (SameShape.addEdge a b).wellFormed h (h.toLinked.addEdge ha hb)

/-! ### Representatives -/

section

variable [DecidableEq R]

theorem exists_of_idOf?_eq_some (h : g.idOf? l = some a) :
    ∃ (n : Nat) (m : InterferenceNode R), g.nodes[n]? = some m ∧ m.location = l ∧
      m.representative = a := by
  obtain ⟨m, hfind, hrep⟩ := map_eq_some_iff.mp h
  obtain ⟨n, hn⟩ := mem_iff_getElem?.mp (mem_of_find?_eq_some hfind)
  exact ⟨n, m, hn, by simpa using find?_some hfind, hrep⟩

theorem idOf?_eq_none_iff : g.idOf? l = none ↔ g.Within (· ≠ l) := by
  rw [idOf?, map_eq_none_iff, find?_eq_none]
  constructor
  · intro h a m hm
    simpa using h m (mem_of_getElem? hm)
  · intro h m hm
    obtain ⟨n, hn⟩ := mem_iff_getElem?.mp hm
    simpa using h _ _ hn

namespace Linked

theorem idOf?_eq (h : g.Linked) (hm : g.nodes[n]? = some m) :
    g.idOf? m.location = some m.representative := by
  cases hid : g.idOf? m.location with
  | none => exact absurd rfl (idOf?_eq_none_iff.mp hid _ _ hm)
  | some a =>
    obtain ⟨n', m', hm', hlocation, rfl⟩ := exists_of_idOf?_eq_some hid
    obtain rfl := h.location_injective hm hm' hlocation.symm
    rw [hm] at hm'
    cases hm'
    rfl

theorem isActive_of_idOf? (h : g.Linked) (hid : g.idOf? l = some a) : g.IsActive a := by
  obtain ⟨n, m, hm, -, rfl⟩ := exists_of_idOf?_eq_some hid
  exact h.representative_active hm

end Linked

/-- Locations whose nodes are connected. -/
def Apart (g : InterferenceGraph R) (l k : Location R) : Prop :=
  ∃ a b, g.idOf? l = some a ∧ g.idOf? k = some b ∧ b ∈ g.neighbours a

/-! ### Adding to a graph -/

/-- A graph that has all nodes and edges of another. -/
structure Extends (g g' : InterferenceGraph R) : Prop where
  idOf? : ∀ {l : Location R} {a : Nat}, g.idOf? l = some a → g'.idOf? l = some a
  edge : ∀ {a b : Nat}, b ∈ g.neighbours a → b ∈ g'.neighbours a

theorem Extends.refl (g : InterferenceGraph R) : Extends g g := ⟨id, id⟩

theorem Extends.trans {g'' : InterferenceGraph R} (h : Extends g g') (h' : Extends g' g'') :
    Extends g g'' :=
  ⟨fun hid => h'.idOf? (h.idOf? hid), fun hb => h'.edge (h.edge hb)⟩

theorem Extends.apart (h : Extends g g') (hlk : g.Apart l k) : g'.Apart l k := by
  obtain ⟨a, b, ha, hb, hab⟩ := hlk
  exact ⟨a, b, h.idOf? ha, h.idOf? hb, h.edge hab⟩

theorem add_of_idOf?_eq_none (h : g.idOf? l = none) :
    g.add l = (g.size, { g with nodes := g.nodes.push ⟨l, ∅, 0, false, g.size⟩ }) := by
  rw [add, h]

theorem add_of_idOf?_eq_some (h : g.idOf? l = some a) : g.add l = (a, g) := by
  rw [add, h]

omit [DecidableEq R] in
theorem mem_neighbours_push (hm : m.neighbours = ∅) {c x : Nat} :
    c ∈ neighbours { g with nodes := g.nodes.push m } x ↔ c ∈ g.neighbours x := by
  simp only [mem_neighbours, getElem?_push]
  by_cases hx : x = g.nodes.size
  · subst hx
    simp [hm]
  · simp [hx]

theorem idOf?_push (m : InterferenceNode R) (l : Location R) :
    idOf? { g with nodes := g.nodes.push m } l =
      (g.idOf? l).or (if m.location = l then some m.representative else none) := by
  rw [idOf?, find?_push, idOf?]
  by_cases hl : m.location = l <;> simp [hl]

theorem idOf?_add (g : InterferenceGraph R) (l : Location R) :
    (g.add l).2.idOf? l = some (g.add l).1 := by
  cases hid : g.idOf? l with
  | some a => rw [add_of_idOf?_eq_some hid, hid]
  | none => rw [add_of_idOf?_eq_none hid, idOf?_push, hid, if_pos rfl, none_or]

theorem Extends.add (g : InterferenceGraph R) (l : Location R) : Extends g (g.add l).2 := by
  cases hid : g.idOf? l with
  | some a =>
    rw [add_of_idOf?_eq_some hid]
    exact .refl g
  | none =>
    rw [add_of_idOf?_eq_none hid]
    refine ⟨fun {k a} hk => ?_, fun hb => (mem_neighbours_push rfl).mpr hb⟩
    rw [idOf?_push, hk, some_or]

/-- Old nodes are where they were, and a new one comes after them. -/
theorem node_add_cases (hm : (g.add l).2.nodes[n]? = some m) :
    (n = g.size ∧ m = ⟨l, ∅, 0, false, g.size⟩) ∨ g.nodes[n]? = some m := by
  cases hid : g.idOf? l with
  | some a =>
    rw [add_of_idOf?_eq_some hid] at hm
    exact .inr hm
  | none =>
    rw [add_of_idOf?_eq_none hid, getElem?_push] at hm
    split at hm
    · rename_i hn
      exact .inl ⟨hn, (some.inj hm).symm⟩
    · exact .inr hm

theorem Within.add (h : g.Within P) (hl : P l) : (g.add l).2.Within P := by
  intro a m hm
  rcases node_add_cases hm with ⟨-, rfl⟩ | hm
  · exact hl
  · exact h _ _ hm

theorem Linked.add (h : g.Linked) (l : Location R) : (g.add l).2.Linked := by
  cases hid : g.idOf? l with
  | some a =>
    rw [add_of_idOf?_eq_some hid]
    exact h
  | none =>
    have hcases {a : Nat} {m : InterferenceNode R} :=
      node_add_cases (g := g) (l := l) (n := a) (m := m)
    rw [add_of_idOf?_eq_none hid] at hcases ⊢
    have hactive : ∀ {a : Nat}, g.IsActive a →
        IsActive { g with nodes := g.nodes.push ⟨l, ∅, 0, false, g.size⟩ } a := by
      rintro a ha
      obtain ⟨m, hm, hmerged⟩ := id ha
      exact ⟨m, by rw [getElem?_push, if_neg (show a ≠ g.nodes.size from Nat.ne_of_lt ha.lt_size),
        hm],
        hmerged⟩
    have hnew := idOf?_eq_none_iff.mp hid
    constructor
    · intro a b m n hm hn heq
      rcases hcases hm with ⟨rfl, rfl⟩ | hm' <;> rcases hcases hn with ⟨rfl, rfl⟩ | hn'
      · rfl
      · exact absurd heq.symm (hnew _ _ hn')
      · exact absurd heq (hnew _ _ hm')
      · exact h.location_injective hm' hn' heq
    · intro a b hb
      rw [mem_neighbours_push rfl] at hb ⊢
      exact h.symmetric hb
    · intro a ha
      rw [mem_neighbours_push rfl] at ha
      exact h.irreflexive ha
    · intro a b hb
      rw [mem_neighbours_push rfl] at hb
      exact hactive (h.active hb)
    · intro a m hm
      rcases hcases hm with ⟨rfl, rfl⟩ | hm'
      · exact ⟨⟨l, ∅, 0, false, g.size⟩, getElem?_push_size, rfl⟩
      · exact hactive (h.representative_active hm')
    · intro a m hm hmerged
      rcases hcases hm with ⟨rfl, rfl⟩ | hm'
      · rfl
      · exact h.representative_eq hm' hmerged

theorem WellFormed.add (h : g.WellFormed) (l : Location R) : (g.add l).2.WellFormed where
  toLinked := h.toLinked.add l
  isPseudo_of_merged := by
    intro a m hm hmerged
    rcases node_add_cases hm with ⟨rfl, rfl⟩ | hm'
    · cases hmerged
    · exact h.isPseudo_of_merged hm' hmerged

theorem Extends.bumpCost (g : InterferenceGraph R) (n uses : Nat) : Extends g (g.bumpCost n uses) :=
  ⟨fun {l _} hid => ((sameShape_bumpCost n uses).idOf?_eq l).trans hid,
    fun hb => by rwa [neighbours_bumpCost]⟩

theorem Extends.addEdge (ha : a < g.size) (hb : b < g.size) : Extends g (g.addEdge a b) := by
  refine ⟨fun {l _} hid => ((SameShape.addEdge a b).idOf?_eq l).trans hid, fun hc => ?_⟩
  by_cases hne : a = b
  · rwa [InterferenceGraph.addEdge, if_pos hne]
  · exact (mem_neighbours_addEdge ha hb hne).mpr (.inl hc)

end

/-! ### Merging nodes -/

section

variable {s t c x : Nat}

theorem mem_neighbours_moveEdge (ht : t < g.size) (hn : n < g.size) :
    c ∈ (moveEdge s t g n).neighbours x ↔
      (c ∈ g.neighbours x ∧ ¬ (x = n ∧ c = s)) ∨ (n ≠ t ∧ ((x = t ∧ c = n) ∨ (x = n ∧ c = t))) := by
  have herase : c ∈ (g.modify n fun node =>
      { node with neighbours := node.neighbours.erase s }).neighbours x ↔
      c ∈ g.neighbours x ∧ ¬ (x = n ∧ c = s) := by
    by_cases hx : x = n
    · subst hx
      rw [neighbours_modify_self (s := fun ns => ns.erase s) (fun _ => rfl) hn,
        mem_erase, ne_eq, Std.LawfulEqOrd.compare_eq_iff_eq]
      tauto
    · rw [neighbours_modify_ne (Ne.symm hx)]
      tauto
  rw [moveEdge]
  by_cases hnt : n = t
  · rw [addEdge, if_pos hnt.symm]
    tauto
  · rw [mem_neighbours_addEdge (by simpa using ht) (by simpa using hn) (Ne.symm hnt)]
    tauto

theorem sameShape_foldl_moveEdge (ns : List Nat) : SameShape g (ns.foldl (moveEdge s t) g) := by
  induction ns generalizing g with
  | nil => exact .refl g
  | cons n rest ih => exact (SameShape.moveEdge s t n).trans ih

theorem mem_neighbours_foldl_moveEdge {ns : List Nat} (hst : s ≠ t) (ht : t < g.size)
    (hns : ∀ n ∈ ns, n < g.size ∧ n ≠ s) :
    c ∈ (ns.foldl (moveEdge s t) g).neighbours x ↔
      (c ∈ g.neighbours x ∧ ¬ (x ∈ ns ∧ c = s)) ∨
        (x ≠ c ∧ ((x = t ∧ c ∈ ns) ∨ (x ∈ ns ∧ c = t))) := by
  induction ns generalizing g with
  | nil => simp
  | cons n rest ih =>
    obtain ⟨hn, hne⟩ := hns n List.mem_cons_self
    have hsize : (moveEdge s t g n).size = g.size := (SameShape.moveEdge s t n).size_eq
    rw [List.foldl_cons, ih (by rwa [hsize]) (fun m hm => by
      rw [hsize]
      exact hns m (List.mem_cons_of_mem _ hm)), mem_neighbours_moveEdge ht hn]
    simp only [List.mem_cons]
    -- What is added is never the node whose edges are moved.
    by_cases hc : c = s
    · subst hc
      tauto
    · grind

/-- A graph in the middle of a merge: all edges of a node were moved to another. -/
def edgesMoved (g : InterferenceGraph R) (s t : Nat) : InterferenceGraph R :=
  (g.neighbours s).toList.foldl (moveEdge s t)
    (g.modify s fun node => { node with neighbours := ∅ })

theorem sameShape_edgesMoved (g : InterferenceGraph R) (s t : Nat) :
    SameShape g (g.edgesMoved s t) := by
  refine .trans (.modify ?_ s) (sameShape_foldl_moveEdge _)
  exact fun _ => rfl

theorem Linked.mem_neighbours_edgesMoved (h : g.Linked) (hs : g.IsActive s)
    (ht : g.IsActive t) (hst : s ≠ t) :
    c ∈ (g.edgesMoved s t).neighbours x ↔ x ≠ s ∧ c ≠ s ∧ x ≠ c ∧
      (c ∈ g.neighbours x ∨ (x = t ∧ c ∈ g.neighbours s) ∨ (c = t ∧ x ∈ g.neighbours s)) := by
  have hnew : ∀ m ∈ (g.neighbours s).toList,
      m < (g.modify s fun node => { node with neighbours := ∅ }).size ∧ m ≠ s := by
    intro m hm
    rw [Std.ExtTreeSet.mem_toList] at hm
    rw [size_modify]
    refine ⟨(h.active hm).lt_size, ?_⟩
    rintro rfl
    exact h.irreflexive hm
  rw [edgesMoved, mem_neighbours_foldl_moveEdge hst (by simpa using ht.lt_size) hnew]
  simp only [Std.ExtTreeSet.mem_toList]
  by_cases hx : x = s
  · subst hx
    have hirreflexive : x ∉ g.neighbours x := h.irreflexive
    rw [neighbours_modify_self (s := fun _ => ∅) (fun _ => rfl) hs.lt_size]
    simp [hst, hirreflexive]
  · rw [neighbours_modify_ne (.symm hx)]
    by_cases hc : c = s
    · subst hc
      have hsymmetric : c ∈ g.neighbours x → x ∈ g.neighbours c := h.symmetric
      have hirreflexive : c ∉ g.neighbours c := h.irreflexive
      tauto
    · have hself : c ∈ g.neighbours x → x ≠ c := by
        rintro hmem rfl
        exact h.irreflexive hmem
      tauto

/-- What a node stands for after a merge. -/
def shapeAfterMerge (s t n : Nat) (x : Location R × Bool × Nat) : Location R × Bool × Nat :=
  (x.1, x.2.1 || n == s, if x.2.2 = s then t else x.2.2)

theorem getElem?_merge (g : InterferenceGraph R) (s t n : Nat) :
    ∃ f : InterferenceNode R → InterferenceNode R,
      (g.merge s t).nodes[n]? = (g.edgesMoved s t).nodes[n]?.map f ∧
      ∀ m, (f m).neighbours = m.neighbours ∧ shape (f m) = shapeAfterMerge s t n (shape m) := by
  refine ⟨fun m => { m with
    spillCost := if t = n then m.spillCost + (g.edgesMoved s t).spillCost s else m.spillCost
    isMerged := m.isMerged || n == s
    representative := if m.representative = s then t else m.representative }, ?_,
    fun m => ⟨rfl, rfl⟩⟩
  show ((((g.edgesMoved s t).bumpCost t ((g.edgesMoved s t).spillCost s)).modify s
    fun node => { node with isMerged := true }).nodes.map fun node =>
      if node.representative = s then { node with representative := t } else node)[n]? = _
  rw [getElem?_map, getElem?_modify, bumpCost, getElem?_modify]
  cases (g.edgesMoved s t).nodes[n]? with
  | none => simp
  | some m =>
    have hmerged : (n == s) = decide (s = n) := by simp [Bool.beq_eq_decide_eq, eq_comm]
    by_cases hs : s = n <;> by_cases ht : t = n <;> simp [hmerged, hs, ht] <;> split <;> rfl

theorem neighbours_merge (g : InterferenceGraph R) (s t x : Nat) :
    (g.merge s t).neighbours x = (g.edgesMoved s t).neighbours x := by
  obtain ⟨f, hf, hkeep⟩ := g.getElem?_merge s t x
  rw [neighbours, hf, neighbours, Option.map_map]
  exact congrArg (fun f => ((g.edgesMoved s t).nodes[x]?.map f).getD ∅)
    (funext fun m => (hkeep m).1)

theorem exists_node_of_merge {m' : InterferenceNode R} (hm' : (g.merge s t).nodes[n]? = some m') :
    ∃ m, g.nodes[n]? = some m ∧ m'.location = m.location ∧ m'.isMerged = (m.isMerged || n == s) ∧
      m'.representative = if m.representative = s then t else m.representative := by
  obtain ⟨f, hf, hkeep⟩ := g.getElem?_merge s t n
  rw [hf] at hm'
  obtain ⟨m₁, hm₁, rfl⟩ := map_eq_some_iff.mp hm'
  obtain ⟨m, hm, hlocation, hmerged, hrep⟩ := (sameShape_edgesMoved g s t).exists_node hm₁
  have hshape := (hkeep m₁).2
  simp only [shape, shapeAfterMerge, Prod.mk.injEq, ← hlocation, ← hmerged, ← hrep] at hshape
  exact ⟨m, hm, hshape⟩

theorem exists_merge_node (hm : g.nodes[n]? = some m) :
    ∃ m', (g.merge s t).nodes[n]? = some m' ∧ m'.location = m.location ∧
      m'.isMerged = (m.isMerged || n == s) ∧
      m'.representative = if m.representative = s then t else m.representative := by
  obtain ⟨f, hf, -⟩ := g.getElem?_merge s t n
  obtain ⟨m₁, hm₁, -⟩ := (sameShape_edgesMoved g s t).symm.exists_node hm
  have hm' : (g.merge s t).nodes[n]? = some (f m₁) := by rw [hf, hm₁, map_some]
  obtain ⟨m₂, hm₂, hkeep⟩ := exists_node_of_merge hm'
  rw [hm] at hm₂
  cases hm₂
  exact ⟨f m₁, hm', hkeep⟩

theorem Within.merge (h : g.Within P) : (g.merge s t).Within P := by
  intro a m' hm'
  obtain ⟨m, hm, hlocation, -⟩ := exists_node_of_merge hm'
  exact hlocation ▸ h a m hm

namespace Linked

variable (h : g.Linked) (hs : g.IsActive s) (ht : g.IsActive t) (hst : s ≠ t)

include h hs ht hst

theorem mem_neighbours_merge : c ∈ (g.merge s t).neighbours x ↔ x ≠ s ∧ c ≠ s ∧ x ≠ c ∧
      (c ∈ g.neighbours x ∨ (x = t ∧ c ∈ g.neighbours s) ∨ (c = t ∧ x ∈ g.neighbours s)) := by
  rw [neighbours_merge, h.mem_neighbours_edgesMoved hs ht hst]

theorem merge : (g.merge s t).Linked := by
  have hactive : ∀ {a : Nat}, g.IsActive a → a ≠ s → (g.merge s t).IsActive a := by
    rintro a ⟨m, hm, hmerged⟩ hne
    obtain ⟨m', hm', -, hmerged', -⟩ := exists_merge_node hm
    exact ⟨m', hm', by simp [hmerged', hmerged, hne]⟩
  constructor
  · intro a b m n hm hn heq
    obtain ⟨m', hm', hlm, -⟩ := exists_node_of_merge hm
    obtain ⟨n', hn', hln, -⟩ := exists_node_of_merge hn
    exact h.location_injective hm' hn' (hlm.symm.trans (heq.trans hln))
  · intro a b hb
    rw [h.mem_neighbours_merge hs ht hst] at hb ⊢
    obtain ⟨ha, hb, hab, hor⟩ := hb
    exact ⟨hb, ha, hab.symm, hor.imp h.symmetric .symm⟩
  · intro a ha
    exact ((h.mem_neighbours_merge hs ht hst).mp ha).2.2.1 rfl
  · intro a b hb
    rw [h.mem_neighbours_merge hs ht hst] at hb
    rcases hb with ⟨-, hne, -, hb | ⟨-, hb⟩ | ⟨rfl, -⟩⟩
    · exact hactive (h.active hb) hne
    · exact hactive (h.active hb) hne
    · exact hactive ht hne
  · intro a m' hm'
    obtain ⟨m, hm, -, -, hrep⟩ := exists_node_of_merge hm'
    rw [hrep]
    split
    · exact hactive ht hst.symm
    · rename_i hne
      exact hactive (h.representative_active hm) hne
  · intro a m' hm' hmerged
    obtain ⟨m, hm, -, hmerged', hrep⟩ := exists_node_of_merge hm'
    obtain ⟨hold, hne⟩ : m.isMerged = false ∧ a ≠ s := by simpa [hmerged] using hmerged'.symm
    rw [hrep, h.representative_eq hm hold, if_neg hne]

theorem idOf?_merge [DecidableEq R] (ha : g.idOf? l = some a) :
    (g.merge s t).idOf? l = some (if a = s then t else a) := by
  have hlinked := h.merge hs ht hst
  obtain ⟨n, m, hm, rfl, rfl⟩ := exists_of_idOf?_eq_some ha
  obtain ⟨m', hm', hlocation, -, hrep⟩ := exists_merge_node hm
  rw [← hlocation, hlinked.idOf?_eq hm', hrep]

/-- Merging nodes that are not connected keeps locations apart. -/
theorem apart_merge [DecidableEq R] (hedge : t ∉ g.neighbours s) (hlk : g.Apart l k) :
    (g.merge s t).Apart l k := by
  have hid {l : Location R} {a : Nat} := h.idOf?_merge (l := l) (a := a) hs ht hst
  obtain ⟨a, b, ha, hb, hab⟩ := hlk
  refine ⟨_, _, hid ha, hid hb, (h.mem_neighbours_merge hs ht hst).mpr ?_⟩
  by_cases has : a = s
  · -- The edge was moved to the other node.
    subst has
    have hne : b ≠ a := fun heq => h.irreflexive (heq ▸ hab)
    have htb : t ≠ b := fun heq => hedge (heq ▸ hab)
    simp [hne, hst.symm, htb, hab]
  · by_cases hbs : b = s
    · subst hbs
      have hat : a ≠ t := fun heq => hedge (heq ▸ h.symmetric hab)
      simp [has, hst.symm, hat, h.symmetric hab]
    · have hne : a ≠ b := fun heq => h.irreflexive (heq ▸ hab)
      simp [has, hbs, hne, hab]

end Linked

/-- Merging a pseudo register into another node keeps the graph well-formed. -/
theorem WellFormed.merge (h : g.WellFormed) (hs : g.IsActive s) (ht : g.IsActive t) (hst : s ≠ t)
    (hpseudo : ∀ m, g.nodes[s]? = some m → m.location.isPseudo = true) :
    (g.merge s t).WellFormed where
  toLinked := h.toLinked.merge hs ht hst
  isPseudo_of_merged := by
    intro a m' hm' hmerged
    obtain ⟨m, hm, hlocation, hmerged', -⟩ := exists_node_of_merge hm'
    rw [hlocation]
    rcases (by simpa [hmerged] using hmerged'.symm) with hold | rfl
    · exact h.isPseudo_of_merged hm hold
    · exact hpseudo m hm

end

end ThreeAddress.InterferenceGraph
