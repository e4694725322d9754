import Mathlib.Data.Finset.Card
import Mathlib.Data.Finset.Union
import ThreeAddress.Proofs.Registers.Separation

/-!
# Graphs that can be emptied

A pseudo register with fewer than `k` neighbours can be taken out of an interference graph: whatever
registers its neighbours are given, one of `k` is left for it.  A graph that can be emptied in this
way can be coloured.  What stands in the way is a core, a set of pseudo registers that each keep `k`
neighbours as long as none of them is taken out.

The tests of coalescing are conservative: no merge that they allow makes a core where there was
none.  With the test for two pseudo registers this is because a core would have to hold a neighbour
with few neighbours; with the test for a machine register, because the core was there before.
-/

namespace ThreeAddress

open Finset Std.ExtTreeSet

variable {core : Finset Nat}

namespace InterferenceGraph

variable {R : Type} {g : InterferenceGraph R} {k n : Nat}

/-! ### Taking nodes out -/

def around (g : InterferenceGraph R) (n : Nat) : Finset Nat := (g.neighbours n).toList.toFinset

@[simp] theorem mem_around {m : Nat} : m ∈ g.around n ↔ m ∈ g.neighbours n := by
  rw [around, List.mem_toFinset, Std.ExtTreeSet.mem_toList]

theorem card_around : (g.around n).card = g.degree n := by
  rw [around, List.toFinset_card_of_nodup (nodup_toList _), Std.ExtTreeSet.length_toList, degree]

/-- A node of a pseudo register that still takes part. -/
def IsPseudoNode (g : InterferenceGraph R) (n : Nat) : Prop :=
  g.IsActive n ∧ g.isPrecoloured n = false

/-- Pseudo registers that can be taken out of a graph one after another, each at a time when it has
fewer than `k` neighbours left.  The last one comes first. -/
inductive Removable (g : InterferenceGraph R) (k : Nat) : List Nat → Prop
  | nil : Removable g k []
  | cons {n : Nat} {removed : List Nat} (hn : g.IsPseudoNode n) (hnew : n ∉ removed)
    (hfew : ((g.around n).filter (· ∉ removed)).card < k) (hremoved : Removable g k removed) :
    Removable g k (n :: removed)

/-- All pseudo registers can be taken out of a graph. -/
def CanBeEmptied (g : InterferenceGraph R) (k : Nat) : Prop :=
  ∃ removed, g.Removable k removed ∧ ∀ n, g.IsPseudoNode n → n ∈ removed

instance : Decidable (g.IsPseudoNode n) :=
  decidable_of_iff (g.nodes[n]?.any (fun m => !m.isMerged) = true ∧ g.isPrecoloured n = false) <| by
    rw [IsPseudoNode, IsActive, Option.any_eq_true]
    simp

theorem removable_cons_iff {removed : List Nat} :
    g.Removable k (n :: removed) ↔ (g.IsPseudoNode n ∧ n ∉ removed ∧
      ((g.around n).filter (· ∉ removed)).card < k) ∧ g.Removable k removed := by
  constructor
  · intro h
    cases h with
    | cons hn hnew hfew hremoved => exact ⟨⟨hn, hnew, hfew⟩, hremoved⟩
  · rintro ⟨⟨hn, hnew, hfew⟩, hremoved⟩
    exact .cons hn hnew hfew hremoved

instance decidableRemovable : ∀ removed, Decidable (g.Removable k removed)
  | [] => isTrue .nil
  | n :: removed =>
    have := decidableRemovable removed
    decidable_of_iff _ (removable_cons_iff (n := n)).symm

theorem canBeEmptied_of_forall_lt (removed : List Nat) (h : g.Removable k removed)
    (hall : ∀ n < g.size, g.IsPseudoNode n → n ∈ removed) : g.CanBeEmptied k :=
  ⟨removed, h, fun n hn => hall n hn.1.lt_size hn⟩

/-- Pseudo registers that each have at least `k` neighbours among themselves and the machine
registers. -/
structure IsCore (g : InterferenceGraph R) (k : Nat) (core : Finset Nat) : Prop where
  pseudo : ∀ n ∈ core, g.IsPseudoNode n
  crowded : ∀ n ∈ core,
    k ≤ ((g.around n).filter fun m => m ∈ core ∨ g.isPrecoloured m = true).card

/-- Only the empty set is a core. -/
def NoCore (g : InterferenceGraph R) (k : Nat) : Prop := ∀ core, g.IsCore k core → core = ∅

/-- None of a core is ever taken out.  The first one that were would have all the others of the core
and the machine registers still around it. -/
theorem Removable.not_mem_core {removed : List Nat} (h : g.Removable k removed)
    (hcore : g.IsCore k core) : ∀ n ∈ removed, n ∉ core := by
  induction h with
  | nil => simp
  | @cons n removed hn hnew hfew hremoved ih =>
    refine List.forall_mem_cons.mpr ⟨fun hmem => ?_, ih⟩
    have hpseudo : ∀ m ∈ removed, g.IsPseudoNode m := by
      clear hnew hfew ih
      induction hremoved with
      | nil => simp
      | cons hm _ _ _ ih => exact List.forall_mem_cons.mpr ⟨hm, ih⟩
    have hsub : ((g.around n).filter fun m => m ∈ core ∨ g.isPrecoloured m = true) ⊆
        (g.around n).filter (· ∉ removed) := by
      intro m hm
      rw [Finset.mem_filter] at hm ⊢
      refine ⟨hm.1, fun hmem' => ?_⟩
      rcases hm.2 with hcore' | hhard
      · exact ih m hmem' hcore'
      · rw [(hpseudo m hmem').2] at hhard
        cases hhard
    have hcrowded := hcore.crowded n hmem
    have hle := card_le_card hsub
    omega

theorem CanBeEmptied.noCore (h : g.CanBeEmptied k) : g.NoCore k := by
  obtain ⟨removed, hremoved, hall⟩ := h
  intro core hcore
  refine eq_empty_of_forall_notMem fun n hn => ?_
  exact hremoved.not_mem_core hcore n (hall n (hcore.pseudo n hn)) hn

theorem NoCore.of_embedding (h : g.NoCore k) {g' : InterferenceGraph R} (φ : Nat → Nat)
    (hpseudo : ∀ n, g'.IsPseudoNode n → g.IsPseudoNode (φ n))
    (hedge : ∀ n m, m ∈ g'.neighbours n → φ m ∈ g.neighbours (φ n))
    (hhard : ∀ n m, m ∈ g'.neighbours n → g'.isPrecoloured m = true → g.isPrecoloured (φ m) = true)
    (hinjective : ∀ n m m', m ∈ g'.neighbours n → m' ∈ g'.neighbours n → φ m = φ m' → m = m') :
    g'.NoCore k := by
  intro core hcore
  -- The image of the core would be a core.
  refine image_eq_empty.mp (h (core.image φ) ⟨fun n hn => ?_, fun n hn => ?_⟩)
  · obtain ⟨m, hm, rfl⟩ := mem_image.mp hn
    exact hpseudo m (hcore.pseudo m hm)
  · obtain ⟨m, hm, rfl⟩ := mem_image.mp hn
    refine (hcore.crowded m hm).trans (card_le_card_of_injOn φ (fun x hx => ?_) ?_)
    · obtain ⟨hx, hor⟩ := mem_filter.mp hx
      rw [mem_around] at hx
      refine mem_filter.mpr ⟨mem_around.mpr (hedge m x hx), ?_⟩
      exact hor.imp (mem_image_of_mem φ) (hhard m x hx)
    · intro x hx y hy heq
      have hx := mem_around.mp (mem_filter.mp hx).1
      have hy := mem_around.mp (mem_filter.mp hy).1
      exact hinjective m x y hx hy heq

/-! ### Merging -/

theorem isPrecoloured_merge (g : InterferenceGraph R) (s t n : Nat) :
    (g.merge s t).isPrecoloured n = g.isPrecoloured n := by
  unfold isPrecoloured
  cases hm : g.nodes[n]? with
  | some m =>
    obtain ⟨m', hm', hlocation, -⟩ := exists_merge_node (s := s) (t := t) hm
    simp [hm', InterferenceNode.isPrecoloured, hlocation]
  | none =>
    cases hm' : (g.merge s t).nodes[n]? with
    | none => rfl
    | some m' =>
      obtain ⟨m, hm₁, -⟩ := exists_node_of_merge hm'
      rw [hm] at hm₁
      cases hm₁

/-- The nodes of pseudo registers after a merge are those from before, but for the one that was
merged. -/
theorem isPseudoNode_of_merge {s t : Nat} (h : (g.merge s t).IsPseudoNode n) :
    g.IsPseudoNode n ∧ n ≠ s := by
  obtain ⟨⟨m', hm', hmerged⟩, hpseudo⟩ := h
  obtain ⟨m, hm, -, hmerged', -⟩ := exists_node_of_merge hm'
  obtain ⟨hold, hne⟩ : m.isMerged = false ∧ n ≠ s := by simpa [hmerged] using hmerged'.symm
  exact ⟨⟨⟨m, hm, hold⟩, isPrecoloured_merge g s t n ▸ hpseudo⟩, hne⟩

section

variable {s t : Nat}

theorem card_around_merge_le (h : g.WellFormed) (hmerge : g.Mergeable k s t) (hn : n ≠ t) :
    ((g.merge s t).around n).card ≤ (g.around n).card := by
  have hsub : (g.merge s t).around n ⊆ (g.around n).image fun c => if c = s then t else c := by
    intro c hc
    obtain ⟨-, hcs, -, hedge⟩ :=
      (h.mem_neighbours_merge hmerge.source hmerge.target hmerge.ne).mp (mem_around.mp hc)
    rw [mem_image]
    rcases hedge with hedge | ⟨heq, -⟩ | ⟨rfl, hedge⟩
    · exact ⟨c, mem_around.mpr hedge, if_neg hcs⟩
    · exact absurd heq hn
    · exact ⟨s, mem_around.mpr (h.symmetric hedge), if_pos rfl⟩
  exact (card_le_card hsub).trans card_image_le

/-- A pseudo register in a core has many neighbours, and had them before the merge, unless another
was merged into it. -/
theorem le_degree_of_mem_core (h : g.WellFormed) (hmerge : g.Mergeable k s t)
    (hcore : (g.merge s t).IsCore k core) (hn : n ∈ core) (hne : n ≠ t) : k ≤ g.degree n := by
  have hle := card_around_merge_le h hmerge hne
  rw [card_around (g := g)] at hle
  exact (hcore.crowded n hn).trans ((card_filter_le _ _).trans hle)

theorem isCore_of_isCore_merge (hcore : (g.merge s t).IsCore k core)
    (hedge : ∀ n ∈ core, ∀ m, m ∈ (g.merge s t).neighbours n → m ∈ core ∨ g.isPrecoloured m = true →
      m ∈ g.neighbours n) : g.IsCore k core where
  pseudo := fun n hn => (isPseudoNode_of_merge (hcore.pseudo n hn)).1
  crowded := by
    intro n hn
    refine (hcore.crowded n hn).trans (card_le_card fun m hm => ?_)
    rw [Finset.mem_filter, mem_around, isPrecoloured_merge] at hm
    exact mem_filter.mpr ⟨mem_around.mpr (hedge n hn m hm.1 hm.2), hm.2⟩

section

variable (hno : g.NoCore k) (h : g.WellFormed) (hmerge : g.Mergeable k s t)

include hno h hmerge

theorem NoCore.merge_briggs (hpseudo : g.isPrecoloured t = false) (htest : g.briggs k t s = true) :
    (g.merge s t).NoCore k := by
  intro core hcore
  have hneighbours {c x : Nat} :=
    h.mem_neighbours_merge hmerge.source hmerge.target hmerge.ne (c := c) (x := x)
  by_cases ht : t ∈ core
  · -- All neighbours that the merged node has in the core are hard to colour, which are too few.
    let hard := (g.neighbours t ∪ g.neighbours s).toList.filter (g.isSignificant k)
    have hsub : ((g.merge s t).around t).filter
        (fun m => m ∈ core ∨ (g.merge s t).isPrecoloured m = true) ⊆ hard.toFinset := by
      intro m hm
      rw [Finset.mem_filter, mem_around, hneighbours, isPrecoloured_merge] at hm
      obtain ⟨⟨-, hms, hne, hedge⟩, hor⟩ := hm
      have hmem : m ∈ g.neighbours t ∨ m ∈ g.neighbours s := by
        rcases hedge with hedge | ⟨-, hedge⟩ | ⟨heq, -⟩
        · exact .inl hedge
        · exact .inr hedge
        · exact absurd heq hne.symm
      have hsignificant : g.isSignificant k m = true := by
        rw [isSignificant, Bool.or_eq_true, decide_eq_true_iff]
        rcases hor with hcore' | hhard
        · exact .inr (le_degree_of_mem_core h hmerge hcore hcore' hne.symm)
        · exact .inl hhard
      simp [hard, hmem, hsignificant]
    have hfew : hard.length < k := by simpa [briggs] using htest
    have hcrowded := hcore.crowded t ht
    have hle := (card_le_card hsub).trans hard.toFinset_card_le
    omega
  · -- A core without the merged node was a core before.
    refine hno core (isCore_of_isCore_merge hcore fun n hn m hm hor => ?_)
    obtain ⟨-, -, -, hedge | ⟨rfl, -⟩ | ⟨rfl, -⟩⟩ := hneighbours.mp hm
    · exact hedge
    · exact absurd hn ht
    · rcases hor with hor | hor
      · exact absurd hor ht
      · rw [hpseudo] at hor
        cases hor

theorem NoCore.merge_george (hhard : g.isPrecoloured t = true) (htest : g.george k s t = true) :
    (g.merge s t).NoCore k := by
  intro core hcore
  refine hno core (isCore_of_isCore_merge hcore fun n hn m hm _ => ?_)
  obtain ⟨⟨-, hpseudo⟩, -⟩ := isPseudoNode_of_merge (hcore.pseudo n hn)
  have hne : n ≠ t := by
    rintro rfl
    rw [hpseudo] at hhard
    cases hhard
  obtain ⟨-, -, -, hedge | ⟨heq, -⟩ | ⟨rfl, hedge⟩⟩ :=
    (h.mem_neighbours_merge hmerge.source hmerge.target hmerge.ne).mp hm
  · exact hedge
  · exact absurd heq hne
  · -- A neighbour of the merged node is connected to the register already, or easy to colour.
    have hall := List.all_eq_true.mp htest n (mem_toList.mpr hedge)
    have hdegree := le_degree_of_mem_core h hmerge hcore hn hne
    simp only [interferes, Bool.or_eq_true, contains_iff_mem, hpseudo,
      Bool.false_eq_true, or_false, decide_eq_true_iff] at hall
    exact hall.resolve_right (by omega)

/-- Merging along a copy makes no core. -/
theorem NoCore.merge : (g.merge s t).NoCore k := by
  rcases hmerge.test with ⟨hhard, htest⟩ | ⟨hpseudo, htest⟩
  · exact hno.merge_george h hmerge hhard htest
  · exact hno.merge_briggs h hmerge hpseudo htest

end

theorem NoCore.coalesceMove [DecidableEq R] (hno : g.NoCore k) (h : g.WellFormed)
    (dst src : Location R) : (g.coalesceMove k dst src).NoCore k := by
  rcases h.coalesceMove_cases k dst src with heq | ⟨s, t, hmerge, heq⟩
  · rwa [heq]
  · rw [heq]
    exact hno.merge h hmerge

end

end InterferenceGraph

namespace AllocationProblem

open InterferenceGraph

variable {R C L : Type} [Ord R] [Std.TransOrd R] [Std.LawfulEqOrd R] [DecidableEq R]
  [DecidableEq C] [DecidableEq L] {p : AllocationProblem R C L} {c : C}

theorem AllSeparate.noCore_coalesce {graphs : List (C × InterferenceGraph R)}
    (h : p.AllSeparate graphs) (hno : ∀ g, (c, g) ∈ graphs → g.NoCore (p.colours c).length) :
    ∀ g, (c, g) ∈ p.coalesce graphs → g.NoCore (p.colours c).length := by
  have hall := (coalesce_induction
    (fun d g => p.Separates d g ∧ (d = c → g.NoCore (p.colours d).length))
    (fun d g dst src hg => ⟨hg.1.coalesceMove _ dst src,
      fun heq => (hg.2 heq).coalesceMove hg.1.wellFormed dst src⟩)
    (fun x hx => ⟨h.separates x hx, fun heq => heq ▸ hno x.2 (heq ▸ hx)⟩)).2
  exact fun g hg => (hall (c, g) hg).2 rfl

end AllocationProblem

end ThreeAddress
