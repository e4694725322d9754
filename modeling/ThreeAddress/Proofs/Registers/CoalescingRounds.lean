import ThreeAddress.Proofs.Registers.CheckedGraphs
import ThreeAddress.Proofs.Registers.MoveAllocation
import ThreeAddress.Proofs.Registers.RenamedGraphs

/-!
# Rounds of coalescing end

A round merges nodes one after the other, and a node that others were merged into may itself be
merged.  What is renamed in the end goes to a node that was not merged, so its new place is final.
No renamed pseudo register is left in the code, and no round brings one back, so every round that
renames anything leaves fewer pseudo registers for the next.
-/

namespace ThreeAddress

open InterferenceGraph AllocationProblem AllSeparate List

/-! ### The renames of one graph -/

namespace InterferenceGraph

variable {R : Type} [DecidableEq R] {g : InterferenceGraph R} {x : String} {l : Location R}

/-- The new place of a pseudo register is the location of a node that was not merged. -/
theorem Linked.exists_of_mem_renames (h : g.Linked) (hx : (x, l) ∈ g.renames) :
    ∃ (a b : Nat) (m n : InterferenceNode R), g.nodes[a]? = some m ∧ m.location = .pseudo x ∧
      m.isMerged = true ∧ g.nodes[b]? = some n ∧ n.location = l ∧ n.isMerged = false := by
  obtain ⟨a, m, hm, hmerged, hlocation, hplace⟩ := mem_renames_iff.mp hx
  obtain ⟨b, hid, hb⟩ := Option.bind_eq_some_iff.mp hplace
  obtain ⟨n, hn, hactive⟩ := h.isActive_of_idOf? hid
  rw [location?, hn] at hb
  exact ⟨a, b, m, n, hm, hlocation, hmerged, hn, Option.some.inj hb, hactive⟩

/-- What is renamed is the name of a node. -/
theorem location_of_rename {m : InterferenceNode R} {x : String}
    (hx : (match m.isMerged, m.location with
      | true, .pseudo name =>
        ((g.idOf? m.location).bind g.location?).map fun place => (name, place)
      | _, _ => none).map Prod.fst = some x) : m.location = .pseudo x := by
  obtain ⟨⟨_, place⟩, hm, rfl⟩ := Option.map_eq_some_iff.mp hx
  split at hm
  · rename_i name _ hlocation
    obtain ⟨_, -, heq⟩ := Option.map_eq_some_iff.mp hm
    rw [hlocation, (Prod.mk.inj heq).1]
  · cases hm

theorem Linked.nodup_renames (h : g.Linked) : (g.renames.map Prod.fst).Nodup := by
  rw [renames, map_filterMap, Nodup, pairwise_filterMap]
  refine (pairwise_map.mp h.nodup_locations).imp fun {m n} hne x hx y hy hxy => hne ?_
  rw [location_of_rename hx, location_of_rename hy, hxy]

end InterferenceGraph

namespace MoveFunction

variable {R : Type} [Ord R] [Std.TransOrd R] [Std.LawfulEqOrd R] [DecidableEq R]
  {f : MoveFunction R} {x : String} {l : Location R}

/-! ### One round -/

/-- What one round of coalescing renames. -/
def roundRenames (f : MoveFunction R) : Renaming R :=
  allRenames (f.problem.coalesce f.problem.graphs)

def pseudos (f : MoveFunction R) : Finset String := f.pseudoNames.toFinset

omit [Ord R] [Std.TransOrd R] [Std.LawfulEqOrd R] in
theorem mem_pseudos_iff : x ∈ f.pseudos ↔ ∃ a ∈ f.problem.code, a.Names (.pseudo x) := by
  simp only [pseudos, pseudoNames, mem_toFinset, mem_filterMap, mem_flatMap,
    MoveInstr.locations, mem_append, problem, mem_map, Access.Names]
  constructor
  · rintro ⟨l, ⟨i, hi, hl⟩, hx⟩
    obtain rfl : l = .pseudo x := by cases l <;> simp_all [Location.pseudo?]
    exact ⟨_, ⟨i, hi, rfl⟩, hl.symm⟩
  · rintro ⟨_, ⟨i, hi, rfl⟩, hl⟩
    exact ⟨_, ⟨i, hi, hl.symm⟩, rfl⟩

/-- The graphs of a round have nodes for pseudo registers of the class that occur in the code.  A
register may be shared by classes, so of registers nothing is said. -/
theorem linked_of_mem_coalesce (f : MoveFunction R) :
    (f.problem.coalesce f.problem.graphs).map Prod.fst = f.problem.classes ∧
      ∀ y ∈ f.problem.coalesce f.problem.graphs, y.2.WellFormed ∧
        y.2.Within fun l => l.isPseudo = true → f.problem.Occurs y.1 l := by
  have hbuilt : ∀ y ∈ f.problem.graphs, y.2.WellFormed ∧
      y.2.Within fun l => l.isPseudo = true → f.problem.Occurs y.1 l := by
    intro y hy
    obtain ⟨c, -, rfl⟩ := mem_map.mp hy
    obtain ⟨hbuilt, -⟩ := built_interference
      (P := fun l => l.isPseudo = true → f.problem.Occurs c l) (nofun)
      fun l hl _ => hl
    exact ⟨hbuilt.wellFormed, hbuilt.within⟩
  obtain ⟨hclasses, hkept⟩ := coalesce_induction
    (fun c g => g.WellFormed ∧ g.Within fun l => l.isPseudo = true → f.problem.Occurs c l)
    (fun c g dst src hg => by
      rcases hg.1.coalesceMove_cases (f.problem.colours c).length dst src with
        heq | ⟨s, t, hmerge, heq⟩
      · rwa [heq]
      · rw [heq]
        exact ⟨hg.1.merge hmerge.source hmerge.target hmerge.ne
          (isPseudo_of_isPrecoloured_eq_false hmerge.pseudo), hg.2.merge⟩) hbuilt
  exact ⟨hclasses.trans ((map_map ..).trans (map_id _)), hkept⟩

/-- A pseudo register that is renamed occurs in the code.  Its new place is a register or occurs in
the code too, and is not renamed. -/
theorem mem_roundRenames (h : (x, l) ∈ f.roundRenames) :
    x ∈ f.pseudos ∧ ∀ y, l = .pseudo y → y ∈ f.pseudos ∧ y ∉ f.roundRenames.map Prod.fst := by
  have hgraphs := (linked_of_mem_coalesce f).2
  obtain ⟨⟨c, g⟩, hg, hx⟩ := mem_flatMap.mp h
  obtain ⟨a, b, m, n, hm, hmx, -, hn, rfl, hactive⟩ :=
    (hgraphs _ hg).1.toLinked.exists_of_mem_renames hx
  have hoccurs : ∀ {k : Nat} {m : InterferenceNode R} {z : String}, g.nodes[k]? = some m →
      m.location = .pseudo z → f.problem.classOf (.pseudo z) = some c ∧ z ∈ f.pseudos := by
    intro k m z hm hz
    obtain ⟨hclass, hnamed⟩ := (hgraphs _ hg).2 k m hm (by rw [hz]; rfl)
    rw [hz] at hclass hnamed
    exact ⟨hclass, mem_pseudos_iff.mpr (hnamed.resolve_left nofun)⟩
  refine ⟨(hoccurs hm hmx).2, fun y hy => ⟨(hoccurs hn hy).2, fun hrenamed => ?_⟩⟩
  -- Only the graph of its class could rename it, and there its node was not merged.
  obtain ⟨⟨_, l'⟩, hmem, rfl⟩ := mem_map.mp hrenamed
  obtain ⟨⟨c', g'⟩, hg', hy'⟩ := mem_flatMap.mp hmem
  obtain ⟨a', -, m', -, hm', hmy, hmerged, -⟩ :=
    (hgraphs _ hg').1.toLinked.exists_of_mem_renames hy'
  have hclass := ((hgraphs _ hg').2 a' m' hm' (by rw [hmy]; rfl)).1
  rw [hmy] at hclass
  obtain rfl : c = c' := Option.some.inj ((hoccurs hn hy).1.symm.trans hclass)
  have hnodup : ((f.problem.coalesce f.problem.graphs).map Prod.fst).Nodup := by
    rw [(linked_of_mem_coalesce f).1]
    exact nodup_range
  obtain rfl : g = g' := congrArg Prod.snd (inj_on_of_nodup_map hnodup hg hg' rfl)
  obtain rfl := (hgraphs _ hg).1.location_injective hn hm' (hy.trans hmy.symm)
  rw [hn] at hm'
  cases hm'
  rw [hactive] at hmerged
  cases hmerged

theorem nodup_roundRenames (f : MoveFunction R) : (f.roundRenames.map Prod.fst).Nodup := by
  obtain ⟨hclasses, hgraphs⟩ := linked_of_mem_coalesce f
  rw [roundRenames, allRenames, map_flatMap]
  refine nodup_flatMap.mpr ⟨fun y hy => (hgraphs y hy).1.toLinked.nodup_renames, ?_⟩
  have hdistinct : (f.problem.coalesce f.problem.graphs).Pairwise fun y z => y.1 ≠ z.1 := by
    refine pairwise_map.mp ?_
    rw [hclasses]
    exact nodup_range
  -- A pseudo register belongs to one class, so only one graph can rename it.
  have hclass : ∀ y ∈ f.problem.coalesce f.problem.graphs, ∀ x ∈ y.2.renames.map Prod.fst,
      f.problem.classOf (.pseudo x) = some y.1 := by
    intro y hy x hx
    obtain ⟨⟨_, l⟩, hmem, rfl⟩ := mem_map.mp hx
    obtain ⟨a, -, m, -, hm, hmx, -⟩ := (hgraphs y hy).1.toLinked.exists_of_mem_renames hmem
    exact hmx ▸ ((hgraphs y hy).2 a m hm (by rw [hmx]; rfl)).1
  refine hdistinct.imp_of_mem fun {y z} hy hz hne x hx hx' => hne ?_
  exact Option.some.inj ((hclass y hy x hx).symm.trans (hclass z hz x hx'))

/-- No renamed pseudo register is left, and none is new. -/
theorem pseudos_rename_subset (f : MoveFunction R) :
    (f.rename f.roundRenames).pseudos ⊆ f.pseudos \ (f.roundRenames.map Prod.fst).toFinset := by
  intro y hy
  obtain ⟨a', ha', hy⟩ := mem_pseudos_iff.mp hy
  obtain ⟨k, a, l, ha, hl, heq⟩ := exists_of_names_rename ha' hy
  rw [Finset.mem_sdiff, mem_toFinset]
  cases l with
  | reg r => cases heq
  | pseudo x =>
    cases hlookup : f.roundRenames.lookup x with
    | none =>
      rw [renamed, hlookup] at heq
      cases heq
      refine ⟨mem_pseudos_iff.mpr ⟨a, mem_of_getElem? ha, hl⟩, fun hrenamed => ?_⟩
      obtain ⟨⟨_, place⟩, hmem, rfl⟩ := mem_map.mp hrenamed
      simpa using lookup_eq_none_iff.mp hlookup _ hmem
    | some place =>
      rw [renamed, hlookup] at heq
      obtain ⟨before, after, hsplit, -⟩ := lookup_eq_some_iff.mp hlookup
      exact (mem_roundRenames (hsplit ▸ mem_append_right _ mem_cons_self)).2 y heq

theorem card_pseudos_rename (f : MoveFunction R) :
    (f.rename f.roundRenames).pseudos.card + f.roundRenames.length ≤ f.pseudos.card := by
  have hnames : (f.roundRenames.map Prod.fst).toFinset ⊆ f.pseudos := by
    intro x hx
    obtain ⟨⟨_, l⟩, hmem, rfl⟩ := mem_map.mp (mem_toFinset.mp hx)
    exact (mem_roundRenames hmem).1
  have hcard := Finset.card_le_card (pseudos_rename_subset f)
  have hlength := toFinset_card_of_nodup (nodup_roundRenames f)
  rw [Finset.card_sdiff_of_subset hnames, hlength, length_map] at hcard
  have hle := Finset.card_le_card hnames
  rw [hlength, length_map] at hle
  omega

/-! ### All rounds -/

/-- Rounds of coalescing until nothing is renamed any more: what each of them renames, and the
function that is left. -/
inductive CoalescesTo : MoveFunction R → List (Renaming R) → MoveFunction R → Prop
  | done {f : MoveFunction R} (h : f.roundRenames = []) : CoalescesTo f [] f
  | round {f g : MoveFunction R} {rounds : List (Renaming R)} (h : f.roundRenames ≠ [])
    (hrest : CoalescesTo (f.rename f.roundRenames) rounds g) :
    CoalescesTo f (f.roundRenames :: rounds) g

namespace CoalescesTo

variable {g : MoveFunction R} {rounds : List (Renaming R)}

theorem length_le (h : CoalescesTo f rounds g) : rounds.length ≤ f.pseudos.card := by
  induction h with
  | done => exact Nat.zero_le _
  | @round f g rounds hne hrest ih =>
    have hcard := card_pseudos_rename f
    have hpos := length_pos_iff.mpr hne
    rw [length_cons]
    omega

/-- What a round renames is not left for later ones. -/
theorem nodup (h : CoalescesTo f rounds g) : (rounds.flatten.map Prod.fst).Nodup ∧
    ∀ x ∈ rounds.flatten.map Prod.fst, x ∈ f.pseudos := by
  induction h with
  | done => simp
  | @round f g rounds hne hrest ih =>
    have hlater : ∀ x ∈ rounds.flatten.map Prod.fst,
        x ∈ f.pseudos ∧ x ∉ f.roundRenames.map Prod.fst := by
      intro x hx
      simpa only [Finset.mem_sdiff, mem_toFinset] using pseudos_rename_subset f (ih.2 x hx)
    rw [flatten_cons, map_append]
    refine ⟨nodup_append.mpr ⟨nodup_roundRenames f, ih.1, ?_⟩, fun x hx => ?_⟩
    · rintro x hx y hy rfl
      exact (hlater x hy).2 hx
    · rcases mem_append.mp hx with hx | hx
      · obtain ⟨⟨_, l⟩, hmem, rfl⟩ := mem_map.mp hx
        exact (mem_roundRenames hmem).1
      · exact (hlater x hx).1

end CoalescesTo

/-- The rounds that are allowed are enough: there is one for each pseudo register, and without
pseudo registers nothing is renamed. -/
theorem coalescesTo_coalesceRounds (fuel : Nat) (f : MoveFunction R) (count : Nat)
    (hfuel : f.pseudos.card ≤ fuel) :
    ∃ rounds, CoalescesTo f rounds (coalesceRounds fuel f count).function ∧
      (coalesceRounds fuel f count).count = count + rounds.flatten.length := by
  have hcard := card_pseudos_rename f
  induction fuel generalizing f count with
  | zero =>
    have hnone : f.roundRenames = [] := length_eq_zero_iff.mp (by omega)
    exact ⟨[], .done hnone, rfl⟩
  | succ fuel ih =>
    cases hrenames : f.roundRenames with
    | nil =>
      rw [coalesceRounds.eq_2 f count _ fun _ _ _ _ hcons => nomatch hrenames.symm.trans hcons]
      exact ⟨[], .done hrenames, rfl⟩
    | cons y ys =>
      have hpos : 0 < f.roundRenames.length := by simp [hrenames]
      obtain ⟨rounds, hrounds, hcount⟩ := ih (f.rename f.roundRenames)
        (count + f.roundRenames.length) (by omega) (card_pseudos_rename _)
      rw [coalesceRounds.eq_1 f count fuel y ys hrenames]
      refine ⟨f.roundRenames :: rounds, .round (by simp [hrenames]) hrounds, hcount.trans ?_⟩
      rw [flatten_cons, length_append, Nat.add_assoc]

omit [Ord R] [Std.TransOrd R] [Std.LawfulEqOrd R] in
theorem card_pseudos_le_pseudoUses (f : MoveFunction R) :
    f.pseudos.card ≤ f.problem.pseudoUses := by
  refine (toFinset_card_le _).trans (Nat.le_of_eq ?_)
  unfold pseudoNames pseudoUses problem
  induction f.body with
  | nil => rfl
  | cons i rest ih =>
    simp only [flatMap_cons, filterMap_append, length_append, ih, map_cons,
      filter_append, MoveInstr.locations]
    have hlength (ls : List (Location R)) :
        (ls.filterMap Location.pseudo?).length = (ls.filter Location.isPseudo).length := by
      rw [length_filterMap_eq_countP, countP_eq_length_filter]
      rfl
    rw [hlength, hlength]
    omega

/-- Coalescing ends.  A round that renames anything leaves fewer pseudo registers than it found, and
what it renames goes to places that it does not rename.  Allocation runs rounds until one renames
nothing, so there is at most one more than there are pseudo registers.  No pseudo register is
renamed twice, and the number that is reported counts them. -/
theorem coalescing_ends (f : MoveFunction R) :
    (∀ g : MoveFunction R, g.roundRenames ≠ [] →
      (g.rename g.roundRenames).pseudos.card < g.pseudos.card) ∧
    (∀ g : MoveFunction R, ∀ x l, (x, l) ∈ g.roundRenames →
      ∀ y, l = .pseudo y → y ∉ g.roundRenames.map Prod.fst) ∧
    ∃ rounds, CoalescesTo f rounds (allocate f).1 ∧ rounds.length ≤ f.pseudos.card ∧
      (rounds.flatten.map Prod.fst).Nodup ∧
      (allocate f).2.coalesced = (rounds.flatten.map Prod.fst).length := by
  refine ⟨fun g hg => ?_, fun g x l hx y hy => ((mem_roundRenames hx).2 y hy).2, ?_⟩
  · have hcard := card_pseudos_rename g
    have hpos := length_pos_iff.mpr hg
    omega
  · obtain ⟨rounds, hrounds, hcount⟩ := coalescesTo_coalesceRounds f.problem.pseudoUses f 0
      (card_pseudos_le_pseudoUses f)
    refine ⟨rounds, hrounds, hrounds.length_le, hrounds.nodup.1, ?_⟩
    rw [length_map, ← Nat.zero_add rounds.flatten.length, ← hcount]
    rfl

theorem crowdedLoop_coalescing_ends : crowdedLoop.roundRenames ≠ [] ∧
    (crowdedLoop.rename crowdedLoop.roundRenames).pseudos.card < crowdedLoop.pseudos.card ∧
    ∃ rounds, CoalescesTo crowdedLoop rounds (allocate crowdedLoop).1 ∧
      (rounds.flatten.map Prod.fst).Nodup ∧
      (allocate crowdedLoop).2.coalesced = (rounds.flatten.map Prod.fst).length := by
  have hrenames : crowdedLoop.roundRenames ≠ [] := by decide +kernel
  obtain ⟨hless, -, rounds, hrounds, -, hnodup, hcoalesced⟩ := coalescing_ends crowdedLoop
  exact ⟨hrenames, hless _ hrenames, rounds, hrounds, hnodup, hcoalesced⟩

end MoveFunction

end ThreeAddress
