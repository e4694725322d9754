import ThreeAddress.Proofs.Registers.Cores
import ThreeAddress.Proofs.Registers.ValidColouring

/-!
# Colourings without spills

A graph without a core is coloured completely.  While nodes remain, one of them has fewer neighbours
left than there are registers, and such a node is taken out next.  When registers are handed out in
the reverse order, the neighbours that have one already are those that were left, so they leave one
free.
-/

namespace ThreeAddress.InterferenceGraph

open List Finset Array Option

variable {R : Type} {g : InterferenceGraph R} {k n : Nat}
variable {removed : List Nat}

/-! ### Taking nodes out -/

theorem getD_foldl_modify_pred {places : List Nat} (hnodup : places.Nodup) (counts : Array Nat)
    (m : Nat) :
    (places.foldl (fun counts m => counts.modify m (· - 1)) counts).getD m 0 =
      counts.getD m 0 - if m ∈ places then 1 else 0 := by
  induction places generalizing counts with
  | nil => rfl
  | cons p rest ih =>
    obtain ⟨hp, hrest⟩ := nodup_cons.mp hnodup
    rw [foldl_cons, ih hrest, getD_eq_getD_getElem?, Array.getElem?_modify,
      getD_eq_getD_getElem?]
    by_cases hpm : p = m
    · subst hpm
      cases counts[p]? with
      | none => simp [hp]
      | some count => simp [hp]
    · simp [hpm, Ne.symm hpm]

theorem card_filter_around_cons (h : g.WellFormed) (hn : n ∉ removed) (m : Nat) :
    ((g.around m).filter (· ∉ n :: removed)).card =
      ((g.around m).filter (· ∉ removed)).card - if m ∈ (g.neighbours n).toList then 1 else 0 := by
  have herase : (g.around m).filter (· ∉ n :: removed) =
      ((g.around m).filter (· ∉ removed)).erase n := by
    ext x
    simp only [Finset.mem_filter, List.mem_cons, not_or, mem_erase]
    tauto
  rw [herase]
  by_cases hm : m ∈ g.neighbours n
  · have hmem : n ∈ (g.around m).filter (· ∉ removed) :=
      mem_filter.mpr ⟨mem_around.mpr (h.symmetric hm), hn⟩
    rw [card_erase_of_mem hmem, if_pos (Std.ExtTreeSet.mem_toList.mpr hm)]
  · have hmem : n ∉ (g.around m).filter (· ∉ removed) := fun hmem =>
      hm (h.symmetric (mem_around.mp (Finset.mem_filter.mp hmem).1))
    rw [erase_eq_of_notMem hmem, if_neg (by rwa [Std.ExtTreeSet.mem_toList]), Nat.sub_zero]

/-- The state in which nodes are taken out: every pseudo register remains or was removed, and the
degrees count the neighbours that are left. -/
structure Removing (g : InterferenceGraph R) (k : Nat) (degrees : Array Nat)
    (remaining removed : List Nat) : Prop where
  removable : g.Removable k removed
  nodup : remaining.Nodup
  new : ∀ n ∈ remaining, g.IsPseudoNode n ∧ n ∉ removed
  all : ∀ n, g.IsPseudoNode n → n ∈ remaining ∨ n ∈ removed
  degree : ∀ n ∈ remaining, degrees.getD n 0 = ((g.around n).filter (· ∉ removed)).card

/-- As long as nodes remain, one of them has few neighbours left: all of them together would be a
core. -/
theorem Removing.getD_nextRemoval_lt (hno : g.NoCore k) (h : g.WellFormed) {degrees : Array Nat}
    {first : Nat} {others : List Nat} (hstate : g.Removing k degrees (first :: others) removed) :
    degrees.getD (g.nextRemoval k degrees first others) 0 < k := by
  unfold nextRemoval
  cases hfind : (first :: others).find? fun n => degrees.getD n 0 < k with
  | some n => simpa using find?_some hfind
  | none =>
    have hmany : ∀ n ∈ first :: others, k ≤ degrees.getD n 0 := by
      simpa using find?_eq_none.mp hfind
    have hcore : g.IsCore k (first :: others).toFinset := by
      refine ⟨fun n hn => (hstate.new n (mem_toFinset.mp hn)).1, fun n hn => ?_⟩
      have hn' := mem_toFinset.mp hn
      have hle := hmany n hn'
      rw [hstate.degree n hn'] at hle
      refine hle.trans (card_le_card fun m hm => ?_)
      obtain ⟨hm, hleft⟩ := Finset.mem_filter.mp hm
      refine Finset.mem_filter.mpr ⟨hm, ?_⟩
      by_cases hhard : g.isPrecoloured m = true
      · exact .inr hhard
      · have hpseudo : g.IsPseudoNode m := ⟨h.active (mem_around.mp hm), by simpa using hhard⟩
        exact .inl (mem_toFinset.mpr ((hstate.all m hpseudo).resolve_right hleft))
    have hempty := hno _ hcore
    simp at hempty

theorem Removing.removable_removeAll (hno : g.NoCore k) (h : g.WellFormed) (fuel : Nat)
    {degrees : Array Nat} {remaining : List Nat} (hstate : g.Removing k degrees remaining removed) :
    g.Removable k (g.removeAll k fuel degrees remaining removed) := by
  induction fuel generalizing degrees remaining removed with
  | zero => exact hstate.removable
  | succ fuel ih =>
    cases remaining with
    | nil => exact hstate.removable
    | cons first others =>
      let n := g.nextRemoval k degrees first others
      have hmem : n ∈ first :: others := nextRemoval_mem k degrees first others
      obtain ⟨hpseudo, hnew⟩ := hstate.new n hmem
      have hfew : degrees.getD n 0 < k := hstate.getD_nextRemoval_lt hno h
      rw [hstate.degree n hmem] at hfew
      refine ih ⟨.cons hpseudo hnew hfew hstate.removable, hstate.nodup.erase n, fun m hm => ?_,
        fun m hm => ?_, fun m hm => ?_⟩
      · obtain ⟨hne, hm⟩ := (hstate.nodup.mem_erase_iff).mp hm
        obtain ⟨hpseudo', hnew'⟩ := hstate.new m hm
        exact ⟨hpseudo', by simp [hne, hnew']⟩
      · by_cases hmn : m = n
        · exact .inr (hmn ▸ mem_cons_self)
        · rcases hstate.all m hm with hm | hm
          · exact .inl ((List.mem_erase_of_ne hmn).mpr hm)
          · exact .inr (mem_cons_of_mem _ hm)
      · rw [getD_foldl_modify_pred (nodup_toList _), hstate.degree m (mem_of_mem_erase hm),
          card_filter_around_cons h hnew]

theorem mem_filter_liveNodes :
    n ∈ (g.liveNodes.filter fun n => !g.isPrecoloured n) ↔ g.IsPseudoNode n := by
  rw [List.mem_filter, liveNodes, List.mem_filter, IsPseudoNode, IsActive, isMerged]
  by_cases hn : n < g.nodes.size
  · simp [size, hn]
  · simp [size, hn]

theorem NoCore.removable_removalOrder (hno : g.NoCore k) (h : g.WellFormed) :
    g.Removable k (g.removalOrder k) := by
  refine Removing.removable_removeAll hno h _ ⟨.nil, (nodup_range.filter _).filter _,
      fun n hn => ⟨mem_filter_liveNodes.mp hn, not_mem_nil⟩,
      fun n hn => .inl (mem_filter_liveNodes.mpr hn), fun n hn => ?_⟩
  have hlt : n < g.size := (mem_filter_liveNodes.mp hn).1.lt_size
  simp [getD_eq_getD_getElem?, hlt, card_around]

/-! ### Handing out registers -/

section

variable [DecidableEq R] {colours : List R} {assigned : Assigned R}

theorem getD_foldl_assign {order : List Nat} (hn : n ∉ order) :
    (order.foldl (g.assign colours) assigned).getD n none = assigned.getD n none := by
  induction order generalizing assigned with
  | nil => rfl
  | cons m rest ih =>
    obtain ⟨hne, hrest⟩ := not_or.mp (mem_cons.not.mp hn)
    rw [foldl_cons, ih hrest]
    rcases assign_cases g colours assigned m with ⟨r, -, -, heq⟩ | ⟨-, heq⟩
    · rw [heq, getD_eq_getD_getElem?, getElem?_setIfInBounds_ne (.symm hne),
        ← getD_eq_getD_getElem?]
    · rw [heq]

theorem exists_assign_eq (hnodup : colours.Nodup) {rest : List Nat}
    (hrest : ∀ m ∈ rest, assigned.getD m none = none)
    (hfew : ((g.around n).filter (· ∉ rest)).card < colours.length) :
    ∃ r, g.assign colours assigned n = assigned.setIfInBounds n (some r) := by
  rcases assign_cases g colours assigned n with ⟨r, -, -, heq⟩ | ⟨hall, -⟩
  · exact ⟨r, heq⟩
  · exfalso
    -- All registers would be taken, each by a neighbour that is not among the rest.
    have htaken : ∀ r ∈ colours, ∃ m ∈ (g.around n).filter (· ∉ rest),
        assigned.getD m none = some r := by
      intro r hr
      obtain ⟨m, hm, hmr⟩ := hall r hr
      refine ⟨m, mem_filter.mpr ⟨mem_around.mpr hm, fun hmem => ?_⟩, hmr⟩
      rw [hrest m hmem] at hmr
      cases hmr
    choose! owner howner hassigned using htaken
    have hle : colours.toFinset.card ≤ ((g.around n).filter (· ∉ rest)).card := by
      refine card_le_card_of_injOn owner (fun r hr => ?_) fun r hr r' hr' heq => ?_
      · exact howner r (mem_toFinset.mp hr)
      · have hr := hassigned r (mem_toFinset.mp hr)
        rw [heq, hassigned r' (mem_toFinset.mp hr')] at hr
        exact (some.inj hr).symm
    rw [toFinset_card_of_nodup hnodup] at hle
    omega

/-- Nodes that were taken out with few neighbours left all find a register. -/
theorem Removable.isSome_foldl_assign (hnodup : colours.Nodup) {order : List Nat}
    (h : g.Removable colours.length order) (hsize : assigned.size = g.size)
    (hnone : ∀ n ∈ order, assigned.getD n none = none) :
    ∀ n ∈ order, ((order.foldl (g.assign colours) assigned).getD n none).isSome := by
  induction h generalizing assigned with
  | nil => simp
  | @cons n rest hn hnew hfew _ ih =>
    obtain ⟨hnode, hrest⟩ := forall_mem_cons.mp hnone
    obtain ⟨r, hr⟩ := exists_assign_eq hnodup hrest hfew
    rw [foldl_cons, hr]
    refine forall_mem_cons.mpr ⟨?_, ih (by simpa using hsize) fun m hm => ?_⟩
    · rw [getD_foldl_assign hnew]
      simp [getD_eq_getD_getElem?, hsize, hn.1.lt_size]
    · have hne : n ≠ m := fun heq => hnew (heq ▸ hm)
      rw [getD_eq_getD_getElem?, getElem?_setIfInBounds_ne hne, ← getD_eq_getD_getElem?, hrest m hm]

theorem exists_of_mem_spilled {name : String} (h : name ∈ (g.colour colours).spilled) :
    ∃ (n : Nat) (m : InterferenceNode R), n ∈ g.removalOrder colours.length ∧
      g.nodes[n]? = some m ∧ m.location = .pseudo name ∧
      (WellFormed.assignedRegisters g colours).getD n none = none := by
  obtain ⟨⟨x, r⟩, hnamed, hspilled⟩ := mem_filterMap.mp (mem_mergeSort.mp h)
  obtain ⟨rfl, rfl⟩ : r = none ∧ x = name := by
    rwa [ite_none_right_eq_some, isNone_iff_eq_none, some.injEq] at hspilled
  obtain ⟨n, m, hn, hm, -, hnode⟩ := exists_of_mem_named hnamed
  exact ⟨n, m, hn, hm, hnode⟩

omit [DecidableEq R] in
theorem getD_precoloured_of_mem_removalOrder (hn : n ∈ g.removalOrder k) :
    g.precoloured.getD n none = none := by
  obtain ⟨⟨m, hm, -⟩, hpseudo⟩ := mem_removalOrder hn
  refine eq_none_iff_forall_ne_some.mpr fun r hr => ?_
  have hlocation := isPseudo_of_isPrecoloured_eq_false hpseudo m hm
  rw [((getD_precoloured hm).mp hr).1] at hlocation
  cases hlocation

/-- A graph without a core is coloured completely. -/
theorem NoCore.spilled_colour (hno : g.NoCore colours.length) (h : g.WellFormed)
    (hnodup : colours.Nodup) : (g.colour colours).spilled = [] := by
  refine eq_nil_iff_forall_not_mem.mpr fun name hname => ?_
  obtain ⟨n, -, hn, -, -, hassigned⟩ := exists_of_mem_spilled hname
  have hsome := (hno.removable_removalOrder h).isSome_foldl_assign hnodup
    (by simp [precoloured, size]) (fun _ => getD_precoloured_of_mem_removalOrder) n hn
  rw [show (g.removalOrder colours.length).foldl (g.assign colours) g.precoloured =
    WellFormed.assignedRegisters g colours from rfl, hassigned] at hsome
  cases hsome

end

end ThreeAddress.InterferenceGraph
