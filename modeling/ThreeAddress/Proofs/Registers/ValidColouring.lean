import ThreeAddress.Proofs.Registers.GraphOperations
import ThreeAddress.Registers.Colouring

/-!
# Colourings are valid

Registers are handed out one node after another, and a node is never given a register that one of
its neighbours has.  The order in which nodes are removed only decides who is served first.
-/

namespace ThreeAddress.InterferenceGraph

open List Array

variable {R : Type} {g : InterferenceGraph R} {colours : List R}
variable {n : Nat}

/-! ### The order of removal -/

theorem foldl_cheaper_mem (degrees : Array Nat) (first : Nat) (others : List Nat) :
    others.foldl (g.cheaper degrees) first ∈ first :: others := by
  induction others generalizing first with
  | nil => simp
  | cons n rest ih =>
    rw [foldl_cons]
    have hcheaper : g.cheaper degrees first n = n ∨ g.cheaper degrees first n = first :=
      ite_eq_or_eq _ _ _
    have hmem := ih (g.cheaper degrees first n)
    rcases hcheaper with heq | heq <;> rw [heq] at hmem ⊢ <;>
      rcases mem_cons.mp hmem with hmem | hmem <;> simp [hmem]

theorem nextRemoval_mem (k : Nat) (degrees : Array Nat) (first : Nat) (others : List Nat) :
    g.nextRemoval k degrees first others ∈ first :: others := by
  unfold nextRemoval
  cases hfind : (first :: others).find? fun n => degrees.getD n 0 < k with
  | none => exact foldl_cheaper_mem degrees first others
  | some n => exact mem_of_find?_eq_some hfind

theorem mem_removeAll {k fuel : Nat} {degrees : Array Nat} {remaining removed : List Nat}
    (h : n ∈ g.removeAll k fuel degrees remaining removed) : n ∈ remaining ∨ n ∈ removed := by
  induction fuel generalizing degrees remaining removed with
  | zero => exact .inr h
  | succ fuel ih =>
    cases remaining with
    | nil => exact .inr h
    | cons first others =>
      rcases ih h with hn | hn
      · exact .inl (mem_of_mem_erase hn)
      · rcases mem_cons.mp hn with rfl | hn
        · exact .inl (nextRemoval_mem k degrees first others)
        · exact .inr hn

theorem mem_removalOrder {k : Nat} (h : n ∈ g.removalOrder k) :
    g.IsActive n ∧ g.isPrecoloured n = false := by
  have hmem := (mem_removeAll h).resolve_right not_mem_nil
  obtain ⟨hlive, hpseudo⟩ := mem_filter.mp hmem
  obtain ⟨hrange, hmerged⟩ := mem_filter.mp hlive
  have hlt : n < g.nodes.size := mem_range.mp hrange
  have hget : g.nodes[n]? = some g.nodes[n] := getElem?_eq_getElem hlt
  exact ⟨⟨g.nodes[n], hget, by simpa [isMerged, hget] using hmerged⟩, by simpa using hpseudo⟩

/-! ### Handing out registers -/

/-- No two neighbours have the same register, machine registers have their own, and pseudo registers
have one of those that may be handed out. -/
structure IsColouring (g : InterferenceGraph R) (colours : List R) (assigned : Assigned R) :
    Prop where
  valid : ∀ {a b : Nat} {r : R}, b ∈ g.neighbours a → assigned.getD a none = some r →
    assigned.getD b none ≠ some r
  register : ∀ {n : Nat} {m : InterferenceNode R} {r : R}, g.nodes[n]? = some m →
    m.location = .reg r → assigned.getD n none = some r
  pseudo : ∀ {n : Nat} {m : InterferenceNode R} {r : R}, g.nodes[n]? = some m →
    m.location.isPseudo = true → assigned.getD n none = some r → r ∈ colours

theorem getD_precoloured {m : InterferenceNode R} (hm : g.nodes[n]? = some m) {r : R} :
    g.precoloured.getD n none = some r ↔ m.location = .reg r ∧ m.isMerged = false := by
  rw [precoloured, getD_eq_getD_getElem?, Array.getElem?_map, hm]
  cases hl : m.location with
  | reg s => cases hmerged : m.isMerged <;> simp [hl, hmerged]
  | pseudo name => simp [hl]

/-- Serving a node gives it a register that no neighbour has, or finds that the neighbours have all
of them. -/
theorem assign_cases [DecidableEq R] (g : InterferenceGraph R) (colours : List R)
    (assigned : Assigned R) (n : Nat) :
    (∃ r ∈ colours, (∀ m ∈ g.neighbours n, assigned.getD m none ≠ some r) ∧
      g.assign colours assigned n = assigned.setIfInBounds n (some r)) ∨
    ((∀ r ∈ colours, ∃ m ∈ g.neighbours n, assigned.getD m none = some r) ∧
      g.assign colours assigned n = assigned) := by
  unfold assign
  simp only
  cases hfind : colours.find? fun r =>
      !((g.neighbours n).toList.filterMap fun m => assigned.getD m none).contains r with
  | some r =>
    refine .inl ⟨r, mem_of_find?_eq_some hfind, fun m hm hmr => ?_, rfl⟩
    have hfree := find?_some hfind
    simp only [Bool.not_eq_true', List.contains_eq_mem, decide_eq_false_iff_not,
      List.mem_filterMap, Std.ExtTreeSet.mem_toList, not_exists, not_and] at hfree
    exact hfree m hm hmr
  | none =>
    refine .inr ⟨fun r hr => ?_, rfl⟩
    have htaken := find?_eq_none.mp hfind r hr
    simpa only [List.contains_eq_mem, Bool.not_eq_true', decide_eq_false_iff_not, not_not,
      List.mem_filterMap, Std.ExtTreeSet.mem_toList] using htaken

theorem bind_pseudo?_eq_some {name : String} :
    (g.location? n).bind Location.pseudo? = some name ↔ g.location? n = some (.pseudo name) := by
  cases g.location? n with
  | none => simp
  | some l => cases l <;> simp [Location.pseudo?]

/-- A pseudo register that is served has a node that still takes part. -/
theorem exists_of_mem_named {k : Nat} {assigned : Assigned R} {name : String} {r : Option R}
    (h : (name, r) ∈ (g.removalOrder k).filterMap fun n =>
      ((g.location? n).bind Location.pseudo?).map fun name => (name, assigned.getD n none)) :
    ∃ (n : Nat) (m : InterferenceNode R), n ∈ g.removalOrder k ∧ g.nodes[n]? = some m ∧
      m.isMerged = false ∧ m.location = .pseudo name ∧ assigned.getD n none = r := by
  obtain ⟨n, hn, hname⟩ := mem_filterMap.mp h
  obtain ⟨_, hx, heq⟩ := Option.map_eq_some_iff.mp hname
  cases heq
  obtain ⟨m, hm, hlocation⟩ := Option.map_eq_some_iff.mp (bind_pseudo?_eq_some.mp hx)
  obtain ⟨⟨m', hm', hmerged⟩, -⟩ := mem_removalOrder hn
  obtain rfl := Option.some.inj (hm'.symm.trans hm)
  exact ⟨n, m', hn, hm, hmerged, hlocation, rfl⟩

namespace WellFormed

theorem isColouring_precoloured (h : g.WellFormed) : g.IsColouring colours g.precoloured where
  valid := by
    intro a b r hb ha hb'
    obtain ⟨m, hm, -⟩ := h.active hb
    obtain ⟨n, hn, -⟩ := h.active (h.symmetric hb)
    have hlocation : n.location = m.location :=
      ((getD_precoloured hn).mp ha).1.trans ((getD_precoloured hm).mp hb').1.symm
    obtain rfl := h.location_injective hn hm hlocation
    exact h.irreflexive hb
  register := by
    intro n m r hm hr
    exact (getD_precoloured hm).mpr ⟨hr, h.isMerged_of_reg hm hr⟩
  pseudo := by
    intro n m r hm hpseudo hr
    rw [((getD_precoloured hm).mp hr).1] at hpseudo
    cases hpseudo

variable [DecidableEq R]

theorem isColouring_assign (h : g.WellFormed) {assigned : Assigned R}
    (hassigned : g.IsColouring colours assigned) (hn : g.isPrecoloured n = false) :
    g.IsColouring colours (g.assign colours assigned n) := by
  rcases assign_cases g colours assigned n with ⟨r, hmem, hfree, heq⟩ | ⟨-, heq⟩
  · rw [heq]
    -- Only the node itself has changed.
    have hget : ∀ {a : Nat} {s : R}, (assigned.setIfInBounds n (some r)).getD a none = some s →
        (a = n ∧ s = r) ∨ assigned.getD a none = some s := by
      intro a s ha
      rw [getD_eq_getD_getElem?, getElem?_setIfInBounds] at ha
      split at ha
      · rename_i hna
        split at ha
        · exact .inl ⟨hna.symm, by simpa using ha.symm⟩
        · simp at ha
      · exact .inr (by rwa [getD_eq_getD_getElem?])
    have hother : ∀ {a : Nat}, a ≠ n →
        (assigned.setIfInBounds n (some r)).getD a none = assigned.getD a none := by
      intro a ha
      rw [getD_eq_getD_getElem?, getElem?_setIfInBounds_ne (.symm ha), ← getD_eq_getD_getElem?]
    refine ⟨fun {a b s} hb ha hb' => ?_, fun {a m s} hm hs => ?_, fun {a m s} hm hpseudo hs => ?_⟩
    · rcases hget ha with ⟨rfl, rfl⟩ | hold
      · rcases hget hb' with ⟨rfl, -⟩ | hold'
        · exact h.irreflexive hb
        · exact hfree b hb hold'
      · rcases hget hb' with ⟨rfl, rfl⟩ | hold'
        · exact hfree a (h.symmetric hb) hold
        · exact hassigned.valid hb hold hold'
    · have hne : a ≠ n := by
        rintro rfl
        have := isPseudo_of_isPrecoloured_eq_false hn m hm
        rw [hs] at this
        cases this
      rw [hother hne]
      exact hassigned.register hm hs
    · rcases hget hs with ⟨-, rfl⟩ | hs
      · exact hmem
      · exact hassigned.pseudo hm hpseudo hs
  · rwa [heq]

def assignedRegisters (g : InterferenceGraph R) (colours : List R) : Assigned R :=
  (g.removalOrder colours.length).foldl (g.assign colours) g.precoloured

/-- The registers that are handed out are a colouring. -/
theorem isColouring_assigned (h : g.WellFormed) (colours : List R) :
    g.IsColouring colours (assignedRegisters g colours) :=
  foldlRecOn _ _ h.isColouring_precoloured
    fun _ hassigned _ hn => h.isColouring_assign hassigned (mem_removalOrder hn).2

/-- A pseudo register that is given a register has a node that still takes part. -/
theorem exists_of_mem_registers {name : String} {r : R}
    (hmem : (name, r) ∈ (g.colour colours).registers) :
    ∃ (n : Nat) (m : InterferenceNode R), g.nodes[n]? = some m ∧ m.isMerged = false ∧
      m.location = .pseudo name ∧ (assignedRegisters g colours).getD n none = some r := by
  obtain ⟨⟨_, _⟩, hnamed, hr⟩ := mem_filterMap.mp hmem
  obtain ⟨_, rfl, heq⟩ := Option.map_eq_some_iff.mp hr
  cases heq
  obtain ⟨n, m, -, hnode⟩ := exists_of_mem_named hnamed
  exact ⟨n, m, hnode⟩

end WellFormed

end ThreeAddress.InterferenceGraph
