import Mathlib.Algebra.Order.BigOperators.Group.Finset
import ThreeAddress.Proofs.Optimise.CopyLockstep

/-!
# The end of the search for copies

What is known at the end of a block only shrinks after its first visit, if two things are granted.
No two variables are copied to each other, since a copy is passed over if its reverse is known, and
then more at the start of a block need not mean more at its end.  And every block that is entered at
all is entered from the entry or from a block before it, since a block whose predecessors were not
visited starts with no copies and may gain some later.  Every end that shrinks loses a copy that the
code makes, so the search ends.  Without either it may circle forever.
-/

namespace ThreeAddress

open List FlowGraph Finset

/-! ### The copies of a body -/

/-- The copies that instructions make known. -/
def recordedCopies (body : Listing Instr) : Copies :=
  body.filterMap fun
    | .copy dst src => if dst.type = src.type ∧ src ≠ .var dst then some ⟨dst, src⟩ else none
    | _ => none

theorem mem_recordedCopies {body : Listing Instr} {c : Copy} : c ∈ recordedCopies body ↔
      .copy c.dst c.src ∈ body ∧ c.dst.type = c.src.type ∧ c.src ≠ .var c.dst := by
  simp only [recordedCopies, List.mem_filterMap]
  constructor
  · rintro ⟨i, hi, hc⟩
    cases i with
    | copy dst src =>
      obtain ⟨hcopy, hc⟩ := Option.ite_none_right_eq_some.mp hc
      cases hc
      exact ⟨hi, hcopy⟩
    | _ => cases hc
  · rintro ⟨hi, hcopy⟩
    exact ⟨_, hi, if_pos hcopy⟩

/-- No two variables are copied to each other. -/
def NoOpposites (body : Listing Instr) : Prop :=
  ∀ c ∈ recordedCopies body, ∀ c' ∈ recordedCopies body, c.src = .var c'.dst → c'.src ≠ .var c.dst

instance (body : Listing Instr) : Decidable (NoOpposites body) :=
  inferInstanceAs (Decidable (∀ _ ∈ _, ∀ _ ∈ _, _ → _))

namespace Copies

variable {aliased : NameSet} {body block : Listing Instr} {known known' : Copies} {i : Instr}

theorem knows_iff (hbody : NoOpposites body) (hknown : known ⊆ recordedCopies body)
    {dst : Variable} {src : Value} (hi : .copy dst src ∈ body) :
    known.knows dst src = true ↔ src = .var dst ∨ ⟨dst, src⟩ ∈ known := by
  simp only [knows, Bool.or_eq_true, beq_iff_eq, contains_iff_mem]
  refine ⟨fun h => h.elim id fun hreverse => ?_, .inl⟩
  cases src with
  | const c => cases hreverse
  | var v =>
    -- If the reverse were known, it would be a copy of the body.
    have hmem := hknown (contains_iff_mem.mp hreverse)
    obtain ⟨-, htype, hne⟩ := mem_recordedCopies.mp hmem
    refine absurd rfl (hbody _ hmem ⟨dst, .var v⟩ (mem_recordedCopies.mpr ⟨hi, htype.symm, ?_⟩) rfl)
    exact fun h => hne (by rw [Value.var.inj h])

theorem after_subset_recordedCopies (hknown : known ⊆ recordedCopies body) (hi : i ∈ body) :
    known.after aliased i ⊆ recordedCopies body := by
  unfold after
  split
  · exact hknown
  · intro c hc
    rcases mem_transfer hc with hc | ⟨dst, src, rfl, hcopy⟩
    · exact hknown (mem_surviving.mp hc).1
    · obtain ⟨htype, hne, rfl⟩ := hcopy
      exact mem_recordedCopies.mpr ⟨hi, htype, hne⟩

theorem surviving_subset (h : known ⊆ known') :
    known.surviving aliased i ⊆ known'.surviving aliased i := fun _ hc =>
  mem_surviving.mpr ((mem_surviving.mp hc).imp_left fun hmem => h hmem)

theorem transfer_subset (h : known ⊆ known') :
    known.transfer aliased i ⊆ known'.transfer aliased i := by
  cases i with
  | copy dst src =>
    simp only [transfer]
    split
    · exact cons_subset_cons _ (surviving_subset h)
    · exact surviving_subset h
  | _ =>
    simp only [transfer]
    exact surviving_subset h

/-- More before an instruction means more after it.  If only the larger set passes a copy over, it
has that copy. -/
theorem after_subset (hbody : NoOpposites body) (hi : i ∈ body)
    (hknown' : known' ⊆ recordedCopies body) (h : known ⊆ known') :
    known.after aliased i ⊆ known'.after aliased i := by
  have hknown := Subset.trans h hknown'
  unfold after
  cases i with
  | copy dst src =>
    simp only [makesRedundant, knows_iff hbody hknown hi, knows_iff hbody hknown' hi]
    by_cases hredundant : src = .var dst ∨ ⟨dst, src⟩ ∈ known
    · rw [if_pos hredundant, if_pos (hredundant.imp_right fun hmem => h hmem)]
      exact h
    · -- A copy that only the larger set passes over is in it, so nothing is lost by that.
      rw [if_neg hredundant]
      split
      · rename_i hredundant'
        intro c hc
        rcases mem_transfer hc with hc | ⟨_, _, ⟨⟩, -, -, rfl⟩
        · exact h (mem_surviving.mp hc).1
        · exact hredundant'.resolve_left fun hself => hredundant (.inl hself)
      · exact transfer_subset h
  | _ =>
    simp only [makesRedundant, Bool.false_eq_true, if_false]
    exact transfer_subset h

theorem through_subset_recordedCopies (hblock : ∀ i ∈ block, i ∈ body)
    (hknown : known ⊆ recordedCopies body) :
    through aliased block known ⊆ recordedCopies body := by
  induction block generalizing known with
  | nil => exact hknown
  | cons i rest ih =>
    obtain ⟨hi, hrest⟩ := forall_mem_cons.mp hblock
    exact ih hrest (after_subset_recordedCopies hknown hi)

/-- More at the start of a block means more at its end. -/
theorem through_subset (hbody : NoOpposites body) (hblock : ∀ i ∈ block, i ∈ body)
    (hknown' : known' ⊆ recordedCopies body) (h : known ⊆ known') :
    through aliased block known ⊆ through aliased block known' := by
  induction block generalizing known known' with
  | nil => exact h
  | cons i rest ih =>
    obtain ⟨hi, hrest⟩ := forall_mem_cons.mp hblock
    exact ih hrest (after_subset_recordedCopies hknown' hi) (after_subset hbody hi hknown' h)

end Copies

/-! ### Visits -/

/-- Every block that is entered at all is entered from the entry or from a block before it. -/
def FlowGraph.EnteredInOrder (g : FlowGraph) : Prop :=
  ∀ n < g.size, g.predecessors (.block n) = [] ∨ .entry ∈ g.predecessors (.block n) ∨
    ∃ p < n, .block p ∈ g.predecessors (.block n)

instance (g : FlowGraph) : Decidable g.EnteredInOrder :=
  inferInstanceAs (Decidable (∀ n < g.size, _ ∨ _ ∨ ∃ p < n, _))

namespace CopySearch

variable {body : Listing Instr} {g : FlowGraph} {blocks : Array (List Instr)} {aliased : NameSet}
  {s s' : CopySearch}

/-- What holds in the course of the search: the first `k` blocks were visited, and the others wait
in order.  Another visit to a block would not add to what is known at its end. -/
structure Shrinking (body : Listing Instr) (g : FlowGraph) (blocks : Array (List Instr))
    (aliased : NameSet) (s : CopySearch) (k : Nat) : Prop where
  ends_size : s.ends.size = g.size
  visited : ∀ n, s.ends.getD n none ≠ none ↔ n < k
  waiting : ∃ again, s.waiting = List.range' k (g.size - k) ++ again ∧ ∀ n ∈ again, n < k
  recorded : ∀ n known, s.ends.getD n none = some known → known ⊆ recordedCopies body
  shrinks : ∀ n known, s.ends.getD n none = some known →
    Copies.through aliased (blocks.getD n []) (s.atStart g n) ⊆ known

theorem getD_ends_initial (size n : Nat) : (initial size).ends.getD n none = none := by
  simp only [initial, Array.getD_eq_getD_getElem?, Array.getElem?_replicate]
  split <;> rfl

theorem shrinking_initial : Shrinking body g blocks aliased (initial g.size) 0 where
  ends_size := by simp [initial]
  visited := fun n => by rw [getD_ends_initial]; simp
  waiting := ⟨[], by simp [initial, range_eq_range'], nofun⟩
  recorded := fun n known h => nomatch (getD_ends_initial _ n).symm.trans h
  shrinks := fun n known h => nomatch (getD_ends_initial _ n).symm.trans h

namespace Shrinking

variable {k n : Nat} {waiting : List Nat}

section

variable (h : Shrinking body g blocks aliased s k)

include h

theorem atStart_subset_recordedCopies (n : Nat) : s.atStart g n ⊆ recordedCopies body := by
  intro c hc
  obtain ⟨p, known, hends, hmem⟩ := exists_of_mem_atStart hc
  exact h.recorded p known hends hmem

/-- If ends shrink, so do the starts of the blocks that were visited and of the next one.  One of
their predecessors was visited, so what is known there was never more than the ends say. -/
theorem atStart_subset (hg : g.EnteredInOrder) (hn : n < g.size) (hnk : n ≤ k)
    (hends : ∀ p known, s.ends.getD p none = some known →
      ∃ known', s'.ends.getD p none = some known' ∧ known' ⊆ known) :
    s'.atStart g n ⊆ s.atStart g n := by
  intro c hc
  obtain ⟨⟨b', hb'⟩, hall⟩ := mem_atStart_iff.mp hc
  -- Some end that flows in is known already: the meet of no sets would give no copies.
  have hsome : ∃ b, some b ∈ s.incoming g n := by
    rcases hg n hn with hnil | hentry | ⟨p, hp, hpred⟩
    · rw [incoming, hnil] at hb'
      cases hb'
    · exact absurd hentry (mem_atStart hc).1
    · obtain ⟨b, hb⟩ := Option.ne_none_iff_exists'.mp ((h.visited p).mpr (hp.trans_le hnk))
      exact ⟨b, mem_map.mpr ⟨.block p, hpred, hb⟩⟩
  -- And no known end is smaller than the one that took its place.
  refine mem_atStart_iff.mpr ⟨hsome, fun b hb => ?_⟩
  obtain ⟨node, hnode, hb⟩ := mem_map.mp hb
  cases node with
  | block p =>
    obtain ⟨b', hb', hsubset⟩ := hends p b hb
    exact hsubset (hall b' (mem_map.mpr ⟨.block p, hnode, hb'⟩))
  | _ =>
    cases hb
    exact hall [] (mem_map.mpr ⟨_, hnode, rfl⟩)

theorem lt_size (hn : n < k) : n < g.size := by
  by_contra hge
  refine (h.visited n).mpr hn ?_
  rw [Array.getD_eq_getD_getElem?, Array.getElem?_eq_none (by rw [h.ends_size]; omega)]
  rfl

theorem next (hwaiting : s.waiting = n :: waiting) : n < g.size ∧ n ≤ k ∧ ∃ again, waiting =
      List.range' (max k (n + 1)) (g.size - max k (n + 1)) ++ again ∧
        ∀ m ∈ again, m < max k (n + 1) := by
  obtain ⟨again, heq, hagain⟩ := h.waiting
  rw [hwaiting] at heq
  -- Blocks that wait for their first visit are before all others in the queue.
  by_cases hk : k < g.size
  · rw [show g.size - k = g.size - (k + 1) + 1 by omega] at heq
    obtain ⟨rfl, rfl⟩ := cons.inj heq
    rw [Nat.max_eq_right (Nat.le_succ n)]
    exact ⟨hk, Nat.le_refl n, again, rfl, fun m hm => (hagain m hm).trans (Nat.lt_succ_self n)⟩
  · have hnone : g.size - k = 0 := by omega
    rw [hnone] at heq
    subst heq
    obtain ⟨hn, hrest⟩ := forall_mem_cons.mp hagain
    rw [Nat.max_eq_left hn, hnone]
    exact ⟨h.lt_size hn, hn.le, waiting, rfl, hrest⟩

theorem visit (hg : g.EnteredInOrder) (hbody : NoOpposites body)
    (hblocks : ∀ n, ∀ i ∈ blocks.getD n [], i ∈ body)
    (hsuccessors : ∀ n, ∀ m ∈ g.successorBlocks (.block n), m < g.size)
    (hwaiting : s.waiting = n :: waiting) :
    Shrinking body g blocks aliased (s.visit g blocks aliased n waiting) (max k (n + 1)) := by
  obtain ⟨hn, hnk, again, hrest, hagain⟩ := h.next hwaiting
  generalize hs' : s.visit g blocks aliased n waiting = s'
  obtain ⟨atEnd, fresh, hsize, hself, hother, hatEnd, hwaiting', hfresh⟩ :=
    exists_of_visit hs'
  have hself := hself (by rw [h.ends_size]; exact hn)
  have hrecorded := h.atStart_subset_recordedCopies
  -- The visit changes one end only, and this one becomes smaller.
  have hstart {m : Nat} (hm : m < g.size) (hmk : m ≤ k) : s'.atStart g m ⊆ s.atStart g m := by
    refine h.atStart_subset hg hm hmk fun p known hp => ?_
    by_cases hnp : n = p
    · subst hnp
      exact ⟨atEnd, hself, fun c hc => h.shrinks n known hp (hatEnd.mp hc)⟩
    · exact ⟨known, (hother hnp).trans hp, Subset.refl _⟩
  refine ⟨hsize.trans h.ends_size, fun m => ?_, ⟨again ++ fresh, ?_, ?_⟩, fun m known hknown => ?_,
    fun m known hknown => ?_⟩
  · by_cases hm : n = m
    · subst hm
      simp [hself]
    · have hvisited := h.visited m
      rw [hother hm, hvisited]
      omega
  · rw [hwaiting', hrest, append_assoc]
  · -- A block that was not visited waits already.
    refine forall_mem_append.mpr ⟨hagain, fun m hm => ?_⟩
    obtain ⟨hsuccessor, hout⟩ := hfresh m hm
    have hlt := hsuccessors n m hsuccessor
    by_contra hge
    rw [hrest] at hout
    exact hout (mem_append_left _ (mem_range'_1.mpr (by omega)))
  · by_cases hm : n = m
    · subst hm
      cases hself.symm.trans hknown
      exact fun c hc =>
        Copies.through_subset_recordedCopies (hblocks n) (hrecorded n) (hatEnd.mp hc)
    · exact h.recorded m known ((hother hm).symm.trans hknown)
  · by_cases hm : n = m
    · subst hm
      cases hself.symm.trans hknown
      exact fun c hc => hatEnd.mpr
        (Copies.through_subset hbody (hblocks n) (hrecorded n) (hstart hn hnk) hc)
    · -- The end stays, while what another visit would give becomes less with the start.
      rw [hother hm] at hknown
      have hmk := (h.visited m).mp (by rw [hknown]; exact Option.some_ne_none known)
      refine Subset.trans ?_ (h.shrinks m known hknown)
      exact Copies.through_subset hbody (hblocks m) (hrecorded m) (hstart (h.lt_size hmk) hmk.le)

end

end Shrinking

/-! ### The number of visits -/

/-- How much there is to lose at the end of a block. -/
def rank (body : Listing Instr) : Option Copies → Nat
  | none => (recordedCopies body).length + 1
  | some known => known.toFinset.card

/-- How many visits are left, at most.  With every end that shrinks, no more blocks start to wait
than there are edges. -/
def visitsLeft (body : Listing Instr) (g : FlowGraph) (s : CopySearch) : Nat :=
  (∑ n ∈ Finset.range g.size, rank body (s.ends.getD n none)) * (g.edges.length + 1) +
    s.waiting.length

theorem visitsLeft_initial : visitsLeft body g (initial g.size) =
    g.size * ((recordedCopies body).length + 1) * (g.edges.length + 1) + g.size := by
  have hsum : ∑ n ∈ .range g.size, rank body ((initial g.size).ends.getD n none) =
      (Finset.range g.size).card * ((recordedCopies body).length + 1) :=
    sum_const_nat fun n _ => by rw [getD_ends_initial]; rfl
  rw [visitsLeft, hsum]
  simp [initial]

namespace Shrinking

variable {k n : Nat} {waiting : List Nat}

section

variable (h : Shrinking body g blocks aliased s k) (hblocks : ∀ n, ∀ i ∈ blocks.getD n [], i ∈ body)

include h hblocks

theorem rank_lt
    (hchanged : ∀ old, s.ends.getD n none = some old →
      old.same (Copies.through aliased (blocks.getD n []) (s.atStart g n)) = false) :
    rank body (some (Copies.through aliased (blocks.getD n []) (s.atStart g n))) <
      rank body (s.ends.getD n none) := by
  cases hend : s.ends.getD n none with
  | none =>
    have hrecorded : Copies.through aliased (blocks.getD n []) (s.atStart g n) ⊆
        recordedCopies body :=
      Copies.through_subset_recordedCopies (hblocks n) (h.atStart_subset_recordedCopies n)
    refine Nat.lt_succ_of_le (le_trans (card_le_card ?_) (toFinset_card_le _))
    exact fun c hc => mem_toFinset.mpr (hrecorded (mem_toFinset.mp hc))
  | some old =>
    -- The end shrinks, and an end that has changed lacks one of its copies.
    have hsubset := h.shrinks n old hend
    have hsame := hchanged old hend
    refine card_lt_card (Finset.ssubset_iff_subset_ne.mpr ⟨fun c hc => ?_, fun heq => ?_⟩)
    · exact mem_toFinset.mpr (hsubset (mem_toFinset.mp hc))
    · refine absurd hsame ?_
      rw [Bool.not_eq_false, Copies.same, Bool.and_eq_true, all_eq_true, all_eq_true]
      refine ⟨fun c hc => contains_iff_mem.mpr ?_, fun c hc => contains_iff_mem.mpr ?_⟩
      · exact mem_toFinset.mp (heq ▸ mem_toFinset.mpr hc)
      · exact hsubset hc

theorem visitsLeft_visit_lt (hwaiting : s.waiting = n :: waiting) :
    visitsLeft body g (s.visit g blocks aliased n waiting) < visitsLeft body g s := by
  generalize hs' : s.visit g blocks aliased n waiting = s'
  unfold visitsLeft
  rw [hwaiting, length_cons]
  rcases (visit_cases hs').2 with ⟨-, -, -, hends, hwaiting'⟩ | ⟨hchanged, hends, hwaiting'⟩
  · rw [hends, hwaiting']
    omega
  · have hn := (h.next hwaiting).1
    have hrank := h.rank_lt hblocks hchanged
    have hself := getD_setIfInBounds_self (h.ends_size.symm ▸ hn)
      (some (.through aliased (blocks.getD n []) (s.atStart g n)))
    have hsum : ∑ m ∈ .range g.size, rank body (s'.ends.getD m none) <
        ∑ m ∈ .range g.size, rank body (s.ends.getD m none) := by
      rw [hends]
      refine sum_lt_sum (fun m _ => ?_) ⟨n, Finset.mem_range.mpr hn, by rwa [hself]⟩
      by_cases hm : n = m
      · subst hm
        rw [hself]
        exact hrank.le
      · rw [getD_setIfInBounds_ne hm]
    -- The rank that is lost pays for all successors that start to wait.
    have hproduct := Nat.mul_le_mul_right (g.edges.length + 1) (Nat.succ_le_of_lt hsum)
    rw [Nat.succ_mul] at hproduct
    have hfresh : ((g.successorBlocks (.block n)).filter fun b => !waiting.contains b).length ≤
        g.edges.length := by
      refine (length_filter_le _ _).trans ?_
      exact (length_filterMap_le _ _).trans (length_filterMap_le _ _)
    rw [hwaiting', length_append]
    omega

end

/-- The search ends, and more visits would give the same. -/
theorem exists_run? (h : Shrinking body g blocks aliased s k) (hg : g.EnteredInOrder)
    (hbody : NoOpposites body) (hblocks : ∀ n, ∀ i ∈ blocks.getD n [], i ∈ body)
    (hsuccessors : ∀ n, ∀ m ∈ g.successorBlocks (.block n), m < g.size) {bound : Nat}
    (hbound : visitsLeft body g s ≤ bound) :
    ∃ s', ∀ visits ≥ bound, CopySearch.run? g blocks aliased visits s = some s' := by
  induction bound generalizing s k with
  | zero =>
    have hwaiting : s.waiting = [] := length_eq_zero_iff.mp
      (Nat.eq_zero_of_le_zero ((Nat.le_add_left _ _).trans hbound))
    exact ⟨s, fun visits _ => run?_of_nil hwaiting visits⟩
  | succ bound ih =>
    cases hwaiting : s.waiting with
    | nil => exact ⟨s, fun visits _ => run?_of_nil hwaiting visits⟩
    | cons n waiting =>
      have hless := h.visitsLeft_visit_lt hblocks hwaiting
      obtain ⟨s', hrun⟩ := ih (h.visit hg hbody hblocks hsuccessors hwaiting) (by omega)
      refine ⟨s', fun visits hvisits => ?_⟩
      obtain ⟨visits, rfl⟩ := Nat.exists_eq_succ_of_ne_zero (show visits ≠ 0 by omega)
      rw [run?_succ hwaiting]
      exact hrun visits (by omega)

end Shrinking

end CopySearch

/-- The number of visits that are enough for a body whose search ends. -/
def enoughVisits (body : Listing Instr) : Nat :=
  let g := FlowGraph.ofCode Instr.flow body
  g.size * ((recordedCopies body).length + 1) * (g.edges.length + 1) + g.size

/-- Copy propagation ends for every body whose blocks are entered in order and that copies no two
variables to each other. -/
theorem propagateCopies_ends {body : Listing Instr}
    (hentered : (FlowGraph.ofCode Instr.flow body).EnteredInOrder) (hopposite : NoOpposites body)
    (aliased : NameSet) :
    ∃ result, ∀ visits ≥ enoughVisits body,
      propagateCopies? visits aliased body = some result := by
  have hsuccessors : ∀ n, ∀ m ∈ (ofCode Instr.flow body).successorBlocks (.block n),
      m < (ofCode Instr.flow body).size := fun n m hm =>
    lt_size_of_mem_successors (mem_successorBlocks.mp hm)
  have hinitial : CopySearch.Shrinking body (ofCode Instr.flow body)
      (blocksOf Instr.flow body).toArray aliased (.initial _) 0 := CopySearch.shrinking_initial
  obtain ⟨s, hrun⟩ := hinitial.exists_run? hentered hopposite
    (fun _ _ => mem_of_mem_getD_blocksOf) hsuccessors CopySearch.visitsLeft_initial.le
  exact ⟨_, fun visits hvisits => by rw [propagateCopies?, knownCopies?, hrun visits hvisits]; rfl⟩

theorem copyingBody_propagation_ends :
    (FlowGraph.ofCode Instr.flow copyingBody).EnteredInOrder ∧ NoOpposites copyingBody ∧
      ∀ visits ≥ enoughVisits copyingBody,
        propagateCopies? visits {"g"} copyingBody = some propagatedBody := by
  have hentered : (ofCode Instr.flow copyingBody).EnteredInOrder := by decide +kernel
  have hopposite : NoOpposites copyingBody := by decide +kernel
  obtain ⟨result, hends⟩ := propagateCopies_ends hentered hopposite {"g"}
  have hresult : propagateCopies? (enoughVisits copyingBody) {"g"} copyingBody =
      some propagatedBody := by decide +kernel
  cases hresult.symm.trans (hends _ (Nat.le_refl _))
  exact ⟨hentered, hopposite, hends⟩

/-! ### Searches without end -/

namespace CopySearch

variable {g : FlowGraph} {blocks : Array (List Instr)} {aliased : NameSet} {s : CopySearch}

def next (g : FlowGraph) (blocks : Array (List Instr)) (aliased : NameSet) (s : CopySearch) :
    CopySearch :=
  match s.waiting with
  | [] => s
  | n :: waiting => s.visit g blocks aliased n waiting

/-- A search that comes back to a state has no end. -/
theorem run?_eq_none_of_cycle {k p : Nat} (hp : 0 < p)
    (hcycle : (next g blocks aliased)^[k + p] s = (next g blocks aliased)^[k] s)
    (hwaiting : ∀ i < k + p, ((next g blocks aliased)^[i] s).waiting ≠ []) (visits : Nat) :
    run? g blocks aliased visits s = none := by
  -- The induction on the visits goes round the cycle, so it is about all states on the way.
  suffices h : ∀ i < k + p, run? g blocks aliased visits ((next g blocks aliased)^[i] s) = none from
    h 0 (by omega)
  induction visits with
  | zero =>
    intro i hi
    obtain ⟨n, waiting, hn⟩ := exists_cons_of_ne_nil (hwaiting i hi)
    exact run?_zero hn
  | succ visits ih =>
    intro i hi
    obtain ⟨n, waiting, hn⟩ := exists_cons_of_ne_nil (hwaiting i hi)
    have hnext : ((next g blocks aliased)^[i] s).visit g blocks aliased n waiting =
        (next g blocks aliased)^[i + 1] s := by
      rw [Function.iterate_succ_apply', next, hn]
    rw [run?_succ hn, hnext]
    by_cases hlast : i + 1 < k + p
    · exact ih (i + 1) hlast
    · rw [show i + 1 = k + p by omega, hcycle]
      exact ih k (by omega)

end CopySearch

/-- A loop that is not laid out in the order in which its blocks are entered.  The second of them is
visited before the block that leads to it, and starts with no copies.  This goes round the loop,
together with what is known before it. -/
def circlingBody : Listing Instr :=
  [.copy ⟨"x", .int⟩ (.const (.ofInt .int 1)),
    .label ⟨"l", 1⟩, .jump ⟨"l", 3⟩,
    .label ⟨"l", 2⟩, .jump ⟨"l", 1⟩,
    .label ⟨"l", 3⟩, .jumpIfZero (.var ⟨"c", .int⟩) ⟨"l", 2⟩,
    .ret (some (.var ⟨"x", .int⟩))]

/-- Copy propagation does not end for every body. -/
theorem circlingBody_propagation_never_ends :
    ¬∃ visits result, propagateCopies? visits {} circlingBody = some result := by
  rintro ⟨visits, result, hresult⟩
  rw [propagateCopies?, knownCopies?, CopySearch.run?_eq_none_of_cycle (k := 7) (p := 8) (by decide)
    (by decide +kernel) (by decide +kernel) visits] at hresult
  cases hresult

-- With variables that are copied to each other the order of the blocks is not enough.
example (visits : Nat) : propagateCopies? visits {}
    [.label ⟨"l", 0⟩, .copy ⟨"x", .int⟩ (.var ⟨"y", .int⟩),
      .jumpIfZero (.var ⟨"c", .int⟩) ⟨"l", 0⟩,
      .label ⟨"l", 1⟩, .jump ⟨"l", 3⟩,
      .copy ⟨"y", .int⟩ (.var ⟨"x", .int⟩),
      .label ⟨"l", 2⟩, .copy ⟨"x", .int⟩ (.var ⟨"y", .int⟩), .jump ⟨"l", 1⟩,
      .label ⟨"l", 3⟩, .copy ⟨"y", .int⟩ (.var ⟨"x", .int⟩), .jump ⟨"l", 2⟩] = none := by
  rw [propagateCopies?, knownCopies?, CopySearch.run?_eq_none_of_cycle (k := 6) (p := 6) (by decide)
    (by decide +kernel) (by decide +kernel) visits]
  rfl

end ThreeAddress
