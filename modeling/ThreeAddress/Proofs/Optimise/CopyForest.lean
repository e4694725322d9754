import ThreeAddress.Proofs.Optimise.CopyTermination

/-!
# Known copies form a forest

A variable is known to be a copy of at most one value, and following copies never leads back to
where it started.  The search keeps this at every visit, and so does rewriting, although the two see
different instructions.  It is the reason why the order in which known copies are listed does not
matter: a search and a rewriting that list them anew at every step, in any order, lead to the same
result.
-/

namespace ThreeAddress

open List Option Copies CopySearch Array

namespace Copies

variable {aliased : NameSet} {known other : Copies} {i : Instr} {dst : Variable} {src : Value}

/-! ### Forests -/

/-- Copies that lead from every variable to at most one source, and never back to it. -/
structure Forest (known : Copies) : Prop where
  unique : ∀ c ∈ known, ∀ d ∈ known, c.dst = d.dst → c = d
  src_ne : ∀ c ∈ known, c.src ≠ .var c.dst
  acyclic : ∀ v, ¬Relation.TransGen (fun v w => ⟨v, .var w⟩ ∈ known) v v

namespace Forest

theorem mono (h : other.Forest) (hsub : known ⊆ other) : known.Forest where
  unique := fun c hc d hd => h.unique c (hsub hc) d (hsub hd)
  src_ne := fun c hc => h.src_ne c (hsub hc)
  acyclic := fun v hv => h.acyclic v (Relation.TransGen.mono (fun _ _ hvw => hsub hvw) v v hv)

theorem nil : Forest [] where
  unique := nofun
  src_ne := nofun
  acyclic := fun v hv => by
    obtain ⟨_, -, hmem⟩ := Relation.TransGen.tail'_iff.mp hv
    cases hmem

/-- A copy to a variable that no other copy mentions keeps the forest. -/
theorem cons (h : known.Forest) (hne : src ≠ .var dst)
    (hother : ∀ c ∈ known, c.dst ≠ dst ∧ c.src ≠ .var dst) : Forest (⟨dst, src⟩ :: known) where
  unique := by
    intro c hc d hd heq
    rcases mem_cons.mp hc with rfl | hc <;> rcases mem_cons.mp hd with rfl | hd
    · rfl
    · exact absurd heq.symm (hother d hd).1
    · exact absurd heq (hother c hc).1
    · exact h.unique c hc d hd heq
  src_ne := by
    intro c hc
    rcases mem_cons.mp hc with rfl | hc
    · exact hne
    · exact h.src_ne c hc
  acyclic := by
    -- Nothing is a copy of the variable, so no way leads through it.
    have hend {v w : Variable} (hvw : Relation.TransGen
        (fun v w => ⟨v, .var w⟩ ∈ (⟨dst, src⟩ : Copy) :: known) v w) : w ≠ dst := by
      rintro rfl
      obtain ⟨u, -, hu⟩ := Relation.TransGen.tail'_iff.mp hvw
      rcases mem_cons.mp hu with heq | hu
      · exact hne (Copy.mk.inj heq).2.symm
      · exact (hother _ hu).2 rfl
    have hold : ∀ {v w : Variable}, v ≠ dst → ⟨v, .var w⟩ ∈ (⟨dst, src⟩ : Copy) :: known →
        ⟨v, .var w⟩ ∈ known := fun hv hmem =>
      (mem_cons.mp hmem).resolve_left fun heq => hv (Copy.mk.inj heq).1
    intro v hv
    suffices hway : ∀ w, Relation.TransGen (fun v w => ⟨v, .var w⟩ ∈ (⟨dst, src⟩ : Copy) :: known)
        v w → Relation.TransGen (fun v w => ⟨v, .var w⟩ ∈ known) v w from h.acyclic v (hway v hv)
    intro w hw
    induction hw with
    | single hvw => exact .single (hold (hend hv) hvw)
    | tail hvu huw ih => exact ih.tail (hold (hend hvu) huw)

section

variable (h : known.Forest) (aliased : NameSet)

include h

/-- The copies that survive have nothing to do with the variable that is assigned. -/
theorem transfer (i : Instr) : (known.transfer aliased i).Forest := by
  have hkept : (known.surviving aliased i).Forest := h.mono fun c hc => (mem_surviving.mp hc).1
  by_cases hrecorded : ∃ dst src, i = .copy dst src ∧ dst.type = src.type ∧ src ≠ .var dst
  · obtain ⟨dst, src, rfl, htype, hne⟩ := hrecorded
    rw [show known.transfer aliased (.copy dst src) = ⟨dst, src⟩ :: _ from if_pos ⟨htype, hne⟩]
    refine hkept.cons hne fun c hc => ?_
    simpa [Copy.involves] using (mem_surviving.mp hc).2.2 dst rfl
  · refine hkept.mono fun c hc => ?_
    rcases mem_transfer hc with hc | ⟨dst, src, hi, htype, hne, -⟩
    · exact hc
    · exact absurd ⟨dst, src, hi, htype, hne⟩ hrecorded

theorem after (i : Instr) : (known.after aliased i).Forest := by
  unfold Copies.after
  split
  · exact h
  · exact h.transfer aliased i

theorem through (block : Listing Instr) : (through aliased block known).Forest :=
  foldlRecOn (motive := (Forest ·)) block _ h fun _ hknown i _ => hknown.after aliased i

theorem replaced (block : Listing Instr) : (block.foldl (afterReplaced aliased) known).Forest :=
  foldlRecOn (motive := (Forest ·)) block _ h fun _ hknown _ _ => hknown.after aliased _

end

/-- What all of several sets have in common is empty or part of one of them. -/
theorem meet {sets : List (Option Copies)} (h : ∀ b, some b ∈ sets → b.Forest) :
    ((sets.foldl Copies.meet none).getD []).Forest := by
  have hmem {c : Copy} : c ∈ (sets.foldl Copies.meet none).getD [] ↔ _ := mem_foldl_meet
  by_cases hsome : ∃ b, some b ∈ sets
  · obtain ⟨b, hb⟩ := hsome
    exact (h b hb).mono fun c hc => (hmem.mp hc).2 b (mem_cons_of_mem _ hb)
  · refine nil.mono fun c hc => absurd ?_ hsome
    simpa using (hmem.mp hc).1

/-- There is at most one answer to the question what a variable is a copy of. -/
theorem sourceOf?_eq_some_iff (h : known.Forest) :
    known.sourceOf? dst = some src ↔ ⟨dst, src⟩ ∈ known := by
  rw [sourceOf?, map_eq_some_iff]
  constructor
  · rintro ⟨c, hc, rfl⟩
    obtain rfl : c.dst = dst := by simpa using find?_some hc
    exact mem_of_find?_eq_some hc
  · intro hmem
    cases hfind : known.find? fun c => c.dst == dst with
    | none => simpa using find?_eq_none.mp hfind _ hmem
    | some c =>
      have hdst : c.dst = dst := by simpa using find?_some hfind
      exact ⟨c, rfl, by rw [h.unique c (mem_of_find?_eq_some hfind) _ hmem hdst]⟩

end Forest

/-! ### Listing copies in another order -/

/-- Lists of the same copies, in whatever order. -/
def Alike (known other : Copies) : Prop := known.contains = other.contains

namespace Alike

theorem mem_iff (h : known.Alike other) {c : Copy} : c ∈ known ↔ c ∈ other := by
  rw [← List.contains_iff_mem, ← List.contains_iff_mem, h]

theorem of_subset (h : known ⊆ other) (h' : other ⊆ known) : known.Alike other := by
  funext c
  exact Bool.eq_iff_iff.mpr (by simpa using ⟨fun hc => h hc, fun hc => h' hc⟩)

theorem same_iff : known.same other = true ↔ known.Alike other := by
  rw [same, Bool.and_eq_true, List.all_eq_true, List.all_eq_true]
  simp only [List.contains_iff_mem]
  constructor
  · rintro ⟨h, h'⟩
    exact of_subset h h'
  · exact fun h => ⟨fun _ => h.mem_iff.mp, fun _ => h.mem_iff.mpr⟩

section

variable (h : known.Alike other)

include h

theorem makesRedundant_eq (i : Instr) : known.makesRedundant i = other.makesRedundant i := by
  have hcontains := congrFun h
  cases i with
  | copy dst src => cases src <;> simp only [makesRedundant, knows, hcontains]
  | _ => rfl

theorem after (aliased : NameSet) (i : Instr) :
    (known.after aliased i).Alike (other.after aliased i) := by
  unfold Copies.after
  rw [h.makesRedundant_eq i]
  split
  · exact h
  · exact of_subset (transfer_subset fun _ => h.mem_iff.mp) (transfer_subset fun _ => h.mem_iff.mpr)

theorem through (aliased : NameSet) (block : Listing Instr) :
    (through aliased block known).Alike (Copies.through aliased block other) := by
  induction block generalizing known other with
  | nil => exact h
  | cons i rest ih => exact ih (h.after aliased i)

/-- In a forest the order does not decide what a variable is replaced by. -/
theorem substitute_eq (hknown : known.Forest) : known.substitute = other.substitute := by
  have hother := hknown.mono fun _ => h.mem_iff.mpr
  funext v
  cases v with
  | const c => rfl
  | var v =>
    have hsource : known.sourceOf? v = other.sourceOf? v := ext fun src => by
      rw [hknown.sourceOf?_eq_some_iff, hother.sourceOf?_eq_some_iff, h.mem_iff]
    rw [substitute, substitute, hsource]

theorem copyEdit_eq (hknown : known.Forest) (i : Instr) : copyEdit known i = copyEdit other i := by
  rw [copyEdit, h.substitute_eq hknown, h.makesRedundant_eq, copyEdit]

theorem afterReplaced (hknown : known.Forest) (aliased : NameSet) (i : Instr) :
    (known.afterReplaced aliased i).Alike (other.afterReplaced aliased i) := by
  rw [Copies.afterReplaced, h.substitute_eq hknown]
  exact h.after aliased _

end

end Alike

end Copies

/-- What may become of a block if the known copies are listed anew before each instruction. -/
inductive RewritesTo (aliased : NameSet) : Copies → Listing Instr → Listing Instr → Prop
  | nil (known : Copies) : RewritesTo aliased known [] []
  | cons {known listed : Copies} {i : Instr} {rest out : Listing Instr}
    (hlisted : known.Alike listed)
    (hrest : RewritesTo aliased (listed.afterReplaced aliased i) rest out) :
    RewritesTo aliased known (i :: rest) ((copyEdit listed i).toList ++ out)

theorem propagateBlock_cons (aliased : NameSet) (known : Copies) (i : Instr)
    (rest : Listing Instr) : propagateBlock aliased known (i :: rest) =
      (copyEdit known i).toList ++ propagateBlock aliased (known.afterReplaced aliased i) rest := by
  rw [← reduceOption_copyBlockEdits, ← reduceOption_copyBlockEdits, copyBlockEdits]
  cases copyEdit known i <;> rfl

theorem rewritesTo_propagateBlock (aliased : NameSet) (known : Copies) (block : Listing Instr) :
    RewritesTo aliased known block (propagateBlock aliased known block) := by
  induction block generalizing known with
  | nil => exact .nil known
  | cons i rest ih =>
    rw [propagateBlock_cons]
    exact .cons rfl (ih _)

theorem RewritesTo.eq_propagateBlock {aliased : NameSet} {known other : Copies}
    {block out : Listing Instr} (h : RewritesTo aliased known block out) (hknown : known.Forest)
    (halike : known.Alike other) : out = propagateBlock aliased other block := by
  induction h generalizing other with
  | nil => rfl
  | @cons known listed i rest out hlisted hrest ih =>
    have hforest := hknown.mono fun _ => hlisted.mem_iff.mpr
    have hother : listed.Alike other := hlisted.symm.trans halike
    rw [propagateBlock_cons, hother.copyEdit_eq hforest,
      ih (hforest.after aliased _) (hother.afterReplaced hforest aliased i)]

/-! ### Searching in any order -/

namespace CopySearch

variable {g : FlowGraph} {blocks : Array (List Instr)} {aliased : NameSet} {s s' t : CopySearch}
  {n : Nat} {waiting : List Nat} {xs ys : Array (Option Copies)}

/-- What an array of sets holds, whatever the order in which copies are listed. -/
def held (xs : Array (Option Copies)) : Array (Option (Copy → Bool)) :=
  xs.map (Option.map List.contains)

/-- States that hold the same copies, in whatever order. -/
structure Alike (s t : CopySearch) : Prop where
  waiting : s.waiting = t.waiting
  starts : held s.starts = held t.starts
  ends : held s.ends = held t.ends

theorem contains_getD (h : held xs = held ys) (n : Nat) :
    (xs.getD n none).map List.contains = (ys.getD n none).map List.contains := by
  have hn := congrArg (·[n]?.join) h
  simp only [held, Array.getElem?_map] at hn
  cases hx : xs[n]? <;> cases hy : ys[n]? <;> simp_all

theorem exists_alike (h : held xs = held ys) {known : Copies} (hn : xs.getD n none = some known) :
    ∃ other, ys.getD n none = some other ∧ known.Alike other := by
  have hmap := contains_getD h n
  rw [hn] at hmap
  obtain ⟨other, hother, halike⟩ := map_eq_some_iff.mp hmap.symm
  exact ⟨other, hother, halike.symm⟩

namespace Alike

theorem symm (h : Alike s t) : Alike t s := ⟨h.waiting.symm, h.starts.symm, h.ends.symm⟩

theorem trans (h : Alike s t) (h' : Alike t s') : Alike s s' :=
  ⟨h.waiting.trans h'.waiting, h.starts.trans h'.starts, h.ends.trans h'.ends⟩

theorem exists_mem_incoming (h : Alike s t) {b : Copies} (hb : some b ∈ s.incoming g n) :
    ∃ b', some b' ∈ t.incoming g n ∧ b.Alike b' := by
  obtain ⟨node, hnode, heq⟩ := mem_map.mp hb
  cases node with
  | block p =>
    obtain ⟨b', hb', halike⟩ := exists_alike h.ends heq
    exact ⟨b', mem_map.mpr ⟨.block p, hnode, hb'⟩, halike⟩
  | _ => exact ⟨b, mem_map.mpr ⟨_, hnode, heq⟩, rfl⟩

theorem atStart_subset (h : Alike s t) (n : Nat) : s.atStart g n ⊆ t.atStart g n := by
  intro c hc
  obtain ⟨⟨b, hb⟩, hall⟩ := mem_atStart_iff.mp hc
  obtain ⟨b', hb', -⟩ := h.exists_mem_incoming hb
  refine mem_atStart_iff.mpr ⟨⟨b', hb'⟩, fun d hd => ?_⟩
  obtain ⟨d', hd', halike⟩ := h.symm.exists_mem_incoming hd
  exact halike.mem_iff.mpr (hall d' hd')

/-- A visit does not depend on the order. -/
theorem visit (h : Alike s t) (g : FlowGraph) (blocks : Array (List Instr)) (aliased : NameSet)
    (n : Nat) (waiting : List Nat) :
    Alike (s.visit g blocks aliased n waiting) (t.visit g blocks aliased n waiting) := by
  have hstart : (s.atStart g n).Alike (t.atStart g n) :=
    .of_subset (h.atStart_subset n) (h.symm.atStart_subset n)
  have hend := hstart.through aliased (blocks.getD n [])
  -- The end of the block changes in both searches or in neither.
  have hsame : ((s.ends.getD n none).any fun old =>
        old.same (through aliased (blocks.getD n []) (s.atStart g n))) =
      (t.ends.getD n none).any fun old =>
        old.same (through aliased (blocks.getD n []) (t.atStart g n)) := by
    have hn := contains_getD h.ends n
    cases hs : s.ends.getD n none <;> cases ht : t.ends.getD n none <;> rw [hs, ht] at hn
    · rfl
    · cases hn
    · cases hn
    · have hold : Copies.Alike _ _ := some.inj hn
      rw [any_some, any_some, Bool.eq_iff_iff, Alike.same_iff,
        Alike.same_iff]
      exact ⟨fun h => hold.symm.trans (h.trans hend), fun h => hold.trans (h.trans hend.symm)⟩
  have hset {xs ys : Array (Option Copies)} {a b : Copies} (h : held xs = held ys)
      (hab : a.Alike b) :
      held (xs.setIfInBounds n (some a)) = held (ys.setIfInBounds n (some b)) := by
    unfold held at h ⊢
    rw [map_setIfInBounds, map_setIfInBounds, h, map_some, map_some, hab]
  unfold CopySearch.visit
  unfold through at hsame
  simp only [hsame]
  split
  · exact ⟨rfl, hset h.starts hstart, h.ends⟩
  · exact ⟨rfl, hset h.starts hstart, hset h.ends hend⟩

end Alike

/-- A visit to the next waiting block, after which all sets may be listed in another order. -/
def VisitsTo (g : FlowGraph) (blocks : Array (List Instr)) (aliased : NameSet)
    (s s' : CopySearch) : Prop :=
  ∃ n waiting, s.waiting = n :: waiting ∧ Alike (s.visit g blocks aliased n waiting) s'

/-- A search that ends in some order ends in every order, with the same copies. -/
theorem exists_run?_of_visitsTo (hvisits : Relation.ReflTransGen (VisitsTo g blocks aliased) s s')
    (hdone : s'.waiting = []) (h : Alike s t) :
    ∃ visits t', Alike s' t' ∧ ∀ v ≥ visits, run? g blocks aliased v t = some t' := by
  induction hvisits using Relation.ReflTransGen.head_induction_on generalizing t with
  | refl => exact ⟨0, t, h, fun v _ => run?_of_nil (h.waiting.symm.trans hdone) v⟩
  | head hstep _ ih =>
    obtain ⟨n, waiting, hwaiting, halike⟩ := hstep
    obtain ⟨visits, t', ht', hrun⟩ := ih (halike.symm.trans (h.visit g blocks aliased n waiting))
    refine ⟨visits + 1, t', ht', fun v hv => ?_⟩
    obtain ⟨v, rfl⟩ : ∃ w, v = w + 1 := ⟨v - 1, by omega⟩
    rw [run?_succ (h.waiting ▸ hwaiting)]
    exact hrun v (by omega)

/-! ### Forests in the course of a search -/

/-- All sets of copies that a search and the rewriting after it come across are forests. -/
structure Forests (g : FlowGraph) (blocks : Array (List Instr)) (aliased : NameSet)
    (s : CopySearch) : Prop where
  starts : ∀ n known, s.starts.getD n none = some known → known.Forest
  ends : ∀ n known, s.ends.getD n none = some known → known.Forest
  /-- What the first predecessors of a block have in common. -/
  meets : ∀ n j, ((((s.incoming g n).take j).foldl Copies.meet none).getD []).Forest
  /-- What is known after the first instructions of a block that is visited. -/
  found : ∀ n j, (Copies.through aliased ((blocks.getD n []).take j) (s.atStart g n)).Forest
  /-- What is known after the first instructions of a block that is rewritten. -/
  replaced : ∀ n j, (replacedAt aliased (fun n => (s.starts.getD n none).getD []) n
    (blocks.getD n []) j).Forest

theorem forests_of_entries (hstarts : ∀ n known, s.starts.getD n none = some known → known.Forest)
    (hends : ∀ n known, s.ends.getD n none = some known → known.Forest) :
    Forests g blocks aliased s := by
  have hincoming : ∀ n b, some b ∈ s.incoming g n → b.Forest := by
    intro n b hb
    obtain ⟨node, -, heq⟩ := mem_map.mp hb
    cases node with
    | block p => exact hends p b heq
    | entry | exit =>
      cases heq
      exact .nil
  refine ⟨hstarts, hends, fun n j => .meet fun b hb => hincoming n b (mem_of_mem_take hb),
    fun n j => (Forest.meet (hincoming n)).through aliased _, fun n j => ?_⟩
  refine Forest.replaced ?_ aliased _
  show ((s.starts.getD n none).getD []).Forest
  cases hn : s.starts.getD n none with
  | none => exact .nil
  | some known => exact hstarts n known hn

theorem Forests.visitsTo (h : Forests g blocks aliased s)
    (hvisit : VisitsTo g blocks aliased s s') : Forests g blocks aliased s' := by
  obtain ⟨n, waiting, -, halike⟩ := hvisit
  generalize hv : s.visit g blocks aliased n waiting = v at halike
  obtain ⟨hstarts, hcases⟩ := visit_cases hv
  have hset : ∀ {xs : Array (Option Copies)} {new : Copies}, new.Forest →
      (∀ m known, xs.getD m none = some known → known.Forest) →
      ∀ m known, (xs.setIfInBounds n (some new)).getD m none = some known → known.Forest := by
    intro xs new hnew hold m known hm
    by_cases hnm : n = m
    · subst hnm
      by_cases hlt : n < xs.size
      · cases (getD_setIfInBounds_self hlt _).symm.trans hm
        exact hnew
      · simp [hlt] at hm
    · exact hold m known ((getD_setIfInBounds_ne hnm _).symm.trans hm)
  have hend := h.found n (blocks.getD n []).length
  rw [take_length] at hend
  refine forests_of_entries (fun m known hm => ?_) fun m known hm => ?_
  · obtain ⟨other, hother, hsame⟩ := exists_alike halike.starts.symm hm
    rw [hstarts] at hother
    exact (hset (h.found n 0) h.starts m other hother).mono fun _ => hsame.mem_iff.mp
  · obtain ⟨other, hother, hsame⟩ := exists_alike halike.ends.symm hm
    refine Forest.mono ?_ fun _ => hsame.mem_iff.mp
    rcases hcases with ⟨-, -, -, hends, -⟩ | ⟨-, hends, -⟩
    · exact h.ends m other (hends ▸ hother)
    · rw [hends] at hother
      exact hset hend h.ends m other hother

theorem forests_of_visitsTo
    (h : Relation.ReflTransGen (VisitsTo g blocks aliased) (.initial g.size) s) :
    Forests g blocks aliased s := by
  induction h with
  | refl =>
    have hnone : ∀ n known, (initial g.size).ends.getD n none = some known → known.Forest := by
      intro n known hn
      rw [getD_ends_initial] at hn
      cases hn
    exact forests_of_entries hnone hnone
  | tail _ hvisit ih => exact ih.visitsTo hvisit

end CopySearch

/-! ### Propagation in any order -/

/-- What may become of a body if the known copies are listed anew at every step of the search and of
the rewriting. -/
def PropagatesTo (aliased : NameSet) (body result : Listing Instr) : Prop :=
  ∃ s outs, Relation.ReflTransGen (CopySearch.VisitsTo (FlowGraph.ofCode Instr.flow body)
      (blocksOf Instr.flow body).toArray aliased)
      (.initial (FlowGraph.ofCode Instr.flow body).size) s ∧ s.waiting = [] ∧
    List.Forall₂ (fun x out => RewritesTo aliased (x.2.getD []) x.1 out)
      ((blocksOf Instr.flow body).zip s.starts.toList) outs ∧ outs.flatten = result

theorem propagatesTo_of_propagateCopies? {visits : Nat} {aliased : NameSet}
    {body result : Listing Instr} (h : propagateCopies? visits aliased body = some result) :
    PropagatesTo aliased body result := by
  obtain ⟨starts, hstarts, rfl⟩ := map_eq_some_iff.mp h
  obtain ⟨s, hrun, rfl⟩ := map_eq_some_iff.mp hstarts
  obtain ⟨hvisits, hdone⟩ := run?_induction (P := Relation.ReflTransGen (VisitsTo _ _ aliased) _)
    (fun _ n waiting hs hw => hs.tail ⟨n, waiting, hw, rfl, rfl, rfl⟩) .refl hrun
  refine ⟨s, _, hvisits, hdone, ?_, flatMap_def.symm⟩
  exact forall₂_map_right_iff.mpr (forall₂_same.mpr fun x _ =>
    rewritesTo_propagateBlock aliased _ x.1)

theorem exists_of_propagatesTo {aliased : NameSet} {body result : Listing Instr}
    (h : PropagatesTo aliased body result) :
    ∃ visits, ∀ v ≥ visits, propagateCopies? v aliased body = some result := by
  obtain ⟨s, outs, hvisits, hdone, hrewrites, rfl⟩ := h
  obtain ⟨visits, t, halike, hrun⟩ := exists_run?_of_visitsTo hvisits hdone ⟨rfl, rfl, rfl⟩
  have hforests := forests_of_visitsTo hvisits
  refine ⟨visits, fun v hv => ?_⟩
  rw [propagateCopies?, knownCopies?, hrun v hv, map_some, map_some, List.flatMap_def]
  refine congrArg (fun outs => some (List.flatten outs)) ?_
  have hlength := hrewrites.length_eq
  have hsize : s.starts.size = t.starts.size := by
    simpa [held] using congrArg size halike.starts
  refine ext_getElem (by simp_all) fun k hk hk' => ?_
  have hrewrite := hrewrites.get (hlength ▸ hk') hk'
  have hlt : k < s.starts.size := by simp at hk; omega
  have hlt' : k < t.starts.size := hsize ▸ hlt
  simp only [get_eq_getElem, List.getElem_zip, getElem_toList] at hrewrite
  simp only [List.getElem_map, List.getElem_zip, getElem_toList]
  have hforest := hforests.replaced k 0
  have hsame := contains_getD halike.starts k
  simp [replacedAt, hlt, hlt'] at hforest hsame
  refine (hrewrite.eq_propagateBlock hforest ?_).symm
  cases hs : s.starts[k] <;> cases ht : t.starts[k] <;> rw [hs, ht] at hsame
  · rfl
  · cases hsame
  · cases hsame
  · exact some.inj hsame

/-- The known copies form a forest at every step of the search and of the rewriting, so that a
variable has at most one known source.  Propagation has the same result, if any, in whatever order
the known copies are listed. -/
theorem known_copies_form_forests (aliased : NameSet) (body : Listing Instr) :
    (∀ s, Relation.ReflTransGen (CopySearch.VisitsTo (FlowGraph.ofCode Instr.flow body)
        (blocksOf Instr.flow body).toArray aliased)
        (.initial (FlowGraph.ofCode Instr.flow body).size) s →
      s.Forests (FlowGraph.ofCode Instr.flow body) (blocksOf Instr.flow body).toArray aliased) ∧
    (∀ known : Copies, known.Forest → ∀ v src, known.sourceOf? v = some src ↔ ⟨v, src⟩ ∈ known) ∧
    (∀ result, PropagatesTo aliased body result ↔
      ∃ visits, propagateCopies? visits aliased body = some result) ∧
    ∀ result result', PropagatesTo aliased body result → PropagatesTo aliased body result' →
      result = result' := by
  refine ⟨fun s => forests_of_visitsTo, fun known hknown v src =>
    hknown.sourceOf?_eq_some_iff, fun result => ⟨fun h => ?_, fun ⟨visits, h⟩ =>
      propagatesTo_of_propagateCopies? h⟩, fun result result' h h' => ?_⟩
  · obtain ⟨visits, hvisits⟩ := exists_of_propagatesTo h
    exact ⟨visits, hvisits visits (Nat.le_refl _)⟩
  · obtain ⟨visits, hvisits⟩ := exists_of_propagatesTo h
    obtain ⟨visits', hvisits'⟩ := exists_of_propagatesTo h'
    exact some.inj ((hvisits _ (Nat.le_max_left visits visits')).symm.trans
      (hvisits' _ (Nat.le_max_right visits visits')))

end ThreeAddress
