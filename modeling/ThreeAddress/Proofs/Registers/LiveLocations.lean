import ThreeAddress.Proofs.Control.BackwardFacts
import ThreeAddress.Registers.Liveness

/-!
# Live locations

The liveness that the allocator works with is the solution of a backward analysis.  What is live
where control goes next is live after the instruction it comes from.
-/

namespace ThreeAddress

open Std.ExtTreeSet CodeAnalysis List

namespace AllocationProblem

variable {R C L : Type} [Ord R] [Std.TransOrd R]
  {p : AllocationProblem R C L} {l : Location R} {k : Nat} {a : Access R L} {live : LocationSet R}

/-! ### One block -/

@[simp] theorem liveThrough_snd (p : AllocationProblem R C L) (block : List (Access R L))
    (live : LocationSet R) : (p.liveThrough block live).2 = block.foldr p.liveBefore live := by
  induction block with
  | nil => rfl
  | cons a rest ih => exact congrArg (p.liveBefore a) ih

@[simp] theorem length_liveThrough (p : AllocationProblem R C L) (block : List (Access R L))
    (live : LocationSet R) : (p.liveThrough block live).1.length = block.length := by
  induction block with
  | nil => rfl
  | cons a rest ih => exact congrArg (· + 1) ih

theorem getElem?_liveThrough {block : List (Access R L)} {j : Nat} (ha : block[j]? = some a)
    (live : LocationSet R) :
    (p.liveThrough block live).1[j]? =
      some ⟨p.liveBefore a ((block.drop (j + 1)).foldr p.liveBefore live),
        (block.drop (j + 1)).foldr p.liveBefore live⟩ := by
  induction block generalizing j with
  | nil => cases ha
  | cons i rest ih =>
    cases j with
    | zero =>
      cases ha
      exact congrArg (fun after => some (Live.mk (p.liveBefore a after) after))
        (p.liveThrough_snd rest live)
    | succ j => exact ih ha

/-! ### One instruction -/

variable [Std.LawfulEqOrd R]

theorem mem_foldl_erase {ls : List (Location R)} :
    l ∈ ls.foldl (fun live l => live.erase l) live ↔ l ∈ live ∧ l ∉ ls := by
  induction ls generalizing live with
  | nil => simp
  | cons k rest ih =>
    rw [foldl_cons, ih, mem_erase, ne_eq, Std.LawfulEqOrd.compare_eq_iff_eq]
    simp only [mem_cons, not_or, eq_comm]
    tauto

theorem mem_foldl_insert {ls : List (Location R)} :
    l ∈ ls.foldl (fun live l => live.insert l) live ↔ l ∈ live ∨ l ∈ ls := by
  induction ls generalizing live with
  | nil => simp
  | cons k rest ih =>
    rw [foldl_cons, ih, mem_insert, Std.LawfulEqOrd.compare_eq_iff_eq]
    simp only [mem_cons, eq_comm]
    tauto

/-- A location is live before an instruction if the instruction reads it, or if it is live after
the instruction and not written. -/
theorem mem_liveBefore : l ∈ p.liveBefore a live ↔
      (l ∈ live ∧ l ∉ a.writes) ∨ (l ∈ a.reads ∧ p.isTracked l = true) := by
  simp only [liveBefore, mem_foldl_insert, mem_foldl_erase, mem_filter]

theorem mem_liveAtExit [DecidableEq R] :
    l ∈ p.liveAtExit ↔ (∃ r ∈ p.exitLive, .reg r = l) ∧ p.isTracked l = true := by
  rw [liveAtExit, mem_ofList, List.contains_iff_mem, mem_filter, mem_map]

/-! ### All instructions -/

variable [DecidableEq L]

def locationAnalysis (p : AllocationProblem R C L) : CodeAnalysis (Location R) (Access R L) L where
  flow := Access.flow
  code := p.code
  before := p.liveBefore
  atExit := p.liveAtExit
  factBound := (p.code.flatMap Access.reads).length + p.exitLive.length

/-- The analysis settles: only what is read somewhere or needed at the exit can be live. -/
theorem locationAnalysis_climbs [DecidableEq R] (p : AllocationProblem R C L) :
    p.locationAnalysis.byBlocks.Climbs := by
  let read : LocationSet R := .ofList (p.code.flatMap Access.reads) compare
  let all : LocationSet R := read ∪ p.liveAtExit
  have hmem : ∀ l, l ∈ all ↔ l ∈ p.code.flatMap Access.reads ∨ l ∈ p.liveAtExit := by
    intro l
    rw [Std.ExtTreeSet.mem_union_iff, mem_ofList, List.contains_iff_mem]
  refine climbs (fun a s t hst l hl => ?_) all ?_ (fun l hl => ?_) ?_
  · change l ∈ p.liveBefore a s at hl
    change l ∈ p.liveBefore a t
    rw [mem_liveBefore] at hl ⊢
    exact hl.imp_left fun h => ⟨hst l h.1, h.2⟩
  · have hread : read.size ≤ (p.code.flatMap Access.reads).length := size_ofList_le
    have hexit : p.liveAtExit.size ≤ p.exitLive.length := by
      refine size_ofList_le.trans ((length_filter_le _ _).trans ?_)
      rw [length_map]
    have hunion : all.size ≤ read.size + p.liveAtExit.size :=
      size_union_le_size_add_size
    show all.size ≤ (p.code.flatMap Access.reads).length + p.exitLive.length
    omega
  · exact (hmem l).mpr (.inr hl)
  · intro a ha s hs l hl
    rcases mem_liveBefore.mp hl with ⟨hl, -⟩ | ⟨hl, -⟩
    · exact hs l hl
    · exact (hmem l).mpr (.inl (mem_flatMap.mpr ⟨a, ha, hl⟩))

/-- The locations live before the instruction at a position, or at the exit. -/
def liveAt (p : AllocationProblem R C L) (k : Nat) : LocationSet R :=
  p.locationAnalysis.factsBefore k

def liveAfter (p : AllocationProblem R C L) (k : Nat) : LocationSet R :=
  p.locationAnalysis.factsAfter k

theorem liveAt_of_getElem? (h : p.code[k]? = some a) :
    p.liveAt k = p.liveBefore a (p.liveAfter k) :=
  factsBefore_of_getElem? h

theorem liveAt_length : p.liveAt p.code.length = p.liveAtExit := by
  rw [liveAt, factsBefore]
  simp [locationAnalysis]

/-- What is live where control goes next is live after the instruction it comes from. -/
theorem liveAt_subset [DecidableEq R] {t : Nat} (ht : t ∈ nextPositions Access.flow p.code k) :
    ∀ l ∈ p.liveAt t, l ∈ p.liveAfter k :=
  factsBefore_subset p.locationAnalysis_climbs ht

/-- The liveness is the least one: if something holds of all locations that are live at the exit and
is passed on by every instruction, it holds of all live locations. -/
theorem exists_next_of_mem_liveAfter (holds : Nat → Location R → Prop)
    (hexit : ∀ l ∈ p.liveAtExit, holds p.code.length l)
    (hstep : ∀ k a, p.code[k]? = some a → ∀ l, (l ∈ a.reads ∧ p.isTracked l = true) ∨
      (l ∉ a.writes ∧ ∃ m ∈ nextPositions Access.flow p.code k, holds m l) → holds k l)
    (hl : l ∈ p.liveAfter k) : ∃ m ∈ nextPositions Access.flow p.code k, holds m l := by
  refine exists_next_of_mem_factsAfter hexit
    (fun k a ha facts hfacts l hl => hstep k a ha l ?_) ?_ l hl
  · rcases mem_liveBefore.mp hl with ⟨hl, hwrites⟩ | hl
    · exact .inr ⟨hwrites, hfacts l hl⟩
    · exact .inl hl
  · by_contra hle
    rw [liveAfter, factsAfter_of_length_le _ (by omega)] at hl
    simp at hl

theorem isTracked_of_mem_liveAfter [DecidableEq R] (hl : l ∈ p.liveAfter k) :
    p.isTracked l = true := by
  obtain ⟨-, -, htracked⟩ := exists_next_of_mem_liveAfter (fun _ l => p.isTracked l = true)
    (fun l hl => (mem_liveAtExit.mp hl).2)
    (fun k a _ l hor => hor.elim And.right fun h => h.2.elim fun _ h => h.2) hl
  exact htracked

theorem occurs_of_mem_liveAfter [DecidableEq R] (hl : l ∈ p.liveAfter k) :
    l.isPseudo = false ∨ ∃ a ∈ p.code, l ∈ a.reads := by
  obtain ⟨-, -, hoccurs⟩ := exists_next_of_mem_liveAfter
    (fun _ l => l.isPseudo = false ∨ ∃ a ∈ p.code, l ∈ a.reads)
    (fun l hl => by
      obtain ⟨⟨r, -, rfl⟩, -⟩ := mem_liveAtExit.mp hl
      exact .inl rfl)
    (fun k a ha l hor => hor.elim (fun h => .inr ⟨a, mem_of_getElem? ha, h.1⟩)
      fun h => h.2.elim fun _ h => h.2) hl
  exact hoccurs

/-! ### The result of the analysis -/

theorem getElem?_liveness (h : p.code[k]? = some a) :
    p.liveness[k]? = some ⟨p.liveAt k, p.liveAfter k⟩ := by
  obtain ⟨n, j, b, hin, hb, ha⟩ := exists_inBlock_of_getElem? Access.flow h
  -- The position lies in a block, and the liveness of its block has an entry for it.
  have hlive : p.liveness[k]? = (p.liveThrough b (p.locationAnalysis.atEnd n)).1[j]? :=
    getElem?_flatMap_zipIdx (fun b n => p.length_liveThrough b _) hin hb
  rw [hlive, getElem?_liveThrough ha, liveAt_of_getElem? h, liveAfter, factsAfter_eq _ hin hb]
  rfl

theorem length_liveness (p : AllocationProblem R C L) : p.liveness.length = p.code.length := by
  rw [liveness, length_flatMap_zipIdx fun b n => p.length_liveThrough b _, blocks, flatten_blocksOf]

/-- Every instruction is paired with the locations live after it. -/
theorem exists_getElem?_zip_liveness (h : p.code[k]? = some a) :
    ∃ l, (p.code.zip p.liveness)[k]? = some (a, l) ∧ l.after = p.liveAfter k :=
  ⟨_, getElem?_zip_eq_some.mpr ⟨h, getElem?_liveness h⟩, rfl⟩

theorem exists_of_mem_zip_liveness {live : Live R} (h : (a, live) ∈ p.code.zip p.liveness) :
    ∃ k, p.code[k]? = some a ∧ live.after = p.liveAfter k := by
  obtain ⟨k, hk⟩ := mem_iff_getElem?.mp h
  have ha : p.code[k]? = some a := (getElem?_zip_eq_some.mp hk).1
  obtain ⟨live', hlive, hafter⟩ := exists_getElem?_zip_liveness ha
  rw [hk] at hlive
  cases hlive
  exact ⟨k, ha, hafter⟩

end AllocationProblem

end ThreeAddress
