import ThreeAddress.Proofs.Registers.LiveLocations

/-!
# Exact liveness

A location is live at a position if there is a path from there on which its value is still needed:
the path comes to an instruction that reads the location, or leaves the code with a register that is
needed at the exit, and no instruction before writes it.  This says nothing of blocks or of sets
that grow.  The analysis ends, and what it finds around an instruction are exactly the locations
with a class that are live there.
-/

namespace ThreeAddress

namespace AllocationProblem

/-! ### Liveness by paths -/

section

variable {R C L : Type} [DecidableEq L]

/-- Control can get from a position to another one, and no instruction on the way writes the
location. -/
def Unwritten (p : AllocationProblem R C L) (l : Location R) : Nat → Nat → Prop :=
  Relation.ReflTransGen fun k t =>
    t ∈ nextPositions Access.flow p.code k ∧ ∀ a, p.code[k]? = some a → l ∉ a.writes

/-- The value of a location is needed at a position: the instruction there reads it, or the code is
left there and the location is a register that is needed at the exit. -/
inductive NeededAt (p : AllocationProblem R C L) : Location R → Nat → Prop
  | read {l : Location R} {k : Nat} {a : Access R L} (ha : p.code[k]? = some a) (hl : l ∈ a.reads) :
    NeededAt p l k
  | exit {r : R} (hr : r ∈ p.exitLive) : NeededAt p (.reg r) p.code.length

/-- A location is live at a position: there is a path to where it is needed, and it is not written
before. -/
def LiveFrom (p : AllocationProblem R C L) (k : Nat) (l : Location R) : Prop :=
  ∃ m, p.Unwritten l k m ∧ p.NeededAt l m

variable {p : AllocationProblem R C L} {l : Location R} {k t : Nat} {a : Access R L}

theorem LiveFrom.head (ha : p.code[k]? = some a) (hl : l ∉ a.writes)
    (ht : t ∈ nextPositions Access.flow p.code k) (h : p.LiveFrom t l) : p.LiveFrom k l := by
  obtain ⟨m, hpath, hneeded⟩ := h
  refine ⟨m, .head ⟨ht, fun a' ha' => ?_⟩ hpath, hneeded⟩
  rwa [← Option.some.inj (ha.symm.trans ha')]

end

/-! ### What the analysis finds -/

variable {R C L : Type} [Ord R] [Std.TransOrd R] [Std.LawfulEqOrd R] [DecidableEq R] [DecidableEq L]
  {p : AllocationProblem R C L} {l : Location R} {k : Nat} {live : Live R}

/-- What is found after an instruction is live where control can go next: the analysis finds the
least sets, and liveness is passed on from instruction to instruction. -/
theorem exists_liveFrom_of_mem_liveAfter (hl : l ∈ p.liveAfter k) :
    ∃ t ∈ nextPositions Access.flow p.code k, p.LiveFrom t l := by
  refine exists_next_of_mem_liveAfter (fun t l => p.LiveFrom t l) (fun l hl => ?_)
    (fun k a ha l hor => ?_) hl
  · obtain ⟨⟨r, hr, rfl⟩, -⟩ := mem_liveAtExit.mp hl
    exact ⟨_, .refl, .exit hr⟩
  · rcases hor with ⟨hl, -⟩ | ⟨hl, t, ht, hlive⟩
    · exact ⟨k, .refl, .read ha hl⟩
    · exact .head ha hl ht hlive

theorem LiveFrom.mem_liveAt (h : p.LiveFrom k l) (hl : p.isTracked l = true) : l ∈ p.liveAt k := by
  obtain ⟨m, hpath, hneeded⟩ := h
  induction hpath using Relation.ReflTransGen.head_induction_on with
  | refl =>
    cases hneeded with
    | read ha hread =>
      rw [liveAt_of_getElem? ha]
      exact mem_liveBefore.mpr (.inr ⟨hread, hl⟩)
    | exit hr =>
      rw [liveAt_length]
      exact mem_liveAtExit.mpr ⟨⟨_, hr, rfl⟩, hl⟩
  | @head k t hstep _ ih =>
    have hafter := liveAt_subset hstep.1 l ih
    cases ha : p.code[k]? with
    | none =>
      rw [nextPositions, ha] at hstep
      cases hstep.1
    | some a =>
      rw [liveAt_of_getElem? ha]
      exact mem_liveBefore.mpr (.inl ⟨hafter, hstep.2 a ha⟩)

/-- After an instruction those locations are found that are live where control can go next. -/
theorem mem_liveAfter_iff : l ∈ p.liveAfter k ↔ p.isTracked l = true ∧
    ∃ t ∈ nextPositions Access.flow p.code k, p.LiveFrom t l := by
  constructor
  · exact fun hl => ⟨isTracked_of_mem_liveAfter hl, exists_liveFrom_of_mem_liveAfter hl⟩
  · rintro ⟨hl, t, ht, hlive⟩
    exact liveAt_subset ht l (hlive.mem_liveAt hl)

/-- Before an instruction those locations are found that are live there. -/
theorem mem_liveAt_iff (hk : k < p.code.length) :
    l ∈ p.liveAt k ↔ p.isTracked l = true ∧ p.LiveFrom k l := by
  have ha : p.code[k]? = some p.code[k] := List.getElem?_eq_getElem hk
  refine ⟨fun hl => ?_, fun ⟨hl, hlive⟩ => hlive.mem_liveAt hl⟩
  rw [liveAt_of_getElem? ha] at hl
  rcases mem_liveBefore.mp hl with ⟨hl, hwrites⟩ | ⟨hl, htracked⟩
  · obtain ⟨htracked, t, ht, hlive⟩ := mem_liveAfter_iff.mp hl
    exact ⟨htracked, .head ha hwrites ht hlive⟩
  · exact ⟨htracked, k, .refl, .read ha hl⟩

/-- The sweeps of the analysis end: after some of them, no more than there are facts to find,
another one changes nothing. -/
theorem exists_rounds_eq_solve (p : AllocationProblem R C L) :
    ∃ rounds ≤ p.livenessAnalysis.graph.size * p.livenessAnalysis.factBound + 1,
      p.livenessAnalysis.solve = p.livenessAnalysis.sweep^[rounds]
        (Array.replicate p.livenessAnalysis.graph.size ∅) ∧
      p.livenessAnalysis.sweep p.livenessAnalysis.solve = p.livenessAnalysis.solve := by
  obtain ⟨rounds, hrounds, hsolve⟩ := exists_iterate_eq p.livenessAnalysis.sweep
    (p.livenessAnalysis.graph.size * p.livenessAnalysis.factBound + 1)
    (.replicate p.livenessAnalysis.graph.size ∅)
  exact ⟨rounds, hrounds, hsolve, p.locationAnalysis_climbs.sweep_solve.2⟩

/-- Liveness is exact.  The sweeps over the blocks end, and there is an answer for every
instruction.  The locations found before an instruction are those with a class that are live there,
and those found after it are those with a class that are live where control can go next. -/
theorem liveness_exact (p : AllocationProblem R C L) :
    (∃ rounds ≤ p.livenessAnalysis.graph.size * p.livenessAnalysis.factBound + 1,
      p.livenessAnalysis.solve = p.livenessAnalysis.sweep^[rounds]
        (Array.replicate p.livenessAnalysis.graph.size ∅) ∧
      p.livenessAnalysis.sweep p.livenessAnalysis.solve = p.livenessAnalysis.solve) ∧
    p.liveness.length = p.code.length ∧
    ∀ k live, p.liveness[k]? = some live → ∀ l,
      (l ∈ live.before ↔ p.isTracked l = true ∧ p.LiveFrom k l) ∧
      (l ∈ live.after ↔ p.isTracked l = true ∧
        ∃ t ∈ nextPositions Access.flow p.code k, p.LiveFrom t l) := by
  refine ⟨p.exists_rounds_eq_solve, p.length_liveness, fun k live hlive l => ?_⟩
  have hk : k < p.code.length := by
    rw [← p.length_liveness]
    exact (List.getElem?_eq_some_iff.mp hlive).1
  rw [getElem?_liveness (List.getElem?_eq_getElem hk)] at hlive
  cases hlive
  exact ⟨mem_liveAt_iff hk, mem_liveAfter_iff⟩

/-- A pseudo register gets its value before a loop that reads it. -/
def loop : AllocationProblem Nat Unit Nat where
  code := [⟨.next, [], [.pseudo "x"], none⟩, ⟨.label 0, [], [], none⟩,
    ⟨.next, [.pseudo "x"], [], none⟩, ⟨.branch 0, [], [], none⟩, ⟨.ret, [], [], none⟩]
  exitLive := [0]
  classOf _ := some ()
  classes := [()]
  className _ := ""
  colours _ := []

/-- The pseudo register stays live around the loop, and is not live before it gets its value. -/
theorem loop_liveness_exact : ∃ first last, loop.liveness[0]? = some first ∧
    loop.liveness[3]? = some last ∧ .pseudo "x" ∉ first.before ∧ .pseudo "x" ∈ last.after := by
  obtain ⟨-, hlength, hexact⟩ := loop.liveness_exact
  have hget {k : Nat} (hk : k < 5) : ∃ live, loop.liveness[k]? = some live :=
    ⟨_, List.getElem?_eq_getElem (hk.trans_eq hlength.symm)⟩
  obtain ⟨first, hfirst⟩ := hget (k := 0) (by decide)
  obtain ⟨last, hlast⟩ := hget (k := 3) (by decide)
  refine ⟨first, last, hfirst, hlast, fun hmem => ?_, ?_⟩
  · -- Every path from the first instruction starts with the write.
    obtain ⟨-, m, hpath, hneeded⟩ := (hexact 0 first hfirst _).1.mp hmem
    rcases hpath.cases_head with rfl | ⟨t, hstep, -⟩
    · cases hneeded with
      | read ha hl =>
        cases ha
        cases hl
    · exact hstep.2 _ rfl List.mem_cons_self
  · refine (hexact 3 last hlast _).2.mpr ⟨rfl, 1, by decide, 2, ?_, .read rfl List.mem_cons_self⟩
    refine .single ⟨by decide, fun a ha => ?_⟩
    cases ha
    exact List.not_mem_nil

end AllocationProblem

end ThreeAddress
