import ThreeAddress.Proofs.Control.EditedCode
import ThreeAddress.Proofs.Registers.Placement

/-!
# Execution of move code

Move code says which locations an operation reads and writes, but not what it computes.  A run is
given by arbitrary functions for its operations and by the branches that are taken.  Locations are
kept in cells: with every location in a cell of its own the code means what it says, and with
registers and stack slots as cells it means what is left after allocation.

A cell may be unwritten.  To read it is undefined.
-/

namespace ThreeAddress

variable {R K V : Type}
variable {cells : K → Option V} {i : MoveInstr R}

/-- What the operations of a run compute, and which branches are taken. -/
structure MoveCourse (V : Type) where
  /-- What the `n`-th operation of the run writes to the `j`-th location it writes, computed from
  the values it reads. -/
  compute (n : Nat) (reads : List V) (j : Nat) : V
  /-- Whether the `n`-th branch of the run is taken. -/
  taken (n : Nat) : Bool

/-- The memory of a run, with cells of type `K`. -/
structure MoveMemory (K V : Type) where
  cells : K → Option V
  /-- The values that each operation has read so far. -/
  log : List (List V)
  /-- How many branches there were so far. -/
  branches : Nat

/-! ### Cells -/

section

variable [DecidableEq K]

def writeAll (cells : K → Option V) : List (K × V) → K → Option V
  | [] => cells
  | x :: rest => writeAll (Function.update cells x.1 (some x.2)) rest

theorem isSome_writeAll {written : List (K × V)} {c : K} (h : (cells c).isSome = true) :
    (writeAll cells written c).isSome = true := by
  induction written generalizing cells with
  | nil => exact h
  | cons x rest ih =>
    refine ih ?_
    by_cases hx : c = x.1
    · simp [hx]
    · rwa [Function.update_of_ne hx]

/-- What lies in one cell lies in another too. -/
def CarriedOver (a b : Option V) : Prop := ∀ v, a = some v → b = some v

/-- A location that shares its cell with no other that is written has the last value written to
it. -/
theorem carriedOver_writeAll [DecidableEq R] {place : Location R → K}
    {values : Location R → Option V} {written : List (Location R × V)} {w : Location R}
    (hplace : ∀ x ∈ written, x.1 ≠ w → place x.1 ≠ place w)
    (h : CarriedOver (values w) (cells (place w)) ∨ w ∈ written.map Prod.fst) :
    CarriedOver (writeAll values written w)
      (writeAll cells (written.map (Prod.map place id)) (place w)) := by
  induction written generalizing values cells with
  | nil => exact h.resolve_right (by simp)
  | cons x rest ih =>
    obtain ⟨hx, hrest⟩ := List.forall_mem_cons.mp hplace
    refine ih hrest ?_
    by_cases hw : x.1 = w
    · refine Or.inl ?_
      subst hw
      intro v hv
      simpa using hv
    · rcases h with h | h
      · refine .inl ?_
        rwa [Function.update_of_ne (.symm hw), show (Prod.map place id x).1 = place x.1 from rfl,
          Function.update_of_ne (.symm (hx hw))]
      · refine .inr ?_
        simpa [Ne.symm hw] using h

end

/-! ### The machine -/

namespace MoveFunction

/-- The values in the cells of the registers that are needed at the exit. -/
def results (place : Location R → K) (returns : List R) (m : MoveMemory K V) : List (Option V) :=
  returns.map fun r => m.cells (place (.reg r))

section

variable [DecidableEq K]

def performed (course : MoveCourse V) (place : Location R → K) (m : MoveMemory K V)
    (writes : List (Location R)) (values : List V) : MoveMemory K V :=
  let written := writes.zipIdx.map fun (l, j) => (l, course.compute m.log.length values j)
  { m with
    cells := writeAll m.cells (written.map (Prod.map place id))
    log := m.log ++ [values] }

/-- What an instruction leads to.  The exit needs the registers in `returns`. -/
def execute (course : MoveCourse V) (place : Location R → K) (returns : List R)
    (m : MoveMemory K V) : MoveInstr R → Outcome String (MoveMemory K V) (List (Option V))
  | .mov dst src =>
    match m.cells (place src) with
    | some v => .next { m with cells := Function.update m.cells (place dst) (some v) }
    | none => .stop m .undefined
  | .op writes reads =>
    match reads.mapM fun l => m.cells (place l) with
    | some values => .next (performed course place m writes values)
    | none => .stop m .undefined
  | .label _ => .next m
  | .jump l => .jump l m
  | .branch l =>
    let m' := { m with branches := m.branches + 1 }
    if course.taken m.branches then .jump l m' else .next m'
  | .ret => .stop m (.returned (results place returns m))

/-- The machine that runs move code with locations in the given cells.  An observer sees what the
operations read, and how many branches there were. -/
def machine (course : MoveCourse V) (place : Location R → K) (returns : List R) :
    Machine (MoveInstr R) String (MoveMemory K V) (List (Option V)) (List (List V) × Nat) where
  flow := fun i => i.access.flow
  execute := execute course place returns
  leave := results place returns
  seen := fun m => (m.log, m.branches)
  target?_of_jump := by
    intro m m' i l h
    cases i with
    | mov dst src =>
      simp only [execute] at h
      split at h <;> cases h
    | op writes reads =>
      simp only [execute] at h
      split at h <;> cases h
    | label l' => cases h
    | jump l' => cases h; rfl
    | branch l' =>
      simp only [execute] at h
      split at h <;> cases h
      rfl
    | ret => cases h
  mayContinue_of_next := by
    intro m m' i h
    cases i with
    | mov dst src | op writes reads | label l' | branch l' => rfl
    | jump l' | ret => cases h
  execute_label := by
    intro m i l h
    cases i with
    | label l' => rfl
    | mov dst src | op writes reads | jump l' | branch l' | ret => cases h

end

/-! ### Placements -/

variable {f : MoveFunction R} {course : MoveCourse V} {placed : Location R → Prop}
  {g : Location R → Location R} {place : Location R → K}

theorem execute_map [DecidableEq K]
    (hreg : ∀ r, g (.reg r) = .reg r) (returns : List R) (m : MoveMemory K V) (i : MoveInstr R) :
    execute course place returns m (i.map g) = execute course (place ∘ g) returns m i := by
  cases i with
  | mov dst src | label l | jump l | branch l => rfl
  | op writes reads =>
    have hreads : (reads.map g).mapM (fun l => m.cells (place l)) =
        reads.mapM fun l => m.cells ((place ∘ g) l) := by
      rw [List.mapM_map]
      rfl
    have hwrites : ∀ values, performed course place m (writes.map g) values =
        performed course (place ∘ g) m writes values := by
      simp [performed, List.zipIdx_map, Function.comp_def]
    simp only [MoveInstr.map, execute, hreads, hwrites]
  | ret => simp [MoveInstr.map, execute, results, hreg]

theorem getElem?_problem_code [DecidableEq R] {k : Nat} (hi : f.body[k]? = some i) :
    f.problem.code[k]? = some i.access := by
  simp [problem, hi]

variable [Ord R] [Std.TransOrd R] [Std.LawfulEqOrd R] [DecidableEq R]

/-- The memories of a run before and after placement: needed values are carried over, and the same
was seen.  Machine registers are never unwritten. -/
structure Placed (f : MoveFunction R) (placed : Location R → Prop) (place : Location R → K)
    (k : Nat) (m : MoveMemory (Location R) V) (m' : MoveMemory K V) : Prop where
  agrees : f.problem.Agrees placed place CarriedOver k m.cells m'.cells
  log_eq : m.log = m'.log
  branches_eq : m.branches = m'.branches
  registers : ∀ r, (m.cells (.reg r)).isSome = true

section

variable {k : Nat} {m : MoveMemory (Location R) V} {m' : MoveMemory K V}

theorem Placed.seen_eq (h : Placed f placed place k m m') :
    (m.log, m.branches) = (m'.log, m'.branches) := by
  rw [h.log_eq, h.branches_eq]

theorem Placed.results_eq (h : Placed f placed place f.body.length m m')
    (hplaced : ∀ r, placed (.reg r)) : results id f.returns m = results place f.returns m' := by
  refine List.map_congr_left fun r hr => ?_
  obtain ⟨v, hv⟩ := Option.isSome_iff_exists.mp (h.registers r)
  have hagrees : f.problem.Agrees placed place CarriedOver f.problem.code.length m.cells
      m'.cells := by
    simpa [problem] using h.agrees
  show m.cells (.reg r) = m'.cells (place (.reg r))
  rw [hv, hagrees.of_mem_exitLive hr (hplaced r) v hv]

section

variable (h : Placed f placed place k m m')

include h

theorem Placed.unwritten (hsafe : f.problem.Safe placed place) (hi : f.body[k]? = some i)
    (hwrites : i.access.writes = []) (hmove : i.access.move? = none) {t : Nat}
    (ht : t ∈ nextPositions (fun i => i.access.flow) f.body k) : Placed f placed place t m m' := by
  refine ⟨?_, h.log_eq, h.branches_eq, h.registers⟩
  refine h.agrees.step hsafe (getElem?_problem_code hi) (by rwa [problem, nextPositions_map]) ?_ ?_
    fun _ _ _ hfits _ => hfits
  · simp [hwrites]
  · simp [hmove]

theorem Placed.mov (hsafe : f.problem.Safe placed place) {dst src : Location R}
    (hi : f.body[k]? = some (.mov dst src)) (hsrc : placed src) {v : V} (hv : m.cells src = some v)
    (hcells : ∀ c, c ≠ place dst → cells c = m'.cells c) (hdst : cells (place dst) = some v) :
    Placed f placed place (k + 1) { m with cells := Function.update m.cells dst (some v) }
      { m' with cells := cells } := by
  refine ⟨?_, h.log_eq, h.branches_eq, fun r => ?_⟩
  · refine h.agrees.step hsafe (getElem?_problem_code hi) ?_ ?_ ?_ ?_
    · simp [problem, nextPositions, hi, MoveInstr.access]
    · intro w hw _ _
      obtain rfl : w = dst := by simpa [MoveInstr.access] using hw
      show CarriedOver (Function.update m.cells w (some v) w) (cells (place w))
      rw [Function.update_self, hdst]
      exact fun _ => id
    · intro l hl
      obtain rfl : l = src := by simpa [MoveInstr.access] using hl
      exact List.mem_singleton.mpr rfl
    · intro l _ hl hfits hother u hu
      have hne : l ≠ dst := by simpa [MoveInstr.access] using hl
      have hold : m.cells l = some u := by simpa [Function.update_of_ne hne] using hu
      show cells (place l) = some u
      by_cases hc : place l = place dst
      · -- Only the source may share the cell of the destination.
        rcases hother with hother | hsrc
        · exact absurd hc.symm (hother dst (by simp [MoveInstr.access]))
        · obtain rfl : l = src := by simpa [MoveInstr.access] using hsrc
          rw [hc, hdst, ← hv, hold]
      · rw [hcells _ hc, hfits u hold]
  · by_cases hr : .reg r = dst
    · simp [hr]
    · simpa [Function.update_of_ne hr] using h.registers r

theorem Placed.mapM_eq (hi : f.body[k]? = some i) (hplaced : ∀ l ∈ i.access.reads, placed l)
    {reads : List (Location R)} (hreads : ∀ l ∈ reads, l ∈ i.access.reads) {values : List V}
    (hvalues : reads.mapM (fun l => m.cells l) = some values) :
    reads.mapM (fun l => m'.cells (place l)) = some values := by
  induction reads generalizing values with
  | nil => exact hvalues
  | cons l rest ih =>
    obtain ⟨hl, hrest⟩ := List.forall_mem_cons.mp hreads
    simp only [List.mapM_cons, Option.bind_eq_bind, Option.bind_eq_some_iff] at hvalues ⊢
    obtain ⟨v, hv, vs, hvs, hcons⟩ := hvalues
    exact ⟨v, h.agrees.of_mem_reads (getElem?_problem_code hi) hl (hplaced l hl) v hv, vs,
      ih hrest hvs, hcons⟩

theorem Placed.performed [DecidableEq K] (hsafe : f.problem.Safe placed place)
    {writes reads : List (Location R)} (hi : f.body[k]? = some (.op writes reads))
    (values : List V) :
    Placed f placed place (k + 1) (performed course id m writes values)
      (performed course place m' writes values) := by
  have ha : f.problem.code[k]? = some ⟨.next, reads, writes, none⟩ := getElem?_problem_code hi
  refine ⟨?_, ?_, h.branches_eq, fun r => isSome_writeAll (h.registers r)⟩
  · simp only [MoveFunction.performed, ← h.log_eq, Prod.map_id, List.map_id]
    generalize hwritten : writes.zipIdx.map
      (fun x => (x.1, course.compute m.log.length values x.2)) = written
    have hfst : written.map Prod.fst = writes := by
      subst hwritten
      simp [Function.comp_def]
    have hmem : ∀ x ∈ written, x.1 ∈ writes := fun x hx => hfst ▸ List.mem_map_of_mem hx
    refine h.agrees.step hsafe ha ?_ ?_ (by simp) ?_
    · simp [problem, nextPositions, hi, MoveInstr.access]
    · intro w hw hplaced hlive
      refine carriedOver_writeAll (fun x hx hne => ?_) (.inr (hfst ▸ hw))
      exact hsafe ha (hmem x hx) hplaced hlive (.symm hne) (by simp)
    · intro l _ hl hfits hother
      refine carriedOver_writeAll (fun x hx _ => ?_) (.inl hfits)
      exact hother.resolve_right (by simp) x.1 (hmem x hx)
  · simp [MoveFunction.performed, h.log_eq]

theorem Placed.outcomesMatch [DecidableEq K] (hsafe : f.problem.Safe placed place)
    (hi : f.body[k]? = some i) (hplaced : ∀ l ∈ i.access.reads, placed l)
    (hregisters : ∀ r, placed (.reg r))
    (hdefined : ¬ IsUndefinedAt (machine course id f.returns) m i) :
    OutcomesMatch (machine course id f.returns) (machine course place f.returns) f.body
      (Placed f placed place) k (execute course id f.returns m i)
      (execute course place f.returns m' i) := by
  cases i with
  | mov dst src =>
    cases hv : m.cells src with
    | none => exact absurd ⟨m, by simp [machine, execute, hv]⟩ hdefined
    | some v =>
      have hsrc : placed src := hplaced src (List.mem_singleton.mpr rfl)
      have hsource : m'.cells (place src) = some v :=
        h.agrees.of_mem_reads (getElem?_problem_code hi) (List.mem_singleton.mpr rfl) hsrc v hv
      simp only [execute, id_eq, hv, hsource]
      refine .next (h.mov hsafe hi hsrc hv (fun c hc => ?_) ?_)
      · exact Function.update_of_ne hc _ _
      · exact Function.update_self _ _ _
  | op writes reads =>
    cases hvalues : reads.mapM fun l => m.cells l with
    | none => exact absurd ⟨m, by simp [machine, execute, hvalues]⟩ hdefined
    | some values =>
      have hvalues' : reads.mapM (fun l => m'.cells (place l)) = some values :=
        h.mapM_eq hi hplaced (fun _ => id) hvalues
      simp only [execute, id_eq, hvalues, hvalues']
      exact .next (h.performed hsafe hi values)
  | label l =>
    refine .next (h.unwritten hsafe hi rfl rfl ?_)
    exact Machine.mem_nextPositions_of_next (M := machine course id f.returns) (m := m) hi rfl
  | jump l =>
    refine .jump (h.unwritten hsafe hi rfl rfl ?_)
    exact Machine.mem_nextPositions_of_jump (M := machine course id f.returns) (m := m) hi rfl
  | branch l =>
    have hunwritten : ∀ {t}, t ∈ nextPositions (fun i => i.access.flow) f.body k →
        Placed f placed place t { m with branches := m.branches + 1 }
          { m' with branches := m.branches + 1 } := by
      intro t ht
      obtain ⟨hagrees, hlog, -, hregs⟩ := h.unwritten hsafe hi rfl rfl ht
      exact ⟨hagrees, hlog, rfl, hregs⟩
    have hpositions : nextPositions (fun i => i.access.flow) f.body k =
        [targetPosition (fun i => i.access.flow) f.body l, k + 1] := by
      simp [nextPositions, hi, MoveInstr.access]
    simp only [execute, ← h.branches_eq]
    split
    · exact .jump (hunwritten (hpositions ▸ List.mem_cons_self))
    · exact .next (hunwritten (hpositions ▸ List.mem_cons_of_mem _ (List.mem_singleton.mpr rfl)))
  | ret =>
    have hexit := h.unwritten hsafe hi rfl rfl (t := f.body.length)
      (by simp [nextPositions, hi, MoveInstr.access])
    simp only [execute, hexit.results_eq hregisters]
    exact .stop h.seen_eq

end

/-- Code keeps its meaning if its locations are renamed and then put into cells, and copies of a
location to itself are dropped, as long as that is safe. -/
theorem editCorrect_map [DecidableEq K] (hsafe : f.problem.Safe placed (place ∘ g))
    (hplaced : ∀ i ∈ f.body, ∀ l ∈ i.access.reads, placed l) (hregisters : ∀ r, placed (.reg r))
    (hreg : ∀ r, g (.reg r) = .reg r) {drop : MoveInstr R → Bool}
    (hdrop : ∀ i, drop i = true → i.isSelfMove = true) :
    EditCorrect (machine course id f.returns) (machine course place f.returns) f.body
      (replacing (MoveInstr.map g) drop f.body) (Placed f placed (place ∘ g)) where
  length_eq := by simp [replacing]
  seen_eq := fun h => h.seen_eq
  leave_eq := by
    intro m m' h
    have hresults : results (place ∘ g) f.returns m' = results place f.returns m' := by
      simp [results, hreg]
    exact (h.results_eq hregisters).trans hresults
  kept := by
    intro k m m' i i' h hi hi' hdefined
    obtain ⟨j, hj, rfl⟩ := getElem?_replacing_eq_some_some hi'
    rw [hi] at hj
    cases hj
    show OutcomesMatch _ _ _ _ _ (execute course id f.returns m i)
      (execute course place f.returns m' (i.map g))
    rw [execute_map hreg]
    have hmatch := h.outcomesMatch hsafe hi (hplaced i (List.mem_of_getElem? hi)) hregisters
      hdefined
    generalize execute course id f.returns m i = o at hmatch ⊢
    generalize execute course (place ∘ g) f.returns m' i = o' at hmatch ⊢
    cases hmatch with
    | next h => exact .next h
    | jump h => exact .jump h
    | stop h => exact .stop h
  removed := by
    intro k m m' i h hi hi' hdefined
    obtain ⟨j, hj, hdropped⟩ := getElem?_replacing_eq_some_none hi'
    rw [hi] at hj
    cases hj
    -- Only a copy to itself is dropped, and its value is in place already.
    have hself := hdrop _ hdropped
    cases i with
    | op writes reads | label l | jump l | branch l | ret => cases hself
    | mov dst src =>
      have heq : g dst = g src := by simpa [MoveInstr.map, MoveInstr.isSelfMove] using hself
      cases hv : m.cells src with
      | none => exact absurd ⟨m, by simp [machine, execute, hv]⟩ hdefined
      | some v =>
        have hsrc : placed src :=
          hplaced _ (List.mem_of_getElem? hi) src (List.mem_singleton.mpr rfl)
        have hsource : m'.cells ((place ∘ g) src) = some v :=
          h.agrees.of_mem_reads (getElem?_problem_code hi) (List.mem_singleton.mpr rfl) hsrc v hv
        have hlt : k < f.body.length := (List.getElem?_eq_some_iff.mp hi).1
        refine ⟨k + 1, { m with cells := Function.update m.cells dst (some v) }, ?_, by omega, hlt,
          rfl, ?_, fun j hkj hjk => by omega⟩
        · show (machine course id f.returns).apply f.body ⟨k, m, none⟩
            (execute course id f.returns m (.mov dst src)) = _
          simp only [execute, id_eq, hv]
          rfl
        · refine h.mov hsafe hi hsrc hv (fun _ _ => rfl) ?_
          rw [← hsource, Function.comp_apply, Function.comp_apply, heq]
  target_eq := by
    intro k i' l _ _
    refine targetPosition_replacing (fun i _ => ?_) (fun i _ hi => ?_) l
    · cases i <;> rfl
    · have hself := hdrop _ hi
      cases i with
      | mov dst src => rfl
      | _ => cases hself

end

end MoveFunction

end ThreeAddress
