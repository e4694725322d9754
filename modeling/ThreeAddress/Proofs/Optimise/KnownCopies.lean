import ThreeAddress.Optimise.Copies
import ThreeAddress.Proofs.Semantics.Invariants

/-!
# Known copies

A copy holds in a memory if its variable has the value it is a copy of.  What is known before an
instruction and holds there leads to what is known after it.  The search for known copies ends with
copies at the start of every block that are known at the end of all its predecessors.
-/

namespace ThreeAddress

open Instr List FlowGraph

variable {visits : Nat}

/-! ### Copies that hold -/

/-- A copy between variables of their types, or of a constant of the type of the variable. -/
structure Copy.Typed (types : String → ScalarType) (c : Copy) : Prop where
  same : c.dst.type = c.src.type
  dst : types c.dst.name = c.dst.type
  src : ∀ v, c.src = .var v → types v.name = v.type

/-- The variable has the value it is a copy of. -/
def Copy.HoldsIn (m : Memory) (c : Copy) : Prop := m.eval (.var c.dst) = m.eval c.src

def Copies.Typed (types : String → ScalarType) (known : Copies) : Prop :=
  ∀ c ∈ known, c.Typed types

def Copies.HoldIn (m : Memory) (known : Copies) : Prop := ∀ c ∈ known, c.HoldsIn m

namespace Copies

variable {types : String → ScalarType} {aliased : NameSet} {known : Copies} {e : Environment}
  {m m' : Memory} {i : Instr}

/-- The variables of an instruction have their types. -/
def TypedInstr (types : String → ScalarType) (i : Instr) : Prop :=
  ∀ v ∈ i.variables, types v.name = v.type

theorem TypedInstr.written (h : TypedInstr types i) {v : Variable} (hv : i.written? = some v) :
    types v.name = v.type :=
  h v (by simp [Instr.variables, hv])

theorem TypedInstr.read (h : TypedInstr types i) {v : Variable} (hv : .var v ∈ i.reads) :
    types v.name = v.type := by
  have hmem : v ∈ i.readVars := mem_filterMap.mpr ⟨.var v, hv, rfl⟩
  exact h v (by simp [Instr.variables, hmem])

theorem substitute_cases (known : Copies) (v : Value) :
    known.substitute v = v ∨ ∃ c ∈ known, v = .var c.dst ∧ known.substitute v = c.src := by
  cases v with
  | const c => exact .inl rfl
  | var v =>
    have hsubst : known.substitute (.var v) = (known.sourceOf? v).getD (.var v) := rfl
    rw [hsubst, sourceOf?]
    cases hf : known.find? fun c => c.dst == v with
    | none => exact .inl rfl
    | some c =>
      have hdst : c.dst = v := by simpa using find?_some hf
      exact .inr ⟨c, mem_of_find?_eq_some hf, by rw [hdst], rfl⟩

theorem HoldIn.eval_substitute (h : known.HoldIn m) (v : Value) :
    m.eval (known.substitute v) = m.eval v := by
  rcases substitute_cases known v with heq | ⟨c, hc, rfl, heq⟩
  · rw [heq]
  · rw [heq]
    exact (h c hc).symm

theorem Typed.type_substitute (h : known.Typed types) (v : Value) :
    (known.substitute v).type = v.type := by
  rcases substitute_cases known v with heq | ⟨c, hc, rfl, heq⟩
  · rw [heq]
  · rw [heq]
    exact (h c hc).same.symm

theorem Typed.var_substitute (h : known.Typed types) {v : Value} {w : Variable}
    (hw : known.substitute v = .var w) : v = .var w ∨ types w.name = w.type := by
  rcases substitute_cases known v with heq | ⟨c, hc, rfl, heq⟩
  · exact .inl (heq.symm.trans hw)
  · exact .inr ((h c hc).src w (heq.symm.trans hw))

theorem assign_of_knows {dst : Variable} {src : Value} (h : known.HoldIn m)
    (hm : HoldsTypes types m) (hdst : types dst.name = dst.type)
    (hknows : known.knows dst src = true) : m.assign dst (m.eval src) = m := by
  have hvar := hm.eval_var hdst
  have hsrc : m.eval src = m.store dst.name := by
    simp only [knows, Bool.or_eq_true, beq_iff_eq, contains_iff_mem] at hknows
    rcases hknows with (rfl | hmem) | hmem
    · exact hvar
    · rw [← hvar]
      exact (h _ hmem).symm
    · cases src with
      | const c => simp at hmem
      | var v =>
        rw [contains_iff_mem] at hmem
        rw [← hvar]
        exact h _ hmem
  rw [hsrc, HoldsTypes.assign_eq ((hm dst.name).trans hdst), Memory.set, Function.update_eq_self]

theorem mem_surviving {c : Copy} : c ∈ known.surviving aliased i ↔
      c ∈ known ∧ (i.mayChangeAliased = true → c.touches aliased = false) ∧
        ∀ v, i.written? = some v → c.involves v = false := by
  unfold surviving
  cases i with
  | call dst callee args =>
    cases dst <;> simp [mayChangeAliased, written?, and_comm]
  | _ => simp [mayChangeAliased, written?]

theorem HoldIn.surviving (h : known.HoldIn m) (htyped : known.Typed types)
    (hchanges : ChangesWithin {x | x ∈ aliased} i m m') (hi : TypedInstr types i)
    (hnext : execute e m i = .next m') :
    (known.surviving aliased i).HoldIn m' := by
  intro c hc
  obtain ⟨hmem, htouches, hinvolves⟩ := mem_surviving.mp hc
  have hct := htyped c hmem
  -- Variables of one name have one type, so a variable of another name is not assigned.
  have hother : ∀ v : Variable, types v.name = v.type →
      (∀ w, i.written? = some w → w ≠ v) → (i.mayChangeAliased = true → v.name ∉ aliased) →
      m'.eval (.var v) = m.eval (.var v) := by
    intro v hv hne haliased
    have hstore : m'.store v.name = m.store v.name := by
      refine execute_store_eq hchanges hnext (fun w hw hname => ?_) haliased
      have htype : w.type = v.type := by rw [← hi.written hw, ← hv, hname]
      cases w
      simp_all
    simp [Memory.eval, hstore]
  have hdst : m'.eval (.var c.dst) = m.eval (.var c.dst) := by
    refine hother c.dst hct.dst (fun w hw => ?_) fun hmay => ?_
    · have := hinvolves w hw
      simp only [Copy.involves, Bool.or_eq_false_iff, beq_eq_false_iff_ne] at this
      exact this.1.symm
    · have := htouches hmay
      simp only [Copy.touches, Bool.or_eq_false_iff] at this
      rw [← Std.ExtTreeSet.contains_iff_mem, this.1]
      simp
  have hsrc : m'.eval c.src = m.eval c.src := by
    cases hs : c.src with
    | const d => rfl
    | var v =>
      refine hother v (hct.src v hs) (fun w hw => ?_) fun hmay => ?_
      · have := hinvolves w hw
        simp only [Copy.involves, Bool.or_eq_false_iff, beq_eq_false_iff_ne, hs] at this
        intro hwv
        exact this.2 (by rw [hwv])
      · have := htouches hmay
        simp only [Copy.touches, Bool.or_eq_false_iff, hs, Value.var?, Option.any_some] at this
        rw [← Std.ExtTreeSet.contains_iff_mem, this.2]
        simp
  rw [Copy.HoldsIn, hdst, hsrc]
  exact h c hmem

theorem mem_transfer {c : Copy} (h : c ∈ known.transfer aliased i) :
    c ∈ known.surviving aliased i ∨ ∃ dst src, i = .copy dst src ∧ dst.type = src.type ∧
      src ≠ .var dst ∧ c = ⟨dst, src⟩ := by
  cases i with
  | copy dst src =>
    simp only [transfer] at h
    split at h
    · rename_i hcopy
      rcases mem_cons.mp h with rfl | h
      · exact .inr ⟨dst, src, rfl, hcopy.1, hcopy.2, rfl⟩
      · exact .inl h
    · exact .inl h
  | _ => exact .inl h

/-- What is known after an instruction has its types. -/
theorem Typed.after (h : known.Typed types) (hi : TypedInstr types i) :
    (known.after aliased i).Typed types := by
  unfold Copies.after
  split
  · exact h
  · intro c hc
    rcases mem_transfer hc with hc | ⟨dst, src, rfl, hsame, -, rfl⟩
    · exact h c (mem_surviving.mp hc).1
    · refine ⟨hsame, hi.written rfl, fun v hv => hi.read ?_⟩
      obtain rfl : src = .var v := hv
      simp [reads]

/-- What is known after an instruction holds after it. -/
theorem HoldIn.after (h : known.HoldIn m) (htyped : known.Typed types)
    (hm : HoldsTypes types m) (hchanges : ChangesWithin {x | x ∈ aliased} i m m')
    (hi : TypedInstr types i) (hnext : execute e m i = .next m') :
    (known.after aliased i).HoldIn m' := by
  unfold Copies.after
  split
  · -- A copy that is passed over changes nothing.
    rename_i hredundant
    cases i with
    | copy dst src =>
      have hsame := assign_of_knows h hm (hi.written rfl) hredundant
      have heq : (.next (m.assign dst (m.eval src)) : Effect) = .next m' := hnext
      rw [hsame] at heq
      cases heq
      exact h
    | _ => cases hredundant
  · intro c hc
    rcases mem_transfer hc with hc | ⟨dst, src, rfl, hsame, hne, rfl⟩
    · exact h.surviving htyped hchanges hi hnext c hc
    · -- The variable that is copied to now has the value that is copied.
      cases hnext
      have hdst := hi.written rfl
      have hval : (m.eval src).value.type = dst.type := by
        cases src with
        | const d => exact hsame.symm
        | var v => exact hsame.symm
      have hm' : HoldsTypes types (m.assign dst (m.eval src)) :=
        hm.set hdst.symm
      have hvar : (m.assign dst (m.eval src)).eval (.var dst) = m.eval src := by
        rw [hm'.eval_var hdst, HoldsTypes.assign_eq hval, Memory.set_store_self]
      show (m.assign dst (m.eval src)).eval (.var dst) = (m.assign dst (m.eval src)).eval src
      rw [hvar]
      cases src with
      | const d => rfl
      | var v =>
        have hname : v.name ≠ dst.name := by
          intro hname
          have hv : types v.name = v.type := hi.read (by simp [reads])
          cases v
          cases dst
          simp_all
        simp [Memory.eval, Memory.assign, Memory.set_store_of_ne m hname]

theorem execute_mapReads {f : Value → Value} (h : ∀ v, m.eval (f v) = m.eval v) (i : Instr) :
    execute e m (i.mapReads f) = execute e m i := by
  cases i with
  | ret value => cases value <;> simp [mapReads, execute, finish, h]
  | call dst callee args =>
    have hargs : (args.map f).map m.eval = args.map m.eval := by simp [Function.comp_def, h]
    simp only [mapReads, execute, hargs]
  | _ => simp [mapReads, execute, result?, h]

theorem TypedInstr.mapReads (hi : TypedInstr types i) (h : known.Typed types) :
    TypedInstr types (i.mapReads known.substitute) := by
  intro v hv
  have haddressed : (i.mapReads known.substitute).addressed? = i.addressed? := by cases i <;> rfl
  simp only [Instr.variables, written?_mapReads, haddressed, mem_append] at hv
  rcases hv with (hv | hv) | hv
  · exact hi v (by simp only [Instr.variables, mem_append]; exact .inl (.inl hv))
  · obtain ⟨val, hval, hvar⟩ := mem_filterMap.mp hv
    rw [reads_mapReads] at hval
    obtain ⟨old, hold, rfl⟩ := mem_map.mp hval
    have hsubst : known.substitute old = .var v := by
      cases hs : known.substitute old with
      | const c => simp [hs, Value.var?] at hvar
      | var w => simpa [hs, Value.var?] using hvar
    rcases h.var_substitute hsubst with rfl | htype
    · exact hi.read hold
    · exact htype
  · exact hi v (by simp only [Instr.variables, mem_append]; exact .inr hv)

end Copies

/-! ### The search -/

namespace Copies

variable {types : String → ScalarType} {aliased : NameSet} {known : Copies}

theorem mem_foldl_meet {c : Copy} {sets : List (Option Copies)} {acc : Option Copies} :
    c ∈ (sets.foldl meet acc).getD [] ↔
      (∃ b, some b ∈ acc :: sets) ∧ ∀ b, some b ∈ acc :: sets → c ∈ b := by
  induction sets generalizing acc with
  | nil => cases acc <;> simp
  | cons s rest ih =>
    rw [foldl_cons, ih]
    -- Taking the meet of two sets first changes neither condition.
    cases acc <;> cases s <;> simp [meet, and_assoc]

/-- What is known at the end of a block, if the given copies are known at its start. -/
def through (aliased : NameSet) (block : Listing Instr) (known : Copies) : Copies :=
  block.foldl (Copies.after aliased) known

theorem Typed.through (h : known.Typed types) {block : Listing Instr}
    (hblock : ∀ i ∈ block, TypedInstr types i) : (through aliased block known).Typed types :=
  foldlRecOn block _ h fun _ hknown i hi =>
    hknown.after (hblock i hi)

end Copies

namespace CopySearch

variable {types : String → ScalarType} {aliased : NameSet} {g : FlowGraph}
  {blocks : Array (List Instr)} {s s' : CopySearch} {n : Nat} {waiting : List Nat} {c : Copy}

/-- What is known at the end of the predecessors of a block. -/
def incoming (g : FlowGraph) (s : CopySearch) (n : Nat) : List (Option Copies) :=
  (g.predecessors (.block n)).map fun node =>
    match node with
    | .block p => s.ends.getD p none
    | _ => some []

theorem atStart_eq (g : FlowGraph) (s : CopySearch) (n : Nat) :
    s.atStart g n = ((s.incoming g n).foldl Copies.meet none).getD [] := rfl

theorem mem_atStart_iff : c ∈ s.atStart g n ↔
    (∃ b, some b ∈ s.incoming g n) ∧ ∀ b, some b ∈ s.incoming g n → c ∈ b := by
  rw [atStart_eq, Copies.mem_foldl_meet]
  simp

/-- What is known at a start is known at the end of every predecessor that was visited, and at the
entry nothing is. -/
theorem mem_atStart (hc : c ∈ s.atStart g n) : FlowNode.entry ∉ g.predecessors (.block n) ∧
      ∀ p known, FlowNode.block p ∈ g.predecessors (.block n) → s.ends.getD p none = some known →
        c ∈ known := by
  have hall := (mem_atStart_iff.mp hc).2
  constructor
  · intro hentry
    cases hall [] (mem_map.mpr ⟨.entry, hentry, rfl⟩)
  · intro p known' hp hends
    exact hall known' (mem_map.mpr ⟨.block p, hp, hends⟩)

theorem exists_of_mem_atStart (hc : c ∈ s.atStart g n) :
    ∃ p known, s.ends.getD p none = some known ∧ c ∈ known := by
  obtain ⟨⟨b, hb⟩, hall⟩ := mem_atStart_iff.mp hc
  have hcb := hall b hb
  obtain ⟨node, -, hnode⟩ := mem_map.mp hb
  cases node with
  | block p => exact ⟨p, b, hnode, hcb⟩
  | _ =>
    cases hnode
    cases hcb

theorem atStart_congr (h : ∀ p, FlowNode.block p ∈ g.predecessors (.block n) →
      s'.ends.getD p none = s.ends.getD p none) : s'.atStart g n = s.atStart g n := by
  have hincoming : s'.incoming g n = s.incoming g n := by
    refine map_congr_left fun node hnode => ?_
    cases node with
    | block p => exact h p hnode
    | _ => rfl
  rw [atStart_eq, atStart_eq, hincoming]

/-- What holds of a block that does not wait for a visit: what is known at its start is what its
predecessors say, and what is known at its end is what its instructions make of that. -/
def SettledAt (g : FlowGraph) (blocks : Array (List Instr)) (aliased : NameSet) (s : CopySearch)
    (n : Nat) : Prop :=
  ∃ known atEnd, s.starts.getD n none = some known ∧ s.ends.getD n none = some atEnd ∧
    known = s.atStart g n ∧ ∀ c ∈ atEnd, c ∈ Copies.through aliased (blocks.getD n []) known

/-- What holds in the course of the search. -/
structure Searched (types : String → ScalarType) (g : FlowGraph) (blocks : Array (List Instr))
    (aliased : NameSet) (s : CopySearch) : Prop where
  starts_size : s.starts.size = g.size
  ends_size : s.ends.size = g.size
  ends_typed : ∀ n known, s.ends.getD n none = some known → known.Typed types
  settled : ∀ n < g.size, n ∉ s.waiting → s.SettledAt g blocks aliased n

theorem Searched.atStart_typed (h : Searched types g blocks aliased s) (n : Nat) :
    (s.atStart g n).Typed types := by
  intro c hc
  obtain ⟨p, known, hends, hmem⟩ := exists_of_mem_atStart hc
  exact h.ends_typed p known hends c hmem

theorem searched_initial : Searched types g blocks aliased (initial g.size) where
  starts_size := by simp [initial]
  ends_size := by simp [initial]
  ends_typed := by
    intro n known hends
    simp only [initial, Array.getD_eq_getD_getElem?, Array.getElem?_replicate] at hends
    split at hends <;> cases hends
  settled := fun n hn hwait => absurd (mem_range.mpr hn) hwait

theorem getD_setIfInBounds_self {α : Type} {xs : Array (Option α)} (hn : n < xs.size)
    (a : Option α) : (xs.setIfInBounds n a).getD n none = a := by
  simp [hn]

theorem getD_setIfInBounds_ne {α : Type} {xs : Array (Option α)} {p : Nat} (hne : n ≠ p)
    (a : Option α) : (xs.setIfInBounds n a).getD p none = xs.getD p none := by
  simp [hne]

section

variable (hs' : s.visit g blocks aliased n waiting = s')

include hs'

/-- A visit leaves what is known at the end of the block as it is, or changes it and lets successors
wait. -/
theorem visit_cases :
    s'.starts = s.starts.setIfInBounds n (some (s.atStart g n)) ∧
      ((∃ old, s.ends.getD n none = some old ∧
          old.same (Copies.through aliased (blocks.getD n []) (s.atStart g n)) = true ∧
          s'.ends = s.ends ∧ s'.waiting = waiting) ∨
        (∀ old, s.ends.getD n none = some old →
          old.same (Copies.through aliased (blocks.getD n []) (s.atStart g n)) = false) ∧
        s'.ends = s.ends.setIfInBounds n
          (some (Copies.through aliased (blocks.getD n []) (s.atStart g n))) ∧
        s'.waiting =
          waiting ++ (g.successorBlocks (.block n)).filter fun b => !waiting.contains b) := by
  unfold visit at hs'
  dsimp only at hs'
  split at hs'
  · rename_i hany
    obtain ⟨old, hold, hsame⟩ := (Option.any_eq_true _ _).mp hany
    subst hs'
    exact ⟨rfl, .inl ⟨old, hold, hsame, rfl, rfl⟩⟩
  · rename_i hany
    subst hs'
    refine ⟨rfl, .inr ⟨fun old hold => ?_, rfl, rfl⟩⟩
    rw [hold, Bool.not_eq_true] at hany
    exact hany

theorem exists_of_visit :
    ∃ atEnd fresh, s'.ends.size = s.ends.size ∧
      (n < s.ends.size → s'.ends.getD n none = some atEnd) ∧
      (∀ {m}, n ≠ m → s'.ends.getD m none = s.ends.getD m none) ∧
      (∀ {c}, c ∈ atEnd ↔ c ∈ Copies.through aliased (blocks.getD n []) (s.atStart g n)) ∧
      s'.waiting = waiting ++ fresh ∧
      ∀ m ∈ fresh, m ∈ g.successorBlocks (.block n) ∧ m ∉ waiting := by
  rcases (visit_cases hs').2 with ⟨old, hold, hsame, hends, hwaiting⟩ | ⟨-, hends, hwaiting⟩
  · rw [hends]
    refine ⟨old, [], rfl, fun _ => hold, fun _ => rfl, fun {c} => ?_, by simpa using hwaiting,
      fun _ h => nomatch h⟩
    rw [Copies.same, Bool.and_eq_true, all_eq_true, all_eq_true] at hsame
    exact ⟨fun hc => contains_iff_mem.mp (hsame.1 c hc),
      fun hc => contains_iff_mem.mp (hsame.2 c hc)⟩
  · rw [hends]
    refine ⟨_, _, Array.size_setIfInBounds, fun hn => getD_setIfInBounds_self hn _,
      fun hm => getD_setIfInBounds_ne hm _, Iff.rfl, hwaiting, fun m hm => ?_⟩
    simpa using mem_filter.mp hm

theorem atStart_visit {m : Nat} (hm : m ∉ s'.waiting) : s'.atStart g m = s.atStart g m := by
  refine atStart_congr fun p hp => ?_
  rcases (visit_cases hs').2 with ⟨-, -, -, hends, -⟩ | ⟨-, hends, hwaiting⟩
  · rw [hends]
  · rw [hwaiting, mem_append, not_or, mem_filter, not_and] at hm
    rw [hends]
    refine getD_setIfInBounds_ne ?_ _
    rintro rfl
    refine hm.2 (mem_successorBlocks.mpr ?_) (by simpa using hm.1)
    exact mem_successors.mpr (mem_predecessors.mp hp)

end

theorem Searched.visit (h : Searched types g blocks aliased s) (hwaiting : s.waiting = n :: waiting)
    (hblock : ∀ i ∈ blocks.getD n [], Copies.TypedInstr types i) :
    Searched types g blocks aliased (s.visit g blocks aliased n waiting) := by
  generalize hs' : s.visit g blocks aliased n waiting = s'
  have hstarts := (visit_cases hs').1
  obtain ⟨atEnd, fresh, hsize, hself, hother, hatEnd, hwaiting', -⟩ := exists_of_visit hs'
  rw [h.ends_size] at hsize hself
  refine ⟨by rw [hstarts, Array.size_setIfInBounds, h.starts_size], hsize, ?_, ?_⟩
  · intro m known hknown
    by_cases hm : n = m
    · subst hm
      have hn : n < g.size := by
        by_contra hn
        rw [← hsize] at hn
        simp [hn] at hknown
      cases (hself hn).symm.trans hknown
      exact fun c hc => (h.atStart_typed n).through hblock c (hatEnd.mp hc)
    · exact h.ends_typed m known ((hother hm).symm.trans hknown)
  · intro m hm hwait
    have hstay := atStart_visit hs' hwait
    by_cases hmn : n = m
    · subst hmn
      refine ⟨_, atEnd, ?_, hself hm, hstay.symm, fun c hc => hatEnd.mp hc⟩
      rw [hstarts]
      exact getD_setIfInBounds_self (by rw [h.starts_size]; exact hm) _
    · have hout : m ∉ s.waiting := by
        rw [hwaiting', mem_append, not_or] at hwait
        rw [hwaiting, mem_cons, not_or]
        exact ⟨fun heq => hmn heq.symm, hwait.1⟩
      obtain ⟨known, atEnd, hs, hend, hknown, hthrough⟩ := h.settled m hm hout
      refine ⟨known, atEnd, ?_, (hother hmn).trans hend, hknown.trans hstay.symm, hthrough⟩
      rw [hstarts, getD_setIfInBounds_ne hmn, hs]

theorem run?_of_nil (h : s.waiting = []) (visits : Nat) :
    run? g blocks aliased visits s = some s := by
  unfold run?
  rw [h]

theorem run?_zero (h : s.waiting = n :: waiting) : run? g blocks aliased 0 s = none := by
  unfold run?
  rw [h]

theorem run?_succ (h : s.waiting = n :: waiting) (visits : Nat) :
    run? g blocks aliased (visits + 1) s =
      run? g blocks aliased visits (s.visit g blocks aliased n waiting) := by
  conv_lhs => unfold run?
  rw [h]

/-- What every visit keeps holds when the search ends. -/
theorem run?_induction {P : CopySearch → Prop} (hvisit : ∀ s n waiting, P s → s.waiting = n ::
      waiting → P (s.visit g blocks aliased n waiting)) (h : P s)
    (hrun : run? g blocks aliased visits s = some s') : P s' ∧ s'.waiting = [] := by
  induction visits generalizing s with
  | zero =>
    cases hw : s.waiting with
    | nil =>
      cases (run?_of_nil hw 0).symm.trans hrun
      exact ⟨h, hw⟩
    | cons n waiting => cases (run?_zero hw).symm.trans hrun
  | succ visits ih =>
    cases hw : s.waiting with
    | nil =>
      cases (run?_of_nil hw (visits + 1)).symm.trans hrun
      exact ⟨h, hw⟩
    | cons n waiting =>
      rw [run?_succ hw] at hrun
      exact ih (hvisit s n waiting h hw) hrun

end CopySearch

theorem mem_of_mem_getD_blocksOf {body : Listing Instr} {n : Nat} {i : Instr}
    (hi : i ∈ (blocksOf Instr.flow body).toArray.getD n []) : i ∈ body := by
  rw [← flatten_blocksOf flow body]
  cases hb : (blocksOf flow body)[n]? with
  | none => simp [hb] at hi
  | some b =>
    refine mem_flatten.mpr ⟨b, mem_of_getElem? hb, ?_⟩
    simpa [hb] using hi

/-- The result of the search: what is known at the start of every block. -/
structure CopiesSettled (types : String → ScalarType) (aliased : NameSet) (body : Listing Instr)
    (start : Nat → Copies) : Prop where
  typed : ∀ n, (start n).Typed types
  entry : start 0 = []
  /-- What is known at a start is known at the end of every block before it. -/
  edge : ∀ {n n' b}, (blocksOf Instr.flow body)[n]? = some b →
    FlowNode.block n' ∈ (FlowGraph.ofCode Instr.flow body).successors (.block n) →
    ∀ c ∈ start n', c ∈ Copies.through aliased b (start n)

/-- The search settles the copies known at the start of every block. -/
theorem copiesSettled_of_knownCopies? {types : String → ScalarType} {aliased : NameSet}
    {body : Listing Instr} {starts : Array (Option Copies)}
    (hbody : ∀ i ∈ body, Copies.TypedInstr types i)
    (h : knownCopies? visits aliased body = some starts) :
    CopiesSettled types aliased body (fun n => (starts.getD n none).getD []) ∧
      starts.size = (blocksOf Instr.flow body).length := by
  obtain ⟨s, hrun, rfl⟩ := Option.map_eq_some_iff.mp h
  have hsize : (ofCode flow body).size = (blocksOf flow body).length := by
    simp [size, ofCode, ofBlocks]
  have hgetD : ∀ {n b}, (blocksOf flow body)[n]? = some b →
      (blocksOf flow body).toArray.getD n [] = b := by
    intro n b hb
    simp [hb]
  obtain ⟨hsearched, hdone⟩ := CopySearch.run?_induction (fun _ _ _ hs hw =>
    hs.visit hw fun i hi => hbody i (mem_of_mem_getD_blocksOf hi)) CopySearch.searched_initial hrun
  -- Every block has been visited, and its start is what its predecessors say.
  have hsettled : ∀ n < (ofCode flow body).size, CopySearch.SettledAt
      (.ofCode flow body) (blocksOf flow body).toArray aliased s n :=
    fun n hn => hsearched.settled n hn (by simp [hdone])
  have hstart : ∀ n c, c ∈ (s.starts.getD n none).getD [] → n < (ofCode flow body).size ∧
        c ∈ s.atStart (.ofCode flow body) n := by
    intro n c hc
    have hn : n < (ofCode flow body).size := by
      by_contra hge
      rw [← hsearched.starts_size] at hge
      simp [Array.getD_eq_getD_getElem?, Array.getElem?_eq_none (Nat.le_of_not_lt hge)] at hc
    obtain ⟨known, atEnd, hs, -, hknown, -⟩ := hsettled n hn
    rw [hs, hknown] at hc
    exact ⟨hn, hc⟩
  refine ⟨⟨fun n c hc => ?_, ?_, ?_⟩, by rw [hsearched.starts_size, hsize]⟩
  · exact hsearched.atStart_typed n c (hstart n c hc).2
  · -- The entry leads to the first block, and nothing is known there.
    refine eq_nil_iff_forall_not_mem.mpr fun c hc => ?_
    obtain ⟨hn, hc⟩ := hstart 0 c hc
    refine (CopySearch.mem_atStart hc).1 (mem_predecessors.mpr (mem_edges.mpr (.inl ⟨rfl, ?_⟩)))
    rw [hsize] at hn
    rw [if_neg (by simpa using ne_nil_of_length_pos hn)]
  · intro n n' b hb hedge c hc
    have hn : n < (ofCode flow body).size := by
      rw [hsize]
      exact (List.getElem?_eq_some_iff.mp hb).1
    obtain ⟨known, atEnd, hs, hend, -, hthrough⟩ := hsettled n hn
    have hpred : .block n ∈ (ofCode flow body).predecessors (.block n') :=
      mem_predecessors.mpr (mem_successors.mp hedge)
    have hmem := (CopySearch.mem_atStart (hstart n' c hc).2).2 n atEnd hpred hend
    rw [hs]
    have := hthrough c hmem
    rwa [hgetD hb] at this

end ThreeAddress
