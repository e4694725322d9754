import ThreeAddress.Proofs.Amd64.Replacement

/-!
# Code with other operands

A procedure whose pseudo registers are replaced does what it did before, if the replacement is safe:
nothing is written to a place where a value is still needed.  Copies that have become idle may be
dropped on the way.

Division of doubles is left out.  It writes to an operand of which the allocator believes that it is
only read.
-/

namespace ThreeAddress.Amd64

open Procedure Amd64.Instr Option List Storage

variable {dst src o : Operand} {y : Word × Nat} {D : Place}

/-! ### Instructions -/

namespace Instr

variable {i : Instr} {arguments : List Register} {d l : Location Register}

/-- An instruction whose operands may be replaced.  It names only what has a new place, and leaves
the base pointer alone. -/
structure Replaceable (names : String → Prop) (i : Instr) : Prop where
  notDivision : i.isDoubleDivision = false
  named : ∀ x, .pseudo x ∈ i.operands → names x
  base : .reg .rbp ∉ i.writes

/-- Operands that an instruction writes to, with their widths, as the allocator sees them. -/
structure WritesTo (i : Instr) (arguments : List Register) (names : String → Prop) (x : Extent)
    (writes : List (Operand × Width)) : Prop where
  named : ∀ y ∈ writes, ∀ z, y.1 = .pseudo z → names z
  seen : ∀ y ∈ writes, ∀ l, y.1.location? = some l → l ∈ i.writes
  complete : ∀ l ∈ i.writes, ∃ y ∈ writes, y.1.location? = some l
  distinct : writes.Pairwise fun y z => ∃ r s, y.1 = .reg r ∧ z.1 = .reg s ∧ r ≠ s
  merged : x = .merged → ∀ y ∈ writes, y.2 = .byte ∧
    ∀ l, y.1.location? = some l → l ∈ i.reads arguments

theorem isIdleMove_mapOperands {f : Operand → Operand} (h : (i.mapOperands f).isIdleMove = true) :
    ∃ w dst src, i = ⟨.mov, w, [dst, src]⟩ ∧ f dst = f src ∧ (f dst).isMemory = false := by
  obtain ⟨op, w, operands⟩ := i
  unfold isIdleMove move? at h
  split at h
  · rename_i dst' src' hop hoperands
    obtain rfl : op = .mov := hop
    obtain ⟨dst, src, rfl⟩ : ∃ dst src, operands = [dst, src] := by
      have hlength := congrArg length hoperands
      simp only [mapOperands, length_map, length_cons, length_nil] at hlength
      exact length_eq_two.mp hlength
    cases hoperands
    simpa using h
  · cases h

theorem flow_eq_of_labels {j : Instr} (hop : j.op = i.op)
    (hlabel : ∀ l, j.operands.head? = some (.label l) ↔ i.operands.head? = some (.label l)) :
    j.flow = i.flow := by
  unfold flow
  rw [hop]
  split <;> split <;> simp_all

theorem writes_eq_nil (hpositions : i.positions = i.operands.map fun _ => .read)
    (himplicit : i.implicitWrites = []) : i.writes = [] := by
  rw [writes, himplicit, map_nil, append_nil, filterMap_eq_nil_iff]
  rintro ⟨o, d⟩ hmem
  have hd : d ∈ i.positions := mem_of_mem_take (of_mem_zip hmem).2
  rw [hpositions] at hd
  obtain ⟨-, -, rfl⟩ := mem_map.mp hd
  rfl

theorem moveLocations?_cases (h : i.moveLocations? = some (d, l)) :
    i.op = .mov ∧ i.operands = [Procedure.locationOperand d, Procedure.locationOperand l] ∧
      i.writes = [d] ∧ ∀ arguments, l ∈ i.reads arguments := by
  obtain ⟨op, w, operands⟩ := i
  obtain ⟨⟨dst, src⟩, hmove, hlocations⟩ := bind_eq_some_iff.mp h
  obtain ⟨d', hd, hsrc⟩ := bind_eq_some_iff.mp hlocations
  obtain ⟨l', hl, heq⟩ := map_eq_some_iff.mp hsrc
  cases heq
  unfold move? at hmove
  split at hmove
  · rename_i hop hoperands
    cases hmove
    obtain rfl : op = .mov := hop
    obtain rfl : operands = [dst, src] := hoperands
    refine ⟨rfl, ?_, ?_, ?_⟩
    · cases dst <;> cases hd <;> cases src <;> cases hl <;> rfl
    · simp [writes, directions, positions, implicitWrites, Direction.writes, hd]
    · simp [reads, directions, positions, Direction.reads, hl]
  · cases hmove

end Instr

theorem Procedure.compute?_copy {p : Procedure} {e : Setting} {k : Checks} {m m₁ : Storage}
    {w : Width} (h : p.compute? e k m (.copy dst w src) = some m₁) :
    ∃ S D v, p.place? e k m src = some S ∧ m.fetch? k w S = some v ∧ p.place? e k m dst = some D ∧
      m.put? k .copied w v D = some m₁ := by
  obtain ⟨values, hvalues, hrest⟩ := bind_eq_some_iff.mp h
  obtain ⟨places, hplaces, hrest⟩ := bind_eq_some_iff.mp hrest
  obtain ⟨⟨results, flags⟩, hresults, hrest⟩ := bind_eq_some_iff.mp hrest
  obtain ⟨m₀, hput, rfl⟩ := map_eq_some_iff.mp hrest
  simp only [Computation.copy, Computation.convert, mapM_cons, mapM_nil, bind_eq_bind,
    bind_eq_some_iff, map_eq_some_iff] at hvalues hplaces
  obtain ⟨v, hv, _, hnil, hcons⟩ := hvalues
  obtain ⟨_, ⟨D, hD, hpair⟩, _, hnil', hcons'⟩ := hplaces
  cases hnil
  cases hcons
  cases hpair
  cases hcons'
  cases hresults
  obtain ⟨S, hS, hfetch⟩ := bind_eq_some_iff.mp hv
  refine ⟨S, D, v, hS, hfetch, hD, ?_⟩
  have hput : m.put? k .copied w v D = some m₀ := by
    simpa [putAll?, Computation.copy] using hput
  rw [hput]
  -- A write leaves the flags as they are.
  cases D with
  | value y => cases hput
  | cell l =>
    cases hput
    rfl
  | address a =>
    simp only [put?] at hput
    split at hput <;> cases hput
    rfl

theorem Procedure.pushed?_of_ne {p : Procedure} {e : Setting} {k : Checks} {m : Storage}
    (ho : ∀ r, o ≠ .reg r) : p.pushed? e k m o = (p.read? e k m o .quad).map (·, 64) := by
  cases o with
  | reg r => exact absurd rfl (ho r)
  | _ => rfl

namespace Replacement

variable {p : Procedure} {e : Setting} {k : Checks} {base : Word} {names : String → Prop}
  {f : Operand → Operand} {target : Location Register → Place} {m m₁ m' : Storage}
  {d l : Location Register} {x : Extent} {w : Width} {v : Word} {a : Word} {i : Instr} {n t : Nat}

section

variable (h : Replacement p e k base names f target)

include h

theorem operand_eq (hl : Placed p names l) {c : Location Register} (hc : target l = .cell c) :
    f (Procedure.locationOperand l) = Procedure.locationOperand c := by
  cases l with
  | reg r =>
    rw [h.register] at hc
    cases hc
    exact h.fixed _ rfl
  | pseudo y => exact h.operand y c (hl y rfl).1 (hl y rfl).2 hc

theorem target_ne_value (l : Location Register) (y : Word) : target l ≠ .value y := by
  cases l with
  | reg r =>
    rw [h.register]
    exact nofun
  | pseudo z => exact h.notValue z y

theorem exists_cell {k' : Checks} (hnames : ∀ z, o = .pseudo z → names z)
    (hc : p.place? e k' m o = some (.cell l)) (hmemory : (f o).isMemory = false) :
    ∃ d, target l = .cell d := by
  obtain ⟨hlocation, hplaced⟩ := placed_of_place? hnames hc
  cases htarget : target l with
  | cell d => exact ⟨d, rfl⟩
  | value y => exact absurd htarget (h.target_ne_value l y)
  | address b =>
    cases l with
    | reg r => rw [h.register] at htarget; cases htarget
    | pseudo z =>
      obtain rfl : o = .pseudo z := by
        cases o <;> cases hlocation
        rfl
      rw [h.memory z b (hplaced z rfl).1 (hplaced z rfl).2 htarget] at hmemory
      cases hmemory

theorem isIdleMove_of_target_eq (hmove : i.moveLocations? = some (d, l)) (hd : Placed p names d)
    (hl : Placed p names l) (hne : d ≠ l) (htarget : target d = target l) :
    (i.mapOperands f).isIdleMove = true := by
  obtain ⟨hop, hoperands, -, -⟩ := moveLocations?_cases hmove
  cases hc : target l with
  | value y => exact absurd hc (h.target_ne_value l y)
  | address b =>
    -- Only one name has gone to a place in memory.
    rw [hc] at htarget
    cases l with
    | reg r => rw [h.register] at hc; cases hc
    | pseudo z =>
      cases d with
      | reg r => rw [h.register] at htarget; cases htarget
      | pseudo y =>
        have hy := hd y rfl
        have hz := hl z rfl
        obtain rfl := h.injective y z b hy.1 hz.1 hy.2 hz.2 htarget hc
        exact absurd rfl hne
  | cell c =>
    have hdst := h.operand_eq hd (htarget.trans hc)
    have hsrc := h.operand_eq hl hc
    have hmemory : (locationOperand c).isMemory = false := by
      cases c <;> rfl
    simp [isIdleMove, move?, mapOperands, hop, hoperands, hdst, hsrc, hmemory]

theorem carried_pushed {y' : Word × Nat} (hstack : ∀ j < 8, e.region (byteAt a j) = .stack)
    (hl : Placed p names l) (hcarried : Carried target m m' l) :
    Carried target (m.pushed a y.1 y.2) (m'.pushed a y'.1 y'.2) l := by
  by_cases hrsp : l = .reg .rsp
  · subst hrsp
    unfold Carried
    rw [h.register]
    simp [view, pushed, CarriesOver]
  · have hold : (m.pushed a y.1 y.2).view (.cell l) = m.view (.cell l) := by
      simp [view, pushed, Function.update_of_ne hrsp]
    have hnew : (m'.pushed a y'.1 y'.2).view (target l) = m'.view (target l) := by
      refine h.view_target_eq hl (fun b hb => storeBytes_of_region hstack hb (by decide))
        fun c ht => ?_
      -- No location but the stack pointer itself has gone to it.
      have hc : c ≠ .reg .rsp := by
        rintro rfl
        cases l with
        | reg r =>
          rw [h.register] at ht
          cases ht
          exact hrsp rfl
        | pseudo z => exact h.stackPointer z (hl z rfl).1 (hl z rfl).2 ht
      simp [view, pushed, Function.update_of_ne hc]
    unfold Carried
    rwa [hold, hnew]

end

theorem extractLsb'_eq_of_low_eq {c j : Nat} {u u' : Word} (hlow : low c u = low c u')
    (hj : 8 * j + 8 ≤ c) : u.extractLsb' (8 * j) 8 = u'.extractLsb' (8 * j) 8 := by
  apply BitVec.eq_of_getLsbD_eq
  intro i hi
  rw [BitVec.getLsbD_extractLsb', BitVec.getLsbD_extractLsb',
    low_eq_iff.mp hlow (8 * j + i) (by omega)]

theorem Outer.pushed (houter : Outer e m m') {y' : Word × Nat}
    (hstack : ∀ j < 8, e.region (byteAt a j) = .stack) (hcarries : CarriesOver y y') :
    Outer e (m.pushed a y.1 y.2) (m'.pushed a y'.1 y'.2) where
  shared := by
    intro b hb
    show storeBytes m.bytes a 8 y.1 b = storeBytes m'.bytes a 8 y'.1 b
    rw [storeBytes_of_region hstack hb (by decide), storeBytes_of_region hstack hb (by decide)]
    exact houter.shared b hb
  stack := by
    intro b hb hsettled
    simp only [Storage.pushed, storeBytes] at hsettled ⊢
    by_cases hlt : (b - a).toNat < 8
    · -- A byte that was pushed is determined if all of its bits were.
      rw [if_pos hlt] at hsettled
      rw [if_pos hlt, if_pos hlt, if_pos hlt]
      have hbits : 8 * (b - a).toNat + 8 ≤ y.2 := of_decide_eq_true hsettled
      exact ⟨decide_eq_true (hbits.trans hcarries.1), extractLsb'_eq_of_low_eq hcarries.2 hbits⟩
    · rw [if_neg hlt] at hsettled
      rw [if_neg hlt, if_neg hlt, if_neg hlt]
      exact houter.stack b hb hsettled
  flags_eq := houter.flags_eq
  trace_eq := houter.trace_eq

/-! ### The relation -/

/-- Registers and memory of the old code at a position, and of the new code at its new position. -/
structure Related (p : Procedure) (e : Setting) (base : Word) (names : String → Prop)
    (target : Location Register → Place) (n : Nat) (m m' : Storage) : Prop where
  agrees : p.problem.Agrees (Placed p names) target CarriesOver n (fun l => m.view (.cell l))
    m'.view
  outer : Outer e m m'
  rbp : m.cells (.reg .rbp) = base
  determined_rbp : 64 ≤ m.determined (.reg .rbp)

theorem place?_of_location (hl : o.location? = some l) (hplaced : Placed p names l)
    (hD : p.place? e k m o = some D) : D = .cell l := by
  cases o with
  | reg r =>
    cases hl
    cases hD
    rfl
  | pseudo y =>
    cases hl
    simp only [place?, (hplaced y rfl).2] at hD
    cases hD
    rfl
  | _ => cases hl

section

variable {writes : List (Operand × Width)} {places : List (Place × Width)}
    {arguments : List Register}
  {y : Place × Width}

section

variable (hwrites : i.WritesTo arguments names x writes)
  (hplaces : writes.mapM (fun y => (p.place? e k m y.1).map (·, y.2)) = some places)

include hwrites hplaces

theorem of_cell_of_writesTo (hy : y ∈ places) (hl : y.1 = .cell l) :
    Placed p names l ∧ l ∈ i.writes := by
  obtain ⟨z, hz, hfound⟩ := exists_of_forall₂_of_mem (forall₂_of_mapM_eq_some hplaces) hy
  obtain ⟨d, hd, rfl⟩ := map_eq_some_iff.mp hfound
  obtain rfl : d = .cell l := hl
  obtain ⟨hlocation, hplaced⟩ := placed_of_place? (hwrites.named z hz) hd
  exact ⟨hplaced, hwrites.seen z hz l hlocation⟩

theorem exists_cell_of_writesTo (hl : l ∈ i.writes) (hplaced : Placed p names l) :
    ∃ y ∈ places, y.1 = .cell l := by
  obtain ⟨z, hz, hlocation⟩ := hwrites.complete l hl
  obtain ⟨y, hy, hfound⟩ := exists_mem_of_mapM hplaces hz
  obtain ⟨d, hd, rfl⟩ := map_eq_some_iff.mp hfound
  exact ⟨_, hy, place?_of_location hlocation hplaced hd⟩

end

theorem pairwise_of_writesTo (hwrites : i.WritesTo arguments names x writes)
    (h : Replacement p e k base names f target) {k' : Checks}
    (hplaces : writes.mapM (fun y => (p.place? e k' m y.1).map (·, y.2)) = some places) :
    places.Pairwise fun y z => ∀ l d, y.1 = .cell l → z.1 = .cell d → target d ≠ target l := by
  refine pairwise_of_mapM (fun y z y' z' hy hz hyz => ?_) hwrites.distinct hplaces
  obtain ⟨r, s, hr, hs, hrs⟩ := hyz
  rw [hr] at hy
  rw [hs] at hz
  cases hy
  cases hz
  rintro l d ⟨⟩ ⟨⟩ heq
  rw [h.register, h.register] at heq
  cases heq
  exact hrs rfl

end

namespace Related

variable {places : List (Place × Width)} {symbol : String} {writes : List (Operand × Width)}

section

variable (h : Replacement p e k base names f target)
  (hrel : Related p e base names target p.body.length m m')

include h hrel

theorem result? {y : Register × Width} {u : Word} (hu : p.result? m y = some u) :
    p.result? m' y = some u := by
  obtain ⟨r, w⟩ := y
  simp only [Procedure.result?] at hu ⊢
  split at hu
  · rename_i hr
    cases hu
    have hagrees : p.problem.Agrees (Placed p names) target CarriesOver p.problem.code.length
        (fun l => m.view (.cell l)) m'.view := by
      simpa [problem] using hrel.agrees
    have hcarried : CarriesOver _ _ := hagrees.of_mem_exitLive hr.1 (placed_reg r)
    rw [h.register] at hcarried
    rw [if_pos ⟨hr.1, hr.2.trans hcarried.1⟩]
    exact congrArg some (hcarried.low_eq hr.2).symm
  · cases hu

theorem leave (hdefined : ∀ m₁, p.leave e m ≠ .stop m₁ .undefined) :
    OutcomesMatch (p.machine e (e.checks true)) (p.machine e k) p.body
      (Related p e base names target) n (p.leave e m) (p.leave e m') := by
  unfold Procedure.leave at hdefined ⊢
  cases hvalues : (e.takesResults m.trace).mapM (p.result? m) with
  | none => exact absurd (by rw [hvalues]) (hdefined m)
  | some values =>
    have hvalues' : (e.takesResults m'.trace).mapM (p.result? m') = some values := by
      have hmap := mapM_map_eq_some (φ := id) (ψ := id) (fun y _ u hu => hrel.result? h hu) hvalues
      rwa [List.map_id, List.map_id, hrel.outer.trace_eq] at hmap
    simp only [hvalues', e.sharedBytes_congr hrel.outer.shared]
    exact .stop hrel.outer.trace_eq

end

variable (h : Replacement p e k base names f target)
  (hsafe : p.problem.Safe (Placed p names) target) (hrel : Related p e base names target n m m')
  (hi : p.body[n]? = some i)

include hrel

theorem carried_of_untracked {r : Register} (hr : r ∉ r.registerClass.colours) :
    Carried target m m' (.reg r) := by
  refine hrel.agrees (.reg r) (placed_reg r) fun htracked => absurd ?_ hr
  simpa [AllocationProblem.isTracked, problem, classOf] using htracked

include hi in
theorem carried_of_mem_reads (hl : l ∈ i.reads (p.argumentsOf i))
    (hplaced : Placed p names l) :
    Carried target m m' l :=
  hrel.agrees.of_mem_reads (a := p.access i) (by simp [problem, hi]) hl hplaced

include h in
theorem base_eq : m'.cells (.reg .rbp) = base ∧ 64 ≤ m'.determined (.reg .rbp) := by
  obtain ⟨hle, hlow⟩ := hrel.carried_of_untracked (r := .rbp) (by decide)
  rw [h.register] at hle hlow
  have hdetermined : 64 ≤ m.determined (.reg .rbp) := hrel.determined_rbp
  simp only [view] at hle hlow
  rw [low_of_le hdetermined, low_of_le hdetermined] at hlow
  exact ⟨hlow ▸ hrel.rbp, hdetermined.trans hle⟩

include hsafe hi in
/-- One instruction keeps the relation, if it writes what is expected and disturbs nothing whose
place it does not write to. -/
theorem step (ht : t ∈ nextPositions Instr.flow p.body n) {m₁' : Storage}
    (houter : Outer e m₁ m₁') (hrbp : m₁.view (.cell (.reg .rbp)) = m.view (.cell (.reg .rbp)))
    (hwritten : ∀ l ∈ i.writes, Placed p names l → Carried target m₁ m₁' l)
    (hkept : ∀ l, Placed p names l → l ∉ i.writes → Carried target m m' l →
      (∀ d ∈ i.writes, target d ≠ target l) ∨ some l = i.moveLocations?.map Prod.snd →
      Carried target m₁ m₁' l) : Related p e base names target t m₁ m₁' := by
  have hview := Prod.mk.inj hrbp
  refine ⟨?_, houter, hview.1.trans hrel.rbp, hview.2 ▸ hrel.determined_rbp⟩
  refine hrel.agrees.step hsafe (a := p.access i) (by simp [problem, hi]) ?_ ?_ ?_ hkept
  · rwa [problem, nextPositions_map]
  · exact fun l hl hplaced _ => hwritten l hl hplaced
  · intro l hl
    obtain ⟨⟨d, l'⟩, hmove, rfl⟩ := map_eq_some_iff.mp hl.symm
    exact (moveLocations?_cases hmove).2.2.2 _

theorem withFlags (flags : Flags) :
    Related p e base names target n { m with flags := flags } { m' with flags := flags } :=
  ⟨hrel.agrees, ⟨hrel.outer.shared, hrel.outer.stack, rfl, hrel.outer.trace_eq⟩, hrel.rbp,
    hrel.determined_rbp⟩

include hsafe hi in
theorem unchanged (hwrites : i.writes = [])
    (ht : t ∈ nextPositions Instr.flow p.body n) :
    Related p e base names target t m m' :=
  hrel.step hsafe hi ht hrel.outer rfl (by simp [hwrites]) fun _ _ _ hcarried _ => hcarried

/-! ### Computations -/

include hi in
theorem merged_carried {y : Place × Width}
    (hwrites : i.WritesTo (p.argumentsOf i) names x writes)
    (hplaces : writes.mapM (fun y => (p.place? e k m y.1).map (·, y.2)) = some places)
    (hx : x = .merged) (hy : y ∈ places) :
    y.2 = .byte ∧ ∀ l, y.1 = .cell l → Carried target m m' l := by
  obtain ⟨z, hz, hfound⟩ := exists_of_forall₂_of_mem (forall₂_of_mapM_eq_some hplaces) hy
  obtain ⟨d, hd, rfl⟩ := map_eq_some_iff.mp hfound
  obtain ⟨hbyte, hreads⟩ := hwrites.merged hx z hz
  refine ⟨hbyte, fun l hl => ?_⟩
  obtain rfl : d = .cell l := hl
  obtain ⟨hlocation, hplaced⟩ := placed_of_place? (hwrites.named z hz) hd
  exact hrel.carried_of_mem_reads hi (hreads l hlocation) hplaced

include h hsafe hi in
theorem putAll? (hbase : .reg .rbp ∉ i.writes)
    (hidle : (i.mapOperands f).isIdleMove = false) {results : List Word}
    (hwrites : i.WritesTo (p.argumentsOf i) names x writes)
    (hresults : results.length = writes.length)
    (hplaces : writes.mapM (fun y => (p.place? e (e.checks true) m y.1).map (·, y.2)) = some places)
    (hput : m.putAll? (e.checks true) x (places.zip results) = some m₁) :
    ∃ m₁', m'.putAll? k x ((places.map (Prod.map (Place.through target) id)).zip results) =
      some m₁' ∧
      ∀ t ∈ nextPositions Instr.flow p.body n, Related p e base names target t m₁ m₁' := by
  have hfst : ∀ y ∈ places.zip results, y.1 ∈ places := fun y hy => (of_mem_zip hy).1
  have hzip : (places.zip results).map Prod.fst = places :=
    map_fst_zip (by rw [hresults, ← (forall₂_of_mapM_eq_some hplaces).length_eq])
  have hdistinct : ((places.zip results).map Prod.fst).Pairwise fun y z => ∀ l d, y.1 = .cell l →
      z.1 = .cell d → target d ≠ target l := by
    rw [hzip]
    exact pairwise_of_writesTo hwrites h hplaces
  obtain ⟨m₁', hput', hwritten⟩ := h.putAll?_through hrel.outer
    (fun y hy l hl => (of_cell_of_writesTo hwrites hplaces (hfst y hy) hl).1)
    (fun hx y hy => hrel.merged_carried hi hwrites hplaces hx (hfst y hy))
    (pairwise_map.mp hdistinct) hput
  have hmem : ∀ {d}, (∃ y ∈ places.zip results, y.1.1 = .cell d) → Placed p names d ∧
    d ∈ i.writes :=
    fun ⟨y, hy, hd⟩ => of_cell_of_writesTo hwrites hplaces (hfst y hy) hd
  refine ⟨m₁', by rwa [zip_map_left], fun t ht => ?_⟩
  refine hrel.step hsafe hi ht hwritten.outer ?_ ?_ ?_
  · exact hwritten.view_old _ fun hrbp => hbase (hmem hrbp).2
  · intro l hl hplaced
    refine hwritten.carried l ?_
    obtain ⟨y, hy, hcell⟩ := exists_cell_of_writesTo hwrites hplaces hl hplaced
    rw [← hzip] at hy
    obtain ⟨y', hy', rfl⟩ := mem_map.mp hy
    exact ⟨y', hy', hcell⟩
  · intro l hplaced hl hcarried hother
    refine hwritten.kept hplaced (fun d hd heq => ?_) hcarried
    obtain ⟨hd, hdwrites⟩ := hmem hd
    rcases hother with hother | hsource
    · exact hother d hdwrites heq
    · -- The copy would have been dropped.
      obtain ⟨⟨d', l'⟩, hmove, rfl⟩ := map_eq_some_iff.mp hsource.symm
      obtain rfl : d = d' := by
        rw [(moveLocations?_cases hmove).2.2.1] at hdwrites
        exact mem_singleton.mp hdwrites
      have hne : d ≠ l' := fun heq => hl (heq ▸ hdwrites)
      rw [h.isIdleMove_of_target_eq hmove hd hplaced hne heq] at hidle
      cases hidle

include h hi in
theorem mapM_read? {reads : List (Operand × Width)} {values : List Word}
    (hnames : ∀ y ∈ reads, ∀ z, y.1 = .pseudo z → names z)
    (hreads : ∀ y ∈ reads, ∀ l, y.1.location? = some l → l ∈ i.reads (p.argumentsOf i))
    (hbases : ∀ y ∈ reads, ∀ r, y.1.base? = some r → .reg r ∈ i.reads (p.argumentsOf i))
    (hvalues : reads.mapM (fun y => p.read? e (e.checks true) m y.1 y.2) = some values) :
    (reads.map (Prod.map f id)).mapM (fun y => p.read? e k m' y.1 y.2) = some values := by
  obtain ⟨hrbp, hrbp'⟩ := hrel.base_eq h
  rw [← map_id values]
  refine mapM_map_eq_some (fun y hy v hv => ?_) hvalues
  exact h.read?_through hrel.outer hrbp hrbp' (hnames y hy)
    (fun l hl hplaced => hrel.carried_of_mem_reads hi (hreads y hy l hl) hplaced)
    (fun r hr => hrel.carried_of_mem_reads hi (hbases y hy r hr) (placed_reg r)) hv

include h hi in
theorem mapM_place?
    (hnames : ∀ y ∈ writes, ∀ z, y.1 = .pseudo z → names z)
    (hbases : ∀ y ∈ writes, ∀ r, y.1.base? = some r → .reg r ∈ i.reads (p.argumentsOf i))
    (hplaces : writes.mapM (fun y => (p.place? e (e.checks true) m y.1).map (·, y.2)) =
      some places) :
    (writes.map (Prod.map f id)).mapM (fun y => (p.place? e k m' y.1).map (·, y.2)) =
      some (places.map (Prod.map (Place.through target) id)) := by
  obtain ⟨hrbp, hrbp'⟩ := hrel.base_eq h
  refine mapM_map_eq_some (fun y hy D hD => ?_) hplaces
  obtain ⟨d, hd, rfl⟩ := map_eq_some_iff.mp hD
  have hthrough := h.place?_through hrbp hrbp' (hnames y hy)
    (fun r hr => hrel.carried_of_mem_reads hi (hbases y hy r hr) (placed_reg r)) hd
  simp [hthrough]

omit hrel in
theorem combine_xor_self (hardware : Hardware) (w : Width) (u : Word) (flags : Flags) :
    hardware.combine .xor w u u flags =
      (0#64, if w = .double then flags else .ofBitwise 0#w.bits) := by
  cases w <;> simp [Hardware.combine]

include h hsafe hi in
theorem compute? (hreplaceable : i.Replaceable names)
    (hidle : (i.mapOperands f).isIdleMove = false) {c : Computation}
    (hc : i.computation? e.hardware = some c) (hm₁ : p.compute? e (e.checks true) m c = some m₁) :
    ∃ m₁', p.execute e k m' (i.mapOperands f) = .next m₁' ∧
      ∀ t ∈ nextPositions Instr.flow p.body n, Related p e base names target t m₁ m₁' := by
  have haccesses : i.Accesses (p.argumentsOf i) c :=
    computation?_accesses hreplaceable.notDivision hc
  have hshaped := computation?_shaped hc
  have hnames : ∀ y ∈ c.reads ++ c.writes, ∀ z, y.1 = .pseudo z → names z := by
    intro y hy z hz
    rcases hshaped.operands y hy with hmem | ⟨r, hr⟩
    · exact hreplaceable.named z (hz ▸ hmem)
    · cases hz.symm.trans hr
  have hwritesTo : i.WritesTo (p.argumentsOf i) names c.extent c.writes :=
    ⟨fun y hy => hnames y (mem_append_right _ hy), haccesses.writes, haccesses.written,
      hshaped.distinct, fun hx y hy => ⟨hshaped.merged hx y hy, haccesses.merged hx y hy⟩⟩
  obtain ⟨values, hvalues, hrest⟩ := bind_eq_some_iff.mp hm₁
  obtain ⟨places, hplaces, hrest⟩ := bind_eq_some_iff.mp hrest
  obtain ⟨⟨results, flags⟩, hresults, hrest⟩ := bind_eq_some_iff.mp hrest
  obtain ⟨m₀, hput, rfl⟩ := map_eq_some_iff.mp hrest
  have hvalues' := hrel.mapM_read? h hi (fun y hy => hnames y (mem_append_left _ hy))
    haccesses.reads (fun y hy => haccesses.bases y (mem_append_left _ hy)) hvalues
  have hplaces' := hrel.mapM_place? h hi hwritesTo.named
    (fun y hy => haccesses.bases y (mem_append_right _ hy)) hplaces
  obtain ⟨m₀', hput', hrelated⟩ := hrel.putAll? h hsafe hi hreplaceable.base hidle hwritesTo
    (hshaped.results hresults) hplaces hput
  refine ⟨{ m₀' with flags := flags }, ?_, fun t ht => (hrelated t ht).withFlags flags⟩
  rw [hrel.outer.flags_eq] at hresults
  rcases computation?_mapOperands (f := f) (fun r => h.fixed _ rfl) hc with
    hc' | ⟨o, o', heq, rfl, hc'⟩
  · rw [execute_of_computation? hc']
    simp [compute?, Computation.mapOperands, hvalues', hplaces', hresults, hput', goOn]
  · -- Two operands that have become the same have the same value.
    simp only [Computation.combine, map_cons, map_nil, mapM_cons, mapM_nil, Prod.map_fst,
      Prod.map_snd, id_eq, ← heq, bind_eq_bind, bind_eq_some_iff] at hvalues'
    obtain ⟨u, hu, _, ⟨u', hu', _, hnil, hcons'⟩, hcons⟩ := hvalues'
    cases hnil
    cases hcons'
    cases hcons
    obtain rfl := some.inj (hu.symm.trans hu')
    simp only [Computation.combine, combine_xor_self, some.injEq, Prod.mk.injEq] at hresults
    obtain ⟨rfl, rfl⟩ := hresults
    rw [execute_of_computation? hc', compute?]
    simp only [Computation.combine, map_cons, map_nil, Prod.map_apply, id_eq] at hplaces' hput'
    simp [Computation.clear, hplaces', hput', goOn]

include h in
/-- The new operands of a copy, or of an instruction that takes an address, stand for where the old
places have gone. -/
theorem place?_pair {op : Opcode} (hop : op ∈ [.mov, .lea])
    (hi : p.body[n]? = some ⟨op, w, [dst, src]⟩)
    (hnames : ∀ o ∈ [dst, src], ∀ z, o = .pseudo z → names z) (ho : o ∈ [dst, src])
    (hD : p.place? e (e.checks true) m o = some D) :
    p.place? e k m' (f o) = some (D.through target) := by
  obtain ⟨hrbp, hrbp'⟩ := hrel.base_eq h
  refine h.place?_through hrbp hrbp' (hnames o ho) (fun r hr => ?_) hD
  refine hrel.carried_of_mem_reads hi ?_ (placed_reg r)
  rcases mem_pair.mp hop with rfl | rfl <;> rcases mem_pair.mp ho with rfl | rfl <;>
    simp [reads, directions, positions, hr]

include h hsafe in
theorem lea? (hi : p.body[n]? = some ⟨.lea, w, [dst, src]⟩)
    (hreplaceable : Instr.Replaceable names ⟨.lea, w, [dst, src]⟩)
    (hm₁ : p.lea? e (e.checks true) m dst src = some m₁) :
    ∃ m₁', p.lea? e k m' (f dst) (f src) = some m₁' ∧
      ∀ t ∈ nextPositions Instr.flow p.body n, Related p e base names target t m₁ m₁' := by
  have hnames : ∀ o ∈ [dst, src], ∀ z, o = .pseudo z → names z := fun o ho z hz =>
    hreplaceable.named z (hz ▸ ho)
  obtain ⟨D, hD, hrest⟩ := bind_eq_some_iff.mp hm₁
  cases D with
  | value y | cell y => cases hrest
  | address b =>
    obtain ⟨D, hdst, hput⟩ := bind_eq_some_iff.mp hrest
    have hwritesTo :
      Instr.WritesTo ⟨.lea, w, [dst, src]⟩ (p.argumentsOf ⟨.lea, w, [dst, src]⟩) names
        .computed [(dst, .quad)] := by
      refine ⟨?_, ?_, ?_, pairwise_singleton _ _, fun hx => nomatch hx⟩
      · simpa using hnames dst (by simp)
      · simp +contextual [Instr.writes, Instr.directions, Instr.positions, Direction.writes]
      · simp [Instr.writes, Instr.directions,
          Instr.positions, Direction.writes, Instr.implicitWrites]
    have hplaces : [(dst, Width.quad)].mapM (fun y =>
        (p.place? e (e.checks true) m y.1).map (·, y.2)) = some [(D, .quad)] := by
      simp [hdst]
    have hputAll : m.putAll? (e.checks true) .computed ([(D, .quad)].zip [b]) = some m₁ := by
      simpa [Storage.putAll?] using hput
    obtain ⟨m₁', hput', hrelated⟩ :=
      hrel.putAll? h hsafe hi hreplaceable.base (by rfl) hwritesTo rfl hplaces hputAll
    refine ⟨m₁', ?_, hrelated⟩
    have hsrc := hrel.place?_pair h (by simp) hi hnames (by simp) hD
    have hdst' := hrel.place?_pair h (by simp) hi hnames (by simp) hdst
    rw [Procedure.lea?, hsrc, bind_some]
    show (p.place? e k m' (f dst)).bind (m'.put? k .computed .quad b) = some m₁'
    rw [hdst', bind_some]
    simpa [Storage.putAll?] using hput'

/-! ### The stack -/

include h in
theorem pushed? (hi : p.body[n]? = some ⟨.push, w, [o]⟩) (hnames : ∀ z, o = .pseudo z → names z)
    (hy : p.pushed? e (e.checks true) m o = some y) :
    ∃ y', p.pushed? e k m' (f o) = some y' ∧ CarriesOver y y' := by
  have hlocation : ∀ l, o.location? = some l → Placed p names l → Carried target m m' l := by
    intro l hl hplaced
    refine hrel.carried_of_mem_reads hi ?_ hplaced
    simp [reads, directions, positions, Direction.reads, hl]
  have hbase : ∀ r, o.base? = some r → Carried target m m' (.reg r) := by
    intro r hr
    refine hrel.carried_of_mem_reads hi ?_ (placed_reg r)
    simp [reads, directions, positions, hr]
  obtain ⟨hrbp, hrbp'⟩ := hrel.base_eq h
  by_cases hreg : ∃ r, o = .reg r
  · obtain ⟨r, rfl⟩ := hreg
    cases hy
    refine ⟨m'.view (.cell (.reg r)), ?_, ?_⟩
    · rw [h.fixed _ rfl]
      rfl
    · have hcarried := hlocation _ rfl (placed_reg r)
      unfold Carried at hcarried
      rwa [h.register] at hcarried
  · rw [pushed?_of_ne fun r hr => hreg ⟨r, hr⟩] at hy
    obtain ⟨u, hu, rfl⟩ := map_eq_some_iff.mp hy
    have hu' := h.read?_through hrel.outer hrbp hrbp' hnames hlocation hbase hu
    by_cases hreg' : ∃ r, f o = .reg r
    · -- A pseudo register that has become a machine register was read as a whole.
      obtain ⟨r, hr⟩ := hreg'
      obtain ⟨D, hD, hfetch⟩ := bind_eq_some_iff.mp hu
      have hthrough := h.place?_through hrbp hrbp' hnames hbase hD
      rw [hr] at hthrough
      have htarget : D.through target = .cell (.reg r) := (some.inj hthrough).symm
      cases D with
      | value y => cases htarget
      | address b => cases htarget
      | cell l =>
        obtain ⟨hl, hplaced⟩ := placed_of_place? hnames hD
        have hcarried : CarriesOver (m.view (.cell l)) (m'.view (target l)) :=
          hlocation l hl hplaced
        rw [show target l = .cell (.reg r) from htarget] at hcarried
        obtain ⟨hmay, rfl⟩ : m.mayRead (e.checks true) .quad l = true ∧
            low Width.quad.bits (m.cells l) = u := by
          simpa [fetch?] using hfetch
        have hbits : 64 ≤ m.determined l := bits_le_of_mayRead hmay
        refine ⟨m'.view (.cell (.reg r)), by rw [hr]; rfl, hbits.trans hcarried.1, ?_⟩
        show low 64 (low 64 (m.cells l)) = _
        exact hcarried.low_eq hbits
    · refine ⟨(u, 64), ?_, Nat.le_refl _, rfl⟩
      rw [pushed?_of_ne fun r hr => hreg' ⟨r, hr⟩, hu', map_some]

include h in
theorem fetch?_rsp {top : Word}
    (htop : m.fetch? (e.checks true) .quad (.cell (.reg .rsp)) = some top) :
    m'.fetch? k .quad (.cell (.reg .rsp)) = some top := by
  have htop' := h.fetch?_target (placed_reg .rsp) (hrel.carried_of_untracked (by decide)) htop
  rwa [h.register] at htop'

include h hsafe in
theorem push? (hi : p.body[n]? = some ⟨.push, w, [o]⟩) (hnames : ∀ z, o = .pseudo z → names z)
    (hm₁ : p.push? e (e.checks true) m o = some m₁) :
    ∃ m₁', p.push? e k m' (f o) = some m₁' ∧
      ∀ t ∈ nextPositions Instr.flow p.body n, Related p e base names target t m₁ m₁' := by
  obtain ⟨y, top, hpushed, htop, hwithin, rfl⟩ := push?_eq_some_iff.mp hm₁
  obtain ⟨y', hpushed', hcarries⟩ := hrel.pushed? h hi hnames hpushed
  have hstack : ∀ j < 8, e.region (byteAt (top - 8) j) = .stack := fun j hj => by
    simpa using all_eq_true.mp hwithin j (mem_range.mpr hj)
  refine ⟨m'.pushed (top - 8) y'.1 y'.2, ?_, fun t ht => ?_⟩
  · exact push?_eq_some_iff.mpr ⟨y', top, hpushed', hrel.fetch?_rsp h htop, hwithin, rfl⟩
  · refine hrel.step hsafe hi ht (hrel.outer.pushed hstack hcarries)
      ?_ ?_ fun l hl _ hcarried _ => ?_
    · simp [view, pushed]
    · simp [writes, directions, positions, Direction.writes, implicitWrites]
    · exact h.carried_pushed hstack hl hcarried

/-! ### Calls -/

include h hi in
theorem argument? (hop : i.op = .call)
    (hoperands : i.operands = [.callee symbol]) {y : ArgumentPlace × Width} {u : Word}
    (hu : p.argument? e (e.checks true) m symbol y = some u) : p.argument? e k m' symbol y =
      some u := by
  obtain ⟨place, w⟩ := y
  cases place with
  | reg r =>
    simp only [Procedure.argument?] at hu ⊢
    split at hu
    · rename_i hr
      cases hu
      have hreads : .reg r ∈ i.reads (p.argumentsOf i) := by
        have hpassed : r ∈ p.callArguments.getD symbol [] := hr.1
        simp [Instr.reads, Instr.implicitReads, argumentsOf, hop, hoperands, hpassed]
      have hcarried : CarriesOver _ _ := hrel.carried_of_mem_reads hi hreads (placed_reg r)
      rw [h.register] at hcarried
      rw [if_pos ⟨hr.1, hr.2.trans hcarried.1⟩]
      exact congrArg some (hcarried.low_eq hr.2).symm
    · cases hu
  | stack j =>
    simp only [Procedure.argument?] at hu ⊢
    obtain ⟨top, htop, hrest⟩ := bind_eq_some_iff.mp hu
    rw [hrel.fetch?_rsp h htop, bind_some]
    split at hrest
    · rename_i hand
      obtain ⟨hwithin, hsettled⟩ := Bool.and_eq_true_iff.mp hand
      cases hrest
      have hbytes : ∀ i < w.size, m'.settled (byteAt (byteAt top (8 * j)) i) = true ∧
          m.bytes (byteAt (byteAt top (8 * j)) i) = m'.bytes (byteAt (byteAt top (8 * j)) i) := by
        intro i hi
        have hmem := mem_range.mpr hi
        exact hrel.outer.stack _ (by simpa using all_eq_true.mp hwithin i hmem)
          (all_eq_true.mp hsettled i hmem)
      have hsettled' : ((range w.size).all fun i =>
          m'.settled (byteAt (byteAt top (8 * j)) i)) = true :=
        all_eq_true.mpr fun i hi => (hbytes i (mem_range.mp hi)).1
      rw [hwithin, hsettled', Bool.and_self, if_pos rfl]
      exact congrArg some (loadBytes_congr fun i hi => (hbytes i hi).2.symm)
    · cases hrest

include h hsafe hi in
theorem afterCall (hop : i.op = .call)
    (hoperands : i.operands = [.callee symbol]) (trace : List Call) (r : Return)
    (ht : t ∈ nextPositions Instr.flow p.body n) :
    Related p e base names target t (Procedure.afterCall e m trace r)
      (Procedure.afterCall e m' trace r) := by
  have hwrites : i.writes = Register.callerSaved.map Location.reg := by
    simp [Instr.writes, Instr.directions, Instr.positions, Instr.implicitWrites, hop, hoperands,
      Operand.location?]
  have hmove : i.moveLocations? = none := by
    simp [Instr.moveLocations?, Instr.move?, hop]
  refine hrel.step hsafe hi ht ⟨fun b hb => ?_, fun b hb _ => ⟨rfl, ?_⟩, rfl, rfl⟩ ?_ ?_ ?_
  · simp [Procedure.afterCall, hb]
  · simp [Procedure.afterCall, hb]
  · simp [view, Procedure.afterCall, show Register.rbp ∉ Register.callerSaved by decide]
  · intro l hl _
    rw [hwrites] at hl
    obtain ⟨s, hs, rfl⟩ := mem_map.mp hl
    unfold Carried
    rw [h.register]
    simp [view, Procedure.afterCall, hs, CarriesOver]
  · intro l hplaced hl hcarried hother
    have hne : ∀ s ∈ Register.callerSaved, target l ≠ .cell (.reg s) := by
      intro s hs heq
      refine (hother.resolve_right (by simp [hmove])) (.reg s) ?_ ?_
      · rw [hwrites]
        exact mem_map_of_mem hs
      · rw [h.register, heq]
    have hold : (Procedure.afterCall e m trace r).view (.cell l) = m.view (.cell l) := by
      cases l with
      | pseudo z => rfl
      | reg s =>
        have hs : s ∉ Register.callerSaved := fun hs => hne s hs (h.register s)
        simp [view, Procedure.afterCall, hs]
    have hnew : (Procedure.afterCall e m' trace r).view (target l) = m'.view (target l) := by
      -- A callee leaves the frame alone.
      refine h.view_target_eq hplaced (fun b hb => by simp [Procedure.afterCall, hb])
        fun c htarget => ?_
      cases c with
      | pseudo z => rfl
      | reg s =>
        have hs : s ∉ Register.callerSaved := fun hs => hne s hs htarget
        simp [view, Procedure.afterCall, hs]
    unfold Carried
    rwa [hold, hnew]

include h hsafe in
theorem call (hi : p.body[n]? = some ⟨.call, w, [.callee symbol]⟩)
    (hdefined : ∀ m₁, p.call e (e.checks true) m symbol ≠ .stop m₁ .undefined) :
    OutcomesMatch (p.machine e (e.checks true)) (p.machine e k) p.body
      (Related p e base names target) n (p.call e (e.checks true) m symbol)
        (p.call e k m' symbol) := by
  unfold Procedure.call at hdefined ⊢
  cases harguments : (e.takes m.trace symbol).mapM (p.argument? e (e.checks true) m symbol) with
  | none => exact absurd (by rw [harguments]) (hdefined m)
  | some arguments =>
    have harguments' : (e.takes m.trace symbol).mapM (p.argument? e k m' symbol) =
      some arguments := by
      have hmap := mapM_map_eq_some (φ := id) (ψ := id) (g := p.argument? e k m' symbol)
        (fun y _ u hu => hrel.argument? h hi rfl rfl hu) harguments
      rwa [List.map_id, List.map_id] at hmap
    rw [← hrel.outer.trace_eq, harguments', ← e.sharedBytes_congr hrel.outer.shared]
    simp only
    cases e.respond (m.trace ++ [⟨symbol, arguments, e.sharedBytes m.bytes⟩]) with
    | none => exact .stop rfl
    | some r =>
      have hnext : n + 1 ∈ nextPositions Instr.flow p.body n := by
        simp [nextPositions, hi, Instr.flow]
      exact .next (hrel.afterCall h hsafe hi rfl rfl _ r hnext)

/-! ### Copies that are dropped -/

include hsafe hi in
theorem dropped_cell (hwrites : i.writes = [d]) (hrbp : d ≠ .reg .rbp)
    (hcarried : Carried target m m' l) (htarget : target l = target d)
    (hw : w.bits ≤ m.determined l) (ht : t ∈ nextPositions Instr.flow p.body n) :
    Related p e base names target t (wrote m .copied w (low w.bits (m.cells l)) d) m' := by
  refine hrel.step hsafe hi ht ⟨hrel.outer.shared, hrel.outer.stack, hrel.outer.flags_eq,
    hrel.outer.trace_eq⟩ (view_wrote_of_ne hrbp.symm) ?_ ?_
  · intro c hc _
    rw [hwrites] at hc
    obtain rfl := mem_singleton.mp hc
    unfold Carried
    rw [view_wrote_self, ← htarget]
    refine ⟨hw.trans hcarried.1, ?_⟩
    show low w.bits (overwritten w (m.cells c) (low w.bits (m.cells l))) = _
    rw [low_overwritten, low_low]
    exact hcarried.low_eq hw
  · intro c _ hc hold _
    have hne : c ≠ d := by simpa [hwrites] using hc
    unfold Carried
    rwa [view_wrote_of_ne hne]

include h in
/-- The operands of a copy that has become idle stand for locations that have gone to the same
place, or for the same memory. -/
theorem places_of_idle (hi : p.body[n]? = some ⟨.mov, w, [dst, src]⟩)
    (hnames : ∀ o ∈ [dst, src], ∀ z, o = .pseudo z → names z) (hsame : f dst = f src)
    (hmemory : (f dst).isMemory = false) {S : Place}
    (hS : p.place? e (e.checks true) m src = some S)
    (hD : p.place? e (e.checks true) m dst = some D) :
    (∃ y, D = .value y) ∨ (∃ b, S = .address b ∧ D = .address b) ∨
      ∃ c d, S = .cell c ∧ D = .cell d ∧ target c = target d := by
  have hthrough : S.through target = D.through target := by
    have hS' := hrel.place?_pair h (by simp) hi hnames (by simp) hS
    rw [← hsame, hrel.place?_pair h (by simp) hi hnames (by simp) hD] at hS'
    exact (some.inj hS').symm
  have hcell : ∀ o ∈ [dst, src], ∀ c, p.place? e (e.checks true) m o = some (.cell c) →
      ∃ d, target c = .cell d := by
    intro o ho c hc
    refine h.exists_cell (hnames o ho) hc ?_
    rcases mem_pair.mp ho with rfl | rfl
    · exact hmemory
    · exact hsame ▸ hmemory
  cases S with
  | cell c =>
    obtain ⟨d, hd⟩ := hcell src (by simp) c hS
    cases D with
    | cell c' => exact Or.inr (Or.inr ⟨c, c', rfl, rfl, hthrough⟩)
    | value y | address y => cases hd.symm.trans hthrough
  | value y =>
    cases D with
    | cell c' =>
      obtain ⟨d, hd⟩ := hcell dst (by simp) c' hD
      cases hthrough.trans hd
    | value z => exact Or.inl ⟨z, rfl⟩
    | address z => cases hthrough
  | address y =>
    cases D with
    | cell c' =>
      obtain ⟨d, hd⟩ := hcell dst (by simp) c' hD
      cases hthrough.trans hd
    | value z => exact Or.inl ⟨z, rfl⟩
    | address z => exact Or.inr (Or.inl ⟨y, rfl, hthrough.symm⟩)

include h hsafe hi in
theorem dropped (hreplaceable : i.Replaceable names)
    (hidle : (i.mapOperands f).isIdleMove = true)
    (hdefined : ¬ IsUndefinedAt (p.machine e (e.checks true)) m i) :
    ∃ m₁, p.execute e (e.checks true) m i = .next m₁ ∧
      ∀ t ∈ nextPositions Instr.flow p.body n, Related p e base names target t m₁ m' := by
  obtain ⟨w, dst, src, rfl, hsame, hmemory⟩ := isIdleMove_mapOperands hidle
  have hcopy : (⟨.mov, w, [dst, src]⟩ : Instr).computation? e.hardware = some (.copy dst w src) :=
    rfl
  have hexecute := execute_of_computation? (p := p) (k := e.checks true) (m := m) hcopy
  obtain ⟨m₁, hm₁⟩ : ∃ m₁, p.compute? e (e.checks true) m (.copy dst w src) = some m₁ := by
    cases hm₁ : p.compute? e (e.checks true) m (.copy dst w src) with
    | some m₁ => exact ⟨m₁, rfl⟩
    | none => exact absurd ⟨m, hexecute.trans (by rw [hm₁]; rfl)⟩ hdefined
  rw [hm₁] at hexecute
  refine ⟨m₁, hexecute, fun t ht => ?_⟩
  have hnames : ∀ o ∈ [dst, src], ∀ z, o = .pseudo z → names z := fun o ho z hz =>
    hreplaceable.named z (hz ▸ ho)
  have hwrites : (⟨.mov, w, [dst, src]⟩ : Instr).writes = dst.location?.toList := by
    cases hl : dst.location? <;>
      simp [writes, directions, positions, Direction.writes, implicitWrites, hl]
  obtain ⟨S, D, v, hS, hv, hD, hput⟩ := compute?_copy hm₁
  rcases hrel.places_of_idle h hi hnames hsame hmemory hS hD with
    ⟨y, rfl⟩ | ⟨b, rfl, rfl⟩ | ⟨c, d, rfl, rfl, htarget⟩
  · cases hput
  · -- What is copied is there already.
    obtain ⟨hmay, rfl⟩ : mayAccess (e.checks true) b w = true ∧ loadBytes m.bytes b w.size =
      v := by
      simpa [fetch?] using hv
    obtain rfl : m = m₁ := by
      simpa [put?, hmay, storeBytes_loadBytes m.bytes b (size_le w)] using hput
    refine hrel.step hsafe hi ht hrel.outer rfl (fun l hl hplaced => ?_) fun _ _ _ hcarried _ =>
      hcarried
    rw [hwrites, mem_toList] at hl
    cases place?_of_location hl hplaced hD
  · obtain ⟨hmay, rfl⟩ : m.mayRead (e.checks true) w c = true ∧ low w.bits (m.cells c) = v := by
      simpa [fetch?] using hv
    obtain ⟨hlocation, -⟩ := placed_of_place? (hnames dst (by simp)) hD
    obtain ⟨hsource, hplaced⟩ := placed_of_place? (hnames src (by simp)) hS
    rw [hlocation, toList_some] at hwrites
    have hcarried : Carried target m m' c := by
      refine hrel.carried_of_mem_reads hi ?_ hplaced
      simp [reads, directions, positions, Direction.reads, hsource]
    have hrbp : d ≠ .reg .rbp := fun heq => hreplaceable.base (by simp [hwrites, heq])
    obtain rfl : wrote m .copied w (low w.bits (m.cells c)) d = m₁ := some.inj hput
    exact hrel.dropped_cell hsafe hi hwrites hrbp hcarried htarget (bits_le_of_mayRead hmay) ht

/-! ### Instructions -/

include h hsafe hi in
theorem outcomesMatch (hreplaceable : i.Replaceable names)
    (hidle : (i.mapOperands f).isIdleMove = false)
    (hdefined : ¬ IsUndefinedAt (p.machine e (e.checks true)) m i) :
    OutcomesMatch (p.machine e (e.checks true)) (p.machine e k) p.body
      (Related p e base names target) n (p.execute e (e.checks true) m i)
      (p.execute e k m' (i.mapOperands f)) := by
  have hnext : ∀ {m₁}, p.execute e (e.checks true) m i = .next m₁ →
      n + 1 ∈ nextPositions flow p.body n := fun h₁ =>
    Machine.mem_nextPositions_of_next (M := p.machine e (e.checks true)) hi h₁
  have hjump : ∀ {l m₁}, p.execute e (e.checks true) m i = .jump l m₁ →
      targetPosition flow p.body l ∈ nextPositions flow p.body n := fun h₁ =>
    Machine.mem_nextPositions_of_jump (M := p.machine e (e.checks true)) hi h₁
  obtain ⟨op, w, operands⟩ := i
  have hundefined : ∀ m₁, p.execute e (e.checks true) m ⟨op, w, operands⟩ ≠ .stop m₁ .undefined :=
    fun m₁ h₁ => hdefined ⟨m₁, h₁⟩
  generalize ho : p.execute e (e.checks true) m ⟨op, w, operands⟩ = o at hundefined hnext hjump ⊢
  -- An instruction that goes on to the next one, if it goes on.
  have hgoOn {r : Option Storage} (ho : goOn m r = o) (hrelated : ∀ m₁, r = some m₁ →
      ∃ m₁', p.execute e k m' (mapOperands f ⟨op, w, operands⟩) = .next m₁' ∧
        ∀ t ∈ nextPositions flow p.body n, Related p e base names target t m₁ m₁') :
      OutcomesMatch (p.machine e (e.checks true)) (p.machine e k) p.body
        (Related p e base names target) n o
        (p.execute e k m' (mapOperands f ⟨op, w, operands⟩)) := by
    cases r with
    | none => exact absurd ho.symm (hundefined m)
    | some m₁ =>
      obtain ⟨m₁', hexecute, hrelated⟩ := hrelated m₁ rfl
      subst ho
      rw [hexecute]
      exact .next (hrelated _ (hnext rfl))
  unfold execute at ho
  simp only at ho
  split at ho
  · -- A label.
    subst ho
    exact .next (hrel.unchanged hsafe hi (writes_eq_nil rfl rfl) (hnext rfl))
  · -- A jump.
    rename_i l
    subst ho
    have hexecute : p.execute e k m' (mapOperands f ⟨.jmp, w, [.label l]⟩) = .jump l m' := by
      simp [mapOperands, h.fixed (.label l) rfl, execute]
    rw [hexecute]
    exact .jump (hrel.unchanged hsafe hi (writes_eq_nil rfl rfl) (hjump rfl))
  · -- A branch, which depends on the flags.
    rename_i c l
    have hexecute : p.execute e k m' (mapOperands f ⟨.jcc c, w, [.label l]⟩) =
        if c.holds m.flags then .jump l m' else .next m' := by
      simp [mapOperands, h.fixed (.label l) rfl, execute, hrel.outer.flags_eq]
    rw [hexecute]
    split at ho
    · rename_i hholds
      subst ho
      rw [if_pos hholds]
      exact .jump (hrel.unchanged hsafe hi (writes_eq_nil rfl rfl) (hjump rfl))
    · rename_i hholds
      subst ho
      rw [if_neg hholds]
      exact .next (hrel.unchanged hsafe hi (writes_eq_nil rfl rfl) (hnext rfl))
  · -- The end.
    have hexit : Related p e base names target p.body.length m m' :=
      hrel.unchanged hsafe hi (writes_eq_nil rfl rfl)
        (by simp [nextPositions, hi, flow])
    subst ho
    exact hexit.leave h hundefined
  · -- A push.
    refine hgoOn ho fun m₁ hm₁ => ?_
    obtain ⟨m₁', hm₁', hrelated⟩ := hrel.push? h hsafe hi
      (fun z hz => hreplaceable.named z (by simp [hz])) hm₁
    exact ⟨m₁', by simp [mapOperands, execute, hm₁', goOn], hrelated⟩
  · -- A call.
    rename_i symbol
    have hexecute : p.execute e k m' (mapOperands f ⟨.call, w, [.callee symbol]⟩) =
        p.call e k m' symbol := by
      simp [mapOperands, h.fixed (.callee symbol) rfl, execute]
    rw [hexecute]
    subst ho
    exact hrel.call h hsafe hi hundefined
  · -- An address.
    refine hgoOn ho fun m₁ hm₁ => ?_
    obtain ⟨m₁', hm₁', hrelated⟩ := hrel.lea? h hsafe hi hreplaceable hm₁
    exact ⟨m₁', by simp [mapOperands, execute, hm₁', goOn], hrelated⟩
  · -- A computation.
    refine hgoOn ho fun m₁ hm₁ => ?_
    obtain ⟨c, hc, hcompute⟩ := bind_eq_some_iff.mp hm₁
    exact hrel.compute? h hsafe hi hreplaceable hidle hc hcompute

end Related

theorem flow_mapOperands (h : Replacement p e k base names f target) (i : Instr) :
    (i.mapOperands f).flow = i.flow := by
  refine flow_eq_of_labels rfl fun l => ?_
  have hlabel : ∀ o, f o = .label l ↔ o = .label l := by
    intro o
    cases o with
    | pseudo z => simp [h.notLabel z l]
    | _ => rw [h.fixed _ (by rfl)]
  simp [mapOperands, hlabel]

section

variable (h : Replacement p e k base names f target)
  (hsafe : p.problem.Safe (Placed p names) target) (hbody : ∀ i ∈ p.body, i.Replaceable names)

include h hsafe hbody

/-- The new code does what the old one did. -/
theorem editCorrect :
    EditCorrect (p.machine e (e.checks true)) (p.machine e k) p.body
      (replacing (Instr.mapOperands f) Instr.isIdleMove p.body)
        (Related p e base names target) where
  length_eq := by simp [replacing]
  seen_eq := fun hrel => hrel.outer.trace_eq
  leave_eq := by
    intro m m' hrel
    show (⟨[], e.sharedBytes m.bytes⟩ : Exit) = ⟨[], e.sharedBytes m'.bytes⟩
    rw [e.sharedBytes_congr hrel.outer.shared]
  kept := by
    intro n m m' i i' hrel hi hi' hdefined
    have hidle : (i.mapOperands f).isIdleMove = false := by
      by_contra htrue
      simp [replacing, hi, htrue] at hi'
    obtain ⟨j, hj, rfl⟩ := getElem?_replacing_eq_some_some hi'
    rw [hi] at hj
    cases hj
    exact hrel.outcomesMatch h hsafe hi (hbody i (mem_of_getElem? hi)) hidle hdefined
  removed := by
    intro n m m' i hrel hi hi' hdefined
    obtain ⟨j, hj, hidle⟩ := getElem?_replacing_eq_some_none hi'
    rw [hi] at hj
    cases hj
    obtain ⟨m₁, hexecute, hrelated⟩ := hrel.dropped h hsafe hi (hbody i (mem_of_getElem? hi))
      hidle hdefined
    have hnext :=
      Machine.mem_nextPositions_of_next (M := p.machine e (e.checks true)) hi hexecute
    have hrel₁ := hrelated _ hnext
    have hlt : n < p.body.length := (List.getElem?_eq_some_iff.mp hi).1
    refine ⟨n + 1, m₁, ?_, by omega, hlt, ?_, hrel₁, fun j hnj hjn => by omega⟩
    · show (p.machine e (e.checks true)).apply p.body ⟨n, m, none⟩
        (p.execute e (e.checks true) m i) = _
      rw [hexecute]
      rfl
    · exact hrel₁.outer.trace_eq.trans hrel.outer.trace_eq.symm
  target_eq := by
    intro n i' l _ _
    refine targetPosition_replacing (fun i _ => h.flow_mapOperands i) (fun i _ hidle => ?_) l
    obtain ⟨w, dst, src, rfl, -, -⟩ := Instr.isIdleMove_mapOperands hidle
    rfl

theorem preserves (hm : Related p e base names target 0 m m') :
    Preserves (p.machine e (e.checks true)) p.body m (p.machine e k)
      ((p.body.map (Instr.mapOperands f)).filter fun i => !i.isIdleMove) m' := by
  have hpreserves := (h.editCorrect hsafe hbody).preserves hm
  rwa [reduceOption_replacing] at hpreserves

end

end Replacement

end ThreeAddress.Amd64
