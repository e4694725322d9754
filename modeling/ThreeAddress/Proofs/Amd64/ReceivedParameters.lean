import ThreeAddress.Proofs.Amd64.PassedValues

/-!
# Parameters that are received

A call pushes the address to return to, and the callee saves the base pointer and makes room for its
own frame.  All of this is below the arguments on the stack, and it leaves the registers alone in
which arguments are.  So the code that copies the parameters finds every argument, and in the end
each parameter has the value of its argument.
-/

namespace ThreeAddress.Amd64

open List Procedure Storage ArgumentPlace Width

/-! ### From caller to callee -/

/-- The code before the first call, if there is a call. -/
def beforeCall? : List Instr → Option (List Instr)
  | [] => none
  | i :: rest => if i.op = .call then some [] else (beforeCall? rest).map (i :: ·)

/-- The state in which a procedure starts, which has assigned no pseudo register yet. -/
def Storage.started (m : Storage) : Storage :=
  { m with
    determined := fun
      | .reg r => m.determined (.reg r)
      | .pseudo _ => 0 }

/-- Runs code up to its first call, makes the call, and runs the prologue of the callee and the code
at its start.  The call pushes the address to return to. -/
def enterCallee (caller callee : Procedure) (e : Setting) (homes : String → Word)
    (code : List Instr) (frame : Frame) (start : List Instr) (returnTo : Int) (m : Storage) :
    Procedure.Step :=
  match beforeCall? code with
  | none => .stop m .undefined
  | some pass =>
    match (caller.machine e (e.checks false)).block m pass with
    | .next m₁ =>
      match caller.push? e .none m₁ (.imm returnTo) with
      | none => .stop m₁ .undefined
      | some m₂ =>
        (callee.machine { e with homes := homes } .none).block m₂.started
          (frame.prologue.map Prod.fst ++ start)
    | outcome => outcome

theorem beforeCall?_append {pass rest : List Instr} {i : Instr} (hi : i.op = .call)
    (hpass : ∀ j ∈ pass, j.op ≠ .call) : beforeCall? (pass ++ i :: rest) = some pass := by
  induction pass with
  | nil => exact if_pos hi
  | cons j pass ih =>
    obtain ⟨hj, hpass⟩ := forall_mem_cons.mp hpass
    rw [cons_append, beforeCall?, if_neg hj, ih hpass]
    rfl

theorem LoweringContext.Passes.beforeCall?_eq {ctx : LoweringContext} {callee : String}
    {args : List Value} {code : List Instr} {st : LoweringState} {pushes : List (List Instr)}
    {moves rest : List Instr} (h : ctx.Passes callee args code st pushes moves rest) :
    beforeCall? code = some (passCode args pushes moves) := by
  rw [h.code_eq, append_assoc]
  refine beforeCall?_append rfl fun i hi => ?_
  rcases mem_append.mp hi with hi | hi
  · rcases mem_append.mp hi with hi | hi
    · unfold gapCode at hi
      split at hi
      · cases hi
      · rw [mem_singleton.mp hi]
        rintro ⟨⟩
    · obtain ⟨code, hcode, hi⟩ := mem_flatten.mp hi
      obtain ⟨v, -, o, -, rfl⟩ := exists_of_forall₂_of_mem h.passed.pushes hcode
      unfold pushCode at hi
      split at hi <;> simp only [mem_cons, not_mem_nil, or_false] at hi
      · rw [hi]
        rintro ⟨⟩
      · rcases hi with rfl | rfl <;> rintro ⟨⟩
  · obtain ⟨x, -, o, -, rfl⟩ := exists_of_forall₂_of_mem h.passed.moves hi
    rintro ⟨⟩

/-! ### The prologue -/

/-- Below some words on the stack and in the stack pointer something may have changed, and nowhere
else. -/
structure Storage.Sinks (bottom : Word) (n slots : Nat) (m m' : Storage) : Prop where
  cells : ∀ r ≠ .rsp, m'.cells (.reg r) = m.cells (.reg r)
  bytes : ∀ i, 8 * n ≤ i → i < 8 * slots → m'.bytes (byteAt bottom i) = m.bytes (byteAt bottom i)

section

variable {p : Procedure} {e : Setting} {k : Checks} {m m' m'' : Storage} {o : Operand}
  {bottom x : Word} {n d j slots : Nat} {r : Register} {w : Width}

theorem Storage.Sinks.trans (h : m.Sinks bottom n slots m') (h' : m'.Sinks bottom n slots m'') :
    m.Sinks bottom n slots m'' :=
  ⟨fun r hr => (h'.cells r hr).trans (h.cells r hr),
    fun i hn hi => (h'.bytes i hn hi).trans (h.bytes i hn hi)⟩

theorem Storage.Shifts.sinks {a : Word} (h : m.Shifts a m') : m.Sinks bottom n slots m' :=
  ⟨fun r hr => h.cells _ (by simpa using hr), fun i _ _ => by rw [h.bytes]⟩

theorem Storage.sinks_pushed (hd : d < n) (hsmall : 8 * slots < 2 ^ 64) :
    m.Sinks bottom n slots (m.pushed (slot bottom d) x j) := by
  refine ⟨fun r hr => ?_, fun i hn hi => ?_⟩
  · simp [pushed, hr]
  · have haddress : byteAt bottom i = byteAt (slot bottom d) (i - 8 * d) := by
      rw [slot, byteAt_byteAt]
      congr 1
      omega
    show storeBytes m.bytes (slot bottom d) 8 x (byteAt bottom i) = _
    rw [storeBytes, haddress, toNat_byteAt_sub (by omega), if_neg (by omega)]

theorem Procedure.exists_saved (saved : List Register) (hk : k.strict = false)
    (hroom : e.Room bottom slots) (hd : d + saved.length ≤ n) (hn : n ≤ slots)
    (hrsp : m.cells (.reg .rsp) = slot bottom (d + saved.length)) :
    ∃ m', (p.machine e k).block m (saved.map fun r => .bare .push [.reg r]) = .next m' ∧
      m'.cells (.reg .rsp) = slot bottom d ∧ m.Sinks bottom n slots m' := by
  induction saved generalizing m with
  | nil => exact ⟨m, rfl, hrsp, fun _ _ => rfl, fun _ _ _ => rfl⟩
  | cons r rest ih =>
    rw [length_cons] at hd hrsp
    have hpush := execute_push (p := p) (w := .quad) (o := .reg r) hk hroom
      (by omega : d + rest.length < slots) hrsp rfl
    obtain ⟨m', hblock, hm', hsinks⟩ := ih (m := m.pushed (slot bottom (d + rest.length)) _ _)
      (by omega) (by simp [pushed])
    refine ⟨m', ?_, hm', (sinks_pushed (by omega) hroom.small).trans hsinks⟩
    rw [map_cons, Machine.block_cons_of_next hpush, hblock]

theorem Frame.map_fst_prologue (frame : Frame) :
    frame.prologue.map Prod.fst = .bare .push [.reg .rbp] :: .bare .mov [.reg .rbp, .reg .rsp] ::
      ((if frame.locals = 0 then [] else [⟨.sub, .quad, [.reg .rsp, .imm frame.locals]⟩]) ++
        frame.saved.map fun r => .bare .push [.reg r]) := by
  unfold prologue
  split <;> simp [Instr.bare]

/-- After the prologue, the base pointer is below the address to return to and the saved base
pointer. -/
theorem Frame.exists_prologue (frame : Frame) (hk : k.strict = false) (hroom : e.Room bottom slots)
    {locals : Nat} (hlocals : frame.locals = 8 * locals) (hn : n + 2 ≤ slots)
    (hdepth : locals + frame.saved.length ≤ n)
    (hrsp : m.cells (.reg .rsp) = slot bottom (n + 1)) :
    ∃ m', (p.machine e k).block m (frame.prologue.map Prod.fst) = .next m' ∧
      m'.cells (.reg .rbp) = slot bottom n ∧
      (∀ r, r ≠ .rsp → r ≠ .rbp → m'.cells (.reg r) = m.cells (.reg r)) ∧
      ∀ i, 8 * (n + 2) ≤ i → i < 8 * slots →
        m'.bytes (byteAt bottom i) = m.bytes (byteAt bottom i) := by
  -- The base pointer is saved and set.
  have hpush := execute_push (p := p) (w := .quad) (o := .reg .rbp) hk hroom (by omega) hrsp rfl
  obtain ⟨m₁, hm₁⟩ : ∃ m₁, m₁ = m.pushed (slot bottom n) (m.cells (.reg .rbp))
    (m.determined (.reg .rbp)) := ⟨_, rfl⟩
  rw [← hm₁] at hpush
  have hrsp₁ : m₁.cells (.reg .rsp) = slot bottom n := by simp [hm₁, pushed]
  have hsinks₁ : m.Sinks bottom (n + 2) slots m₁ :=
    hm₁ ▸ sinks_pushed (by omega) hroom.small
  have hread : p.read? e k m₁ (.reg .rsp) .quad = some (slot bottom n) := by
    rw [← hrsp₁]
    exact fetch?_reg hk
  have hmove := execute_mov_reg (r := .rbp) hread
  obtain ⟨m₂, hm₂⟩ : ∃ m₂ : Storage, m₂ = { m₁ with
      cells := Function.update m₁.cells (.reg .rbp)
        (overwritten .quad (m₁.cells (.reg .rbp)) (slot bottom n))
      determined := Function.update m₁.determined (.reg .rbp) quad.bits } := ⟨_, rfl⟩
  rw [← hm₂] at hmove
  have hrsp₂ : m₂.cells (.reg .rsp) = slot bottom (n - locals + locals) := by
    rw [Nat.sub_add_cancel (by omega), ← hrsp₁]
    simp [hm₂]
  -- Room is made, and registers are saved there.
  obtain ⟨m₃, hshift, hm₃⟩ := exists_shifts hk hrsp₂ hlocals
  obtain ⟨m₄, hsaved, -, hsinks₄⟩ := exists_saved
    (d := n - locals - frame.saved.length) frame.saved hk hroom (by omega) hn
    (by rw [hm₃.rsp]; congr 1; omega)
  have hsinks := hm₃.sinks.trans hsinks₄
  refine ⟨m₄, ?_, ?_, ?_, ?_⟩
  · rw [frame.map_fst_prologue, Machine.block_cons_of_next hpush, Machine.block_cons_of_next hmove,
      Machine.block_append_of_next hshift, hsaved]
  · rw [hsinks.cells _ (by decide)]
    simp [hm₂, overwritten]
  · intro r hrsp hrbp
    rw [hsinks.cells r hrsp, ← hsinks₁.cells r hrsp]
    simp [hm₂, hrbp]
  · intro i hn hi
    rw [hsinks.bytes i hn hi, ← hsinks₁.bytes i hn hi]
    simp [hm₂]

end

/-! ### Places -/

/-- Places that do not overlap, given how many bytes of memory they have. -/
def Place.Apart (n n' : Nat) : Place → Place → Prop
  | .address a, .address b => ∀ i < n, ∀ j < n', byteAt a i ≠ byteAt b j
  | .cell l, .cell l' => l ≠ l'
  | _, _ => True

def Procedure.variablePlace (p : Procedure) (ctx : LoweringContext) (e : Setting) (v : Variable) :
    Place :=
  if v.name ∈ ctx.statics then .address (e.symbols (ctx.platform.symbol v.name))
  else if p.isAliased v.name then .address (e.homes v.name)
  else .cell (.pseudo v.name)

/-- Where an argument is found by the function that it is passed to. -/
def ArgumentPlace.source (base : Word) : ArgumentPlace → Place
  | .reg r => .cell (.reg r)
  | .stack n => .address (incoming base n)

section

variable {p : Procedure} {ctx : LoweringContext} {e : Setting} {m m' : Storage} {D D' : Place}
  {w w' : Width} {x base : Word} {v : Variable} {place : ArgumentPlace}

theorem Storage.fetch?_none_address {a : Word} :
    m.fetch? .none w (.address a) = some (loadBytes m.bytes a w.size) := by
  have hmay : mayAccess .none a w = true := by simp [mayAccess, Checks.none]
  rw [fetch?, if_pos hmay]

theorem Storage.fetch?_put?_self (h : m.put? .none .copied w x D = some m') :
    m'.fetch? .none w D = some (low w.bits x) := by
  cases D with
  | value y => cases h
  | cell l =>
    cases h
    have hmay : mayRead .none { m with
        cells := Function.update m.cells l (overwritten w (m.cells l) x)
        determined := Function.update m.determined l
          (Extent.copied.determined l w (m.determined l)) } w l = true := by
      cases l with
      | reg r => rfl
      | pseudo y => simp [mayRead, Extent.determined]
    rw [fetch?, if_pos hmay]
    simp [low_overwritten]
  | address a =>
    have hmay : mayAccess .none a w = true := by simp [mayAccess, Checks.none]
    rw [put?, if_pos hmay] at h
    cases h
    rw [fetch?_none_address]
    exact congrArg some (loadBytes_storeBytes _ _ (by cases w <;> decide) _)

theorem Storage.fetch?_put?_of_apart {k : Checks} {y : Extent} (h : m.put? k y w x D = some m')
    (hapart : D.Apart w.size w'.size D') : m'.fetch? k w' D' = m.fetch? k w' D' := by
  cases D with
  | value y => cases h
  | cell l =>
    cases h
    cases D' with
    | value z | address b => rfl
    | cell l' =>
      have hne : l' ≠ l := fun heq => hapart heq.symm
      cases l' <;> simp [fetch?, mayRead, Function.update_of_ne hne]
  | address a =>
    simp only [put?] at h
    split at h
    · cases h
      cases D' with
      | value z | cell l' => rfl
      | address b =>
        simp only [fetch?]
        congr 2
        refine loadBytes_congr fun j hj => storeBytes_of_not_mem fun i hi => ?_
        exact (hapart i hi j hj).symm
    · cases h

theorem Storage.exists_put? (hD : ∀ y, D ≠ .value y) (y : Extent) :
    ∃ m', m.put? .none y w x D = some m' := by
  cases D with
  | value z => exact absurd rfl (hD z)
  | cell l => exact ⟨_, rfl⟩
  | address a => exact ⟨_, if_pos (by simp [mayAccess, Checks.none])⟩

theorem Procedure.place?_variableOperandOf {k : Checks} :
    p.place? e k m (ctx.variableOperandOf v) = some (p.variablePlace ctx e v) := by
  unfold LoweringContext.variableOperandOf variablePlace
  by_cases hstatic : v.name ∈ ctx.statics
  · rw [if_pos hstatic, if_pos hstatic]
    rfl
  · rw [if_neg hstatic, if_neg hstatic]
    rfl

theorem Procedure.variablePlace_ne_value (y : Word) : p.variablePlace ctx e v ≠ .value y := by
  unfold variablePlace
  split
  · exact nofun
  · split <;> exact nofun

theorem Procedure.variablePlace_apart_reg {n n' : Nat} {r : Register} :
    (p.variablePlace ctx e v).Apart n n' (.cell (.reg r)) := by
  unfold variablePlace
  split
  · trivial
  · split
    · trivial
    · exact nofun

theorem LoweringContext.execute_paramMove
    (hbase : m.fetch? .none .quad (.cell (.reg .rbp)) = some base)
    (hx : m.fetch? .none (.ofType v.type) (place.source base) = some x) :
    ∃ m', p.execute e .none m (ctx.paramMove (v, place)) = .next m' ∧
      m.put? .none .copied (.ofType v.type) x (p.variablePlace ctx e v) = some m' := by
  have hread : p.read? e .none m place.operand (.ofType v.type) = some x := by
    cases place with
    | reg r => exact hx
    | stack n =>
      simp only [read?, ArgumentPlace.operand, place?, hbase]
      exact hx
  obtain ⟨m', hput⟩ := exists_put? (fun y => p.variablePlace_ne_value y) .copied
  have hreads : [(place.operand, .ofType v.type)].mapM
      (fun y => p.read? e .none m y.1 y.2) = some [x] := by simp [hread]
  refine ⟨m', ?_, hput⟩
  rw [execute_of_computation? rfl, compute?_of_put? hreads rfl place?_variableOperandOf rfl hput]
  cases hD : p.variablePlace ctx e v with
  | value y => exact absurd hD (p.variablePlace_ne_value y)
  | cell l =>
    rw [hD] at hput
    cases hput
    rfl
  | address a =>
    rw [hD, put?, if_pos (by simp [mayAccess, Checks.none])] at hput
    cases hput
    rfl

/-- The code that copies parameters gives each of them its value, and leaves all other places
alone. -/
theorem LoweringContext.exists_copied {xs : List (Variable × ArgumentPlace)} {cs : List Const}
    (hbase : m.fetch? .none .quad (.cell (.reg .rbp)) = some base)
    (hvalues : List.Forall₂ (fun x c => c.type = x.1.type ∧
      m.fetch? .none (.ofType x.1.type) (x.2.source base) = some c.raw) xs cs)
    (hnodup : (xs.map (·.1.name)).Nodup)
    (hapart : ∀ x ∈ xs, ∀ y ∈ xs, x.1.name ≠ y.1.name → (p.variablePlace ctx e x.1).Apart
      x.1.type.size y.1.type.size (p.variablePlace ctx e y.1))
    (hfree : ∀ x ∈ xs, ∀ y ∈ xs, (p.variablePlace ctx e x.1).Apart
      x.1.type.size y.1.type.size (y.2.source base)) :
    ∃ m', (p.machine e .none).block m (xs.map ctx.paramMove) = .next m' ∧
      List.Forall₂ (fun x c => m'.fetch? .none (.ofType x.1.type) (p.variablePlace ctx e x.1) =
        some c.raw) xs cs ∧
      ∀ (D : Place) (w : Width),
        (∀ x ∈ xs, (p.variablePlace ctx e x.1).Apart x.1.type.size w.size D) →
          m'.fetch? .none w D = m.fetch? .none w D := by
  induction xs generalizing m cs with
  | nil =>
    cases hvalues
    exact ⟨m, rfl, .nil, fun _ _ _ => rfl⟩
  | cons x xs ih =>
    obtain ⟨c, cs, hx, hrest, rfl⟩ := forall₂_cons_left_iff.mp hvalues
    obtain ⟨m₁, hnext, hput⟩ := ctx.execute_paramMove hbase hx.2
    have hframe (D : Place) (w : Width)
        (hD : (p.variablePlace ctx e x.1).Apart x.1.type.size w.size D) :
        m₁.fetch? .none w D = m.fetch? .none w D :=
      fetch?_put?_of_apart hput (by rwa [size_ofType])
    rw [map_cons, nodup_cons] at hnodup
    obtain ⟨hfree₁, hfree₂⟩ := forall_mem_cons.mp hfree
    -- What is still to be copied was not overwritten.
    have hrest := ((forall₂_and_left _ _).mpr
      ⟨(forall_mem_cons.mp hfree₁).2, hrest⟩).imp fun y d ⟨hy, htype, hd⟩ =>
        (⟨htype, (hframe _ _ (by rwa [size_ofType])).trans hd⟩ :
          d.type = y.1.type ∧ m₁.fetch? .none (.ofType y.1.type) (y.2.source base) = some d.raw)
    obtain ⟨m₂, hblock, hcopied, hframe₂⟩ := ih
      ((hframe _ _ variablePlace_apart_reg).trans hbase) hrest hnodup.2
      (fun y hy z hz => hapart y (mem_cons_of_mem _ hy) z (mem_cons_of_mem _ hz))
      (fun y hy => (forall_mem_cons.mp (hfree₂ y hy)).2)
    refine ⟨m₂, ?_, .cons ?_ hcopied, ?_⟩
    · rw [map_cons, Machine.block_cons_of_next hnext, hblock]
    · -- What was copied is not overwritten later, since names differ.
      rw [hframe₂, fetch?_put?_self hput, bits_ofType, ← hx.1, c.low_raw]
      intro y hy
      rw [size_ofType]
      refine hapart y (mem_cons_of_mem _ hy) x mem_cons_self fun hname => hnodup.1 ?_
      exact mem_map.mpr ⟨y, hy, hname⟩
    · intro D w hD
      obtain ⟨hfirst, hothers⟩ := forall_mem_cons.mp hD
      rw [hframe₂ D w hothers, hframe D w hfirst]

end

/-! ### Caller and callee -/

theorem LoweringContext.gives_paramMoves {ctx : LoweringContext} {st : LoweringState}
    (ps : List Variable) :
    Lower.Gives (ctx.params ps) st fun code _ =>
      code = (ps.zip (paramPlaces ps)).map ctx.paramMove := by
  refine (gives_params_of (R := fun _ _ _ => True) (fun _ => trivial) (fun _ _ => trivial) ?_).mono
    fun _ _ h => h.2
  exact fun v _ _ => (gives_variable v).mono fun _ _ h => ⟨trivial, h.2⟩

/-- Parameters in memory overlap neither with each other nor with some words on the stack. -/
structure Procedure.Separates (p : Procedure) (ctx : LoweringContext) (e : Setting)
    (ps : List Variable) (bottom : Word) (n slots : Nat) : Prop where
  apart : ∀ v ∈ ps, ∀ u ∈ ps, v.name ≠ u.name → ∀ a b, p.variablePlace ctx e v = .address a →
    p.variablePlace ctx e u = .address b → ∀ i < v.type.size, ∀ j < u.type.size,
      byteAt a i ≠ byteAt b j
  free : ∀ v ∈ ps, ∀ a, p.variablePlace ctx e v = .address a → ∀ i < v.type.size, ∀ j, 8 * n ≤ j →
    j < 8 * slots → byteAt a i ≠ byteAt bottom j

section

variable {p : Procedure} {ctx : LoweringContext} {e : Setting} {ps : List Variable} {bottom : Word}
  {n slots : Nat} {v u : Variable} {cs : List Const} {m m' : Storage}

theorem Procedure.Separates.places_apart (h : p.Separates ctx e ps bottom n slots) (hv : v ∈ ps)
    (hu : u ∈ ps) (hne : v.name ≠ u.name) :
    (p.variablePlace ctx e v).Apart v.type.size u.type.size (p.variablePlace ctx e u) := by
  have hapart := h.apart v hv u hu hne
  have hcell {w : Variable} {l : Location Register} (hl : p.variablePlace ctx e w = .cell l) :
      l = .pseudo w.name := by
    unfold variablePlace at hl
    split at hl
    · cases hl
    · split at hl <;> cases hl
      rfl
  cases hplace : p.variablePlace ctx e v with
  | value x => exact absurd hplace (p.variablePlace_ne_value x)
  | cell l =>
    cases hplace' : p.variablePlace ctx e u with
    | value x | address a => trivial
    | cell l' =>
      rw [hcell hplace, hcell hplace']
      simpa [Place.Apart] using hne
  | address a =>
    cases hplace' : p.variablePlace ctx e u with
    | value x | cell l => trivial
    | address b => exact hapart a b hplace hplace'

theorem incoming_slot (i : Nat) : incoming (slot bottom n) i = slot bottom (n + 2 + i) := by
  rw [incoming, stackArgumentOffset, Nat.add_assoc, ← slot_add]
  congr 2
  omega

theorem Procedure.Separates.source_apart (h : p.Separates ctx e ps bottom (n + 2) slots)
    (hv : v ∈ ps) {place : ArgumentPlace} {size : Nat} (hsize : size ≤ 8)
    (hplace : ∀ i, place = .stack i → n + 2 + i < slots) :
    (p.variablePlace ctx e v).Apart v.type.size size (place.source (slot bottom n)) := by
  cases place with
  | reg r => exact p.variablePlace_apart_reg
  | stack k =>
    have hfree := h.free v hv
    have hk := hplace k rfl
    rw [source, incoming_slot]
    cases hD : p.variablePlace ctx e v with
    | value x | cell l => trivial
    | address a =>
      intro i hi j hj
      rw [slot, byteAt_byteAt]
      exact hfree a hD i hi _ (by omega) (by omega)

theorem Passed.fetch?_source {known : Nat → Storage → Prop} {types : List ScalarType}
    {place : ArgumentPlace} {c : Const}
    (h : Passed known bottom slots (n + 2) (onStack cs (ArgumentPlace.ofTypes types))
      (inRegisters cs (ArgumentPlace.ofTypes types)).reverse m)
    (hplace : (place, c) ∈ (ArgumentPlace.ofTypes types).zip cs)
    (hcells : ∀ r, r ≠ .rsp → r ≠ .rbp → m'.cells (.reg r) = m.cells (.reg r))
    (hbytes : ∀ i, 8 * (n + 2) ≤ i → i < 8 * slots →
      m'.bytes (byteAt bottom i) = m.bytes (byteAt bottom i)) :
    m'.fetch? .none (.ofType c.type) (place.source (slot bottom n)) = some c.raw ∧
      ∀ i, place = .stack i → n + 2 + i < slots := by
  cases place with
  | reg r =>
    have hmem := mem_inRegisters hplace
    have hhas := h.registers _ (mem_reverse.mpr hmem)
    refine ⟨?_, nofun⟩
    show some (low _ (m'.cells (.reg r))) = _
    rw [bits_ofType, hcells r (ne_of_mem_inRegisters hmem (by decide))
      (ne_of_mem_inRegisters hmem (by decide)), hhas.low_eq]
  | stack k =>
    obtain ⟨-, hget⟩ := getElem?_onStack hplace
    have hslot := h.holds k c hget
    have hk : k < (onStack cs (ofTypes types)).length :=
      (List.getElem?_eq_some_iff.mp hget).1
    have hfits := h.fits
    have hsize := c.type.size_le
    refine ⟨?_, ?_⟩
    · rw [source, incoming_slot, fetch?_none_address, size_ofType,
        ← hslot.loaded]
      refine congrArg some (loadBytes_congr fun i hi => ?_)
      rw [slot, byteAt_byteAt]
      exact hbytes _ (by omega) (by omega)
    · rintro i ⟨⟩
      omega

end

theorem mem_zip_of_mem_zip_zip {α β γ : Type} {xs : List α} {ys : List β} {zs : List γ} {x : α × β}
    {z : γ} (h : (x, z) ∈ (xs.zip ys).zip zs) : (x.1, z) ∈ xs.zip zs ∧ (x.2, z) ∈ ys.zip zs := by
  induction xs generalizing ys zs with
  | nil => simp at h
  | cons a xs ih =>
    cases ys with
    | nil => simp at h
    | cons b ys =>
      cases zs with
      | nil => simp at h
      | cons c zs =>
        simp only [zip_cons_cons, mem_cons] at h ⊢
        rcases h with h | h
        · cases h
          exact ⟨.inl rfl, .inl rfl⟩
        · exact (ih h).imp .inr .inr

theorem forall₂_type_eq {p : Procedure} {ctx : LoweringContext} {e : Setting} {m : Storage}
    {args : List Value} {cs : List Const} {params : List Variable}
    (hvalues : List.Forall₂ (p.Evaluates ctx e m) args cs)
    (htypes : args.map Value.type = params.map Variable.type) :
    List.Forall₂ (fun v c => c.type = v.type) params cs := by
  induction hvalues generalizing params with
  | nil =>
    rw [map_nil, eq_comm, map_eq_nil_iff] at htypes
    exact htypes ▸ .nil
  | cons hc _ ih =>
    cases params with
    | nil => cases htypes
    | cons v rest =>
      rw [map_cons, map_cons, cons.injEq] at htypes
      exact .cons (hc.type_eq.trans htypes.1) (ih htypes.2)

/-- Caller and callee agree on where arguments are passed.  After the code of a call, the call, the
prologue of the callee and the code that copies its parameters, each parameter has the value of its
argument. -/
theorem parameters_receive_arguments (caller callee : Procedure) (ctx ctx' : LoweringContext)
    (st st' : LoweringState) (dst : Option Variable) (name : String) (frame : Frame)
    (returnTo : Int) {e : Setting} {homes : String → Word} {args : List Value} {cs : List Const}
    {params : List Variable} {m : Storage} {bottom : Word} {slots : Nat}
    (htypes : args.map Value.type = params.map Variable.type)
    (hnames : (params.map Variable.name).Nodup)
    (hvalues : List.Forall₂ (caller.Evaluates ctx e m) args cs) (hroom : e.Room bottom slots)
    (hrsp : m.cells (.reg .rsp) = slot bottom slots) (hlocals : 8 ∣ frame.locals)
    (hslots : callSlots args + 2 + frame.locals / 8 + frame.saved.length ≤ slots)
    (hapart : callee.Separates ctx' { e with homes := homes } params bottom (slots - callSlots args)
      slots) :
    ∃ code st₁ start st₁', (ctx.call dst name args).run st = .ok (code, st₁) ∧
      (ctx'.params params).run st' = .ok (start, st₁') ∧
      (caller.HasPool e m st₁.constants.entries →
        ∃ m', enterCallee caller callee e homes code frame start returnTo m = .next m' ∧
          List.Forall₂ (fun v c => callee.read? { e with homes := homes } .none m'
            (ctx'.variableOperandOf v) (.ofType v.type) = some c.raw) params cs) := by
  obtain ⟨code, st₁, hcode, pushes, moves, rest, hpasses⟩ : Lower.Gives _ st _ :=
    ctx.gives_passes dst name args
  obtain ⟨_, st₁', hstart, rfl⟩ : Lower.Gives _ st' _ := ctx'.gives_paramMoves params
  refine ⟨code, st₁, _, st₁', hcode, hstart, fun hpool => ?_⟩
  obtain ⟨locals, hlocals⟩ := hlocals
  obtain ⟨n, hn⟩ : ∃ n, slots - callSlots args = n + 2 := ⟨slots - callSlots args - 2, by omega⟩
  -- The caller passes the arguments and pushes the address to return to.
  obtain ⟨m₁, hpass, hpassed⟩ := hpasses.pass hroom hpool (by omega) hrsp hvalues
  have hplaces : callPlaces args = paramPlaces params := congrArg ofTypes htypes
  rw [hn, hplaces] at hpassed
  obtain ⟨m₂, hpush, hrsp₂, hsinks⟩ : ∃ m₂, caller.push? e .none m₁ (.imm returnTo) = some m₂ ∧
      m₂.cells (.reg .rsp) = slot bottom (n + 1) ∧ m₁.Sinks bottom (n + 2) slots m₂ :=
    ⟨_, push?_eq_pushed rfl hroom (by omega) hpassed.state.rsp rfl, by simp [pushed],
      sinks_pushed (by omega) hroom.small⟩
  -- The callee makes its frame.
  obtain ⟨m₃, hprologue, hrbp, hcells, hbytes⟩ := frame.exists_prologue (p := callee)
    (e := { e with homes := homes }) (k := .none) (m := m₂.started) (n := n) rfl
    ⟨hroom.stack, hroom.small⟩ hlocals (by omega) (by omega) hrsp₂
  have hbase : m₃.fetch? .none .quad (.cell (.reg .rbp)) = some (slot bottom n) := by
    rw [← hrbp]
    exact fetch?_reg rfl
  -- All arguments are where its parameters are copied from.
  have htyped := forall₂_type_eq hvalues htypes
  have hsources : Forall₂ (fun x c => (c.type = x.1.type ∧
      m₃.fetch? .none (.ofType x.1.type) (x.2.source (slot bottom n)) = some c.raw) ∧
      ∀ i, x.2 = .stack i → n + 2 + i < slots) (params.zip (paramPlaces params)) cs := by
    refine forall₂_iff_zip.mpr ⟨?_, fun {x c} hx => ?_⟩
    · simp [paramPlaces, htyped.length_eq]
    · obtain ⟨hparam, hplace⟩ := mem_zip_of_mem_zip_zip hx
      have htype := forall₂_zip htyped hparam
      obtain ⟨hfetch, hbound⟩ := hpassed.fetch?_source hplace
        (fun r hr hr' => (hcells r hr hr').trans (hsinks.cells r hr))
        (fun i hi hi' => (hbytes i hi hi').trans (hsinks.bytes i hi hi'))
      exact ⟨⟨htype, htype ▸ hfetch⟩, hbound⟩
  have hparams : (params.zip (paramPlaces params)).map Prod.fst = params :=
    map_fst_zip (by simp [paramPlaces])
  rw [hn] at hapart
  have hnodup : ((params.zip (paramPlaces params)).map (·.1.name)).Nodup := by
    have hmap : (params.zip (paramPlaces params)).map (·.1.name) = params.map Variable.name := by
      rw [← hparams, map_map, hparams]
      rfl
    rwa [hmap]
  obtain ⟨m₄, hcopy, hcopied, -⟩ := ctx'.exists_copied (p := callee)
    (e := { e with homes := homes }) hbase (hsources.imp fun _ _ h => h.1) hnodup
    (fun x hx y hy => hapart.places_apart (of_mem_zip hx).1 (of_mem_zip hy).1)
    (fun x hx y hy => by
      obtain ⟨c, -, -, hbound⟩ := exists_of_forall₂_of_mem (Forall₂.flip hsources) hy
      exact hapart.source_apart (of_mem_zip hx).1 y.1.type.size_le hbound)
  refine ⟨m₄, ?_, ?_⟩
  · simp only [enterCallee, hpasses.beforeCall?_eq, hpass, hpush]
    rw [Machine.block_append_of_next hprologue, hcopy]
  · rw [← hparams, forall₂_map_left_iff]
    refine hcopied.imp fun x c hc => ?_
    rw [read?, place?_variableOperandOf, Option.bind_some, hc]

/-! ### Arguments of all kinds -/

/-- Six integers and pointers and eight doubles for registers, and five values for the stack. -/
def mixedArguments : List Value :=
  [.var ⟨"a", .int⟩, .var ⟨"b", .pointer⟩, .var ⟨"c", .uchar⟩, .const (.ofInt .long (-1)),
    .var ⟨"a", .ulong⟩, .var ⟨"b", .uint⟩] ++ List.replicate 8 (.var ⟨"d", .double⟩) ++
  [.var ⟨"c", .schar⟩, .const ⟨.double, 0x4004000000000000#64⟩, .var ⟨"b", .pointer⟩,
    .var ⟨"d", .double⟩, .const (.ofInt .int 3)]

/-- Parameters of the same types. -/
def mixedParameters : List Variable :=
  mixedArguments.zipIdx.map fun x => ⟨String.ofList (List.replicate x.2 'p'), x.1.type⟩

def mixedContext : LoweringContext := ⟨.linux, "f", ∅, ∅, ∅⟩

def mixedCaller : Procedure := ⟨"f", true, [], ∅, [], ∅⟩

/-- A callee that has one of its parameters in memory. -/
def mixedCallee : Procedure :=
  ⟨"g", true, [], (∅ : Std.ExtTreeMap String PseudoInfo).insert "pp" ⟨.byte, true⟩, [], ∅⟩

/-- The value of a variable before the call. -/
def mixedValue (x : String) : Word :=
  BitVec.ofNat 64 (x.toList.foldl (fun n c => n + c.toNat) 0x1122334455667700)

/-- The constant 2.5 is in memory. -/
def mixedStorage : Storage where
  cells
    | .pseudo x => mixedValue x
    | .reg .rsp => 512
    | .reg _ => 0
  determined := fun _ => 64
  bytes := storeBytes (fun _ => 0#8) 0x2000 8 0x4004000000000000
  settled := fun _ => false
  flags := .ofBitwise 0#8
  trace := []

def mixedConst : Value → Const
  | .const c => c
  | .var v => .ofWord v.type (mixedValue v.name)

theorem evaluates_mixed (v : Value) :
    mixedCaller.Evaluates mixedContext callingSetting mixedStorage v (mixedConst v) := by
  cases v with
  | const c => rfl
  | var v =>
    have hoperand : mixedContext.variableOperandOf v = .pseudo v.name := by
      simp [LoweringContext.variableOperandOf, mixedContext]
    have haliased : mixedCaller.isAliased v.name = false := by
      simp [isAliased, mixedCaller]
    have hmay : mixedStorage.mayRead (callingSetting.checks false) (.ofType v.type)
        (.pseudo v.name) = true := by
      simp only [mayRead, mixedStorage, bits_ofType, decide_eq_true_eq]
      exact v.type.width_le
    refine ⟨rfl, ?_⟩
    rw [hoperand, read?, place?, haliased]
    simp only [Bool.false_eq_true, if_false, Option.bind_some, fetch?, hmay, if_true, bits_ofType]
    rfl

theorem room_mixed : callingSetting.Room 0 64 := by
  refine ⟨fun i hi => ?_, by decide⟩
  have hregion : (byteAt 0 i).toNat < 0x1000 := by
    rw [byteAt, BitVec.toNat_add, BitVec.toNat_ofNat, show (0 : Word).toNat = 0 from rfl]
    omega
  exact if_pos hregion

theorem separates_mixed : mixedCallee.Separates mixedContext
    { callingSetting with homes := fun _ => 0x3000 } mixedParameters 0 58 64 := by
  have hplace {v : Variable} {a : Word} (h : mixedCallee.variablePlace mixedContext
      { callingSetting with homes := fun _ => 0x3000 } v = .address a) :
      v.name = "pp" ∧ a = 0x3000 := by
    have hstatic : v.name ∉ mixedContext.statics := by simp [mixedContext]
    rw [variablePlace, if_neg hstatic] at h
    split at h
    · rename_i haliased
      cases h
      simp only [isAliased, mixedCallee, Std.ExtTreeMap.getElem?_insert] at haliased
      split at haliased
      · rename_i heq
        exact ⟨(Std.LawfulEqOrd.eq_of_compare heq).symm, rfl⟩
      · simp at haliased
    · cases h
  refine ⟨?_, ?_⟩
  · intro v _ u _ hne a b ha hb
    exact absurd ((hplace ha).1.trans (hplace hb).1.symm) hne
  · intro v _ a ha i hi j _ hj heq
    obtain ⟨-, rfl⟩ := hplace ha
    have hsize := v.type.size_le
    have hnat := congrArg BitVec.toNat heq
    simp only [byteAt, BitVec.toNat_add, BitVec.toNat_ofNat, show (0 : Word).toNat = 0 from rfl,
      show (0x3000 : Word).toNat = 0x3000 from rfl] at hnat
    omega

/-- All values arrive, those on the stack as well. -/
theorem mixedParameters_receive :
    ∃ code st₁ start st₁', (mixedContext.call none "g" mixedArguments).run
        (.initial ⟨"f", true, [], none, []⟩ (.empty .linux)) = .ok (code, st₁) ∧
      (mixedContext.params mixedParameters).run
        (.initial ⟨"g", true, [], none, []⟩ (.empty .linux)) = .ok (start, st₁') ∧
      ∃ m', enterCallee mixedCaller mixedCallee callingSetting (fun _ => 0x3000) code
          (.ofSlots 24 [.rbx]) start 0x400000 mixedStorage = .next m' ∧
        List.Forall₂ (fun v c => mixedCallee.read? { callingSetting with homes := fun _ => 0x3000 }
          .none m' (mixedContext.variableOperandOf v) (.ofType v.type) = some c.raw)
          mixedParameters (mixedArguments.map mixedConst) := by
  obtain ⟨code, st₁, start, st₁', hcode, hstart, h⟩ := parameters_receive_arguments
    mixedCaller mixedCallee mixedContext mixedContext
    (.initial ⟨"f", true, [], none, []⟩ (.empty .linux))
    (.initial ⟨"g", true, [], none, []⟩ (.empty .linux)) none "g" (.ofSlots 24 [.rbx]) 0x400000
    (by decide +kernel : mixedArguments.map Value.type = mixedParameters.map Variable.type)
    (by decide +kernel)
    (forall₂_map_right_iff.mpr (forall₂_same.mpr fun v _ => evaluates_mixed v))
    room_mixed rfl (by decide) (by decide +kernel) separates_mixed
  refine ⟨code, st₁, start, st₁', hcode, hstart, h ?_⟩
  -- Lowering the call adds the only constant to the pool.
  have hpool : ((mixedContext.call none "g" mixedArguments).run
      (.initial ⟨"f", true, [], none, []⟩ (.empty .linux))).toOption.map (·.2.constants.entries) =
        some [⟨".Ldbl.0", ⟨0x4004000000000000#64⟩, 8⟩] := by decide +kernel
  rw [hcode] at hpool
  have hentries : st₁.constants.entries = [⟨".Ldbl.0", ⟨0x4004000000000000#64⟩, 8⟩] :=
    Option.some.inj hpool
  rw [hentries]
  intro entry hentry
  rw [mem_singleton.mp hentry]
  decide +kernel

end ThreeAddress.Amd64
