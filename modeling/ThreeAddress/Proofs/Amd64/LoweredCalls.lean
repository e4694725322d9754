import ThreeAddress.Proofs.Amd64.PassedArguments

/-!
# Lowered calls and returns

The code of a call makes room on the stack, passes the arguments, calls, and brings the stack
pointer back.  The callee takes the same arguments as in three-address code, and sees the same
memory.  With this, the code of every instruction without doubles does what the instruction does.
-/

namespace ThreeAddress.Amd64

open List Machine Option

variable {callee : String}

/-- A procedure knows of all registers in which lowered code passes arguments. -/
def Procedure.Notes (p : Procedure) (st : LoweringState) : Prop :=
  ∀ symbol r, r ∈ st.callArguments.getD symbol [] → r ∈ p.passedIn symbol

section

variable {ctx : LoweringContext} {e : Setting} {L : Layout ctx e} {p : Procedure} {A : Sketch}
  {s : SourceState} {m : Storage} {bottom : Word} {slots n j : Nat} {c : Const}
  {top : Option Const} {st : LoweringState}

/-! ### The stack pointer -/

theorem slot_add (bottom : Word) (n j : Nat) :
    slot bottom n + BitVec.ofInt 64 (8 * j : Nat) = slot bottom (n + j) := by
  rw [slot, slot, Nat.mul_add, ← byteAt_byteAt]
  rfl

theorem Sketch.Agrees.adjust (hA : A.Agrees L (some (stackPointer bottom n)) s) {op : Opcode}
    (hop : op ∈ [.add, .sub]) {k n' : Nat} (hk : k = 8 * j) (hzero : j = 0 → n = n')
    (hvalue : op.onBits 64 (slot bottom n) (BitVec.ofInt 64 (8 * j : Nat)) = slot bottom n') :
    ∃ B, p.Runs e (if k = 0 then [] else [⟨op, .quad, [.reg .rsp, .imm k]⟩]) A B ∧
      B.Agrees L (some (stackPointer bottom n')) s ∧
      ∀ r ≠ .rsp, B.cells (.reg r) = A.cells (.reg r) := by
  subst hk
  by_cases hj : j = 0
  · obtain rfl := hzero hj
    rw [if_pos (by omega)]
    exact ⟨A, .nil, hA, fun _ _ => rfl⟩
  · rw [if_neg (by omega)]
    have hi : (⟨op, .quad, [.reg .rsp, .imm (8 * j)]⟩ : Instr).computation? e.hardware =
        some (.combine (.reg .rsp) .quad (.imm (8 * j)) .quad
          (e.hardware.combine op .quad)) := by
      fin_cases hop <;> rfl
    have hrun := Procedure.Runs.arithmetic (p := p) op (a := stackPointer bottom n)
      (b := .ofWord .pointer (.ofInt 64 (8 * j : Nat))) hi (nofun) rfl
      (Sketch.read?_reg hA.stack) rfl rfl trivial
    have hresult : op.onConsts (stackPointer bottom n)
        (.ofWord .pointer (.ofInt 64 (8 * j : Nat))) = stackPointer bottom n' := by
      refine congrArg (Const.mk .pointer) ?_
      show op.onBits 64 (slot bottom n)
        (((BitVec.ofInt 64 (8 * j : Nat)).setWidth 64).setWidth 64) = _
      rw [BitVec.setWidth_eq, BitVec.setWidth_eq, hvalue]
    rw [hresult] at hrun
    refine ⟨_, hrun, hA.set_stack.withFlags none, ?_⟩
    intro r hr
    exact cells_set_of_ne (by simpa using hr)

/-! ### The callee -/

def Sketch.afterCall (A : Sketch) (trace : List Call) (r : Return) : Sketch where
  cells
    | .reg q => if q ∈ Register.callerSaved then some ⟨.ulong, r.registers q⟩ else A.cells (.reg q)
    | .pseudo x => A.cells (.pseudo x)
  bytes := r.bytes
  flags := none
  trace := trace

theorem Sketch.Describes.afterCall (hm : A.Describes e m) (trace : List Call) (r : Return) :
    (A.afterCall trace r).Describes e (Procedure.afterCall e m trace r) := by
  have hcell (l : Location Register) (c : Const) (hl : (A.afterCall trace r).cells l = some c) :
      c.type.width ≤ (Procedure.afterCall e m trace r).determined l ∧
        low c.type.width ((Procedure.afterCall e m trace r).cells l) = c.raw := by
    cases l with
    | reg q =>
      simp only [Sketch.afterCall, Procedure.afterCall] at hl ⊢
      by_cases hq : q ∈ Register.callerSaved
      · simp only [if_pos hq] at hl ⊢
        cases hl
        exact ⟨ScalarType.width_le _, rfl⟩
      · simp only [if_neg hq] at hl ⊢
        exact ⟨hm.determined _ c hl, hm.cells _ c hl⟩
    | pseudo x => exact ⟨hm.determined _ c hl, hm.cells _ c hl⟩
  refine ⟨fun l c hl => (hcell l c hl).1, fun l c hl => (hcell l c hl).2, fun a ha => ?_,
    (by rintro _ ⟨⟩), rfl⟩
  simp [Procedure.afterCall, Sketch.afterCall, ha]

theorem Sketch.Agrees.afterCall (hA : A.Agrees L top s) (trace : List Call) (r : Return) :
    (A.afterCall trace r).Agrees L top { s with bytes := r.bytes, trace := trace } :=
  ⟨hA.locals, hA.typed, rfl, rfl, hA.stack⟩

theorem Layout.Matches.trace_eq (h : L.Matches top s m) : m.trace = s.trace := by
  obtain ⟨A, hm, hA⟩ := h
  exact hm.trace.trans hA.trace

theorem Layout.Matches.sharedBytes_eq (h : L.Matches top s m) :
    e.sharedBytes m.bytes = e.sharedBytes s.bytes := by
  obtain ⟨A, hm, hA⟩ := h
  exact e.sharedBytes_congr fun a ha => by rw [hm.bytes a ha, hA.bytes]

theorem Layout.Prepared.execute_call {args : List Const} {loaded : List (Const × Register)}
    {symbol : String} {arguments : List Word} {trace : List Call} {places : List ArgumentPlace}
    (h : L.Prepared bottom slots s n (onStack args places) loaded m) (hroom : e.Room bottom slots)
    (hplaces : places = ArgumentPlace.ofTypes (args.map Const.type))
    (hloaded : inRegisters args places ⊆ loaded)
    (hpassed : ∀ d ∈ loaded, d.2 ∈ p.passedIn symbol)
    (htaken : (e.takes s.trace symbol).mapM (SourceState.argument? args) = some arguments)
    (htrace : trace = s.trace ++ [⟨symbol, arguments, e.sharedBytes s.bytes⟩]) :
    p.execute e (e.checks true) m ⟨.call, .quad, [.callee symbol]⟩ =
      match e.respond trace with
      | none => .stop { m with trace := trace } .lost
      | some r => .next (Procedure.afterCall e m trace r) := by
  have htaken' :=
    mapM_eq_some_of_imp (fun _ _ => h.argument?_eq_some hroom hplaces hloaded hpassed) htaken
  cases hrespond : e.respond trace with
  | none =>
    simp [Procedure.execute, Procedure.call, h.state.trace_eq, h.state.sharedBytes_eq, htaken',
      ← htrace, hrespond]
  | some r =>
    simp [Procedure.execute, Procedure.call, h.state.trace_eq, h.state.sharedBytes_eq, htaken',
      ← htrace, hrespond]

/-! ### The code of a call -/

def callPlaces (args : List Value) : List ArgumentPlace :=
  ArgumentPlace.ofTypes (args.map Value.type)

variable {args : List Value} {cs : List Const} {pushes : List (List Instr)} {moves : List Instr}
  {dst : Option Variable}

theorem callPlaces_eq (h : List.Forall₂ (fun v c => s.eval? ctx e v = some c) args cs) :
    callPlaces args = ArgumentPlace.ofTypes (cs.map Const.type) := by
  refine congrArg ArgumentPlace.ofTypes ?_
  induction h with
  | nil => rfl
  | cons hc _ ih => rw [map_cons, map_cons, ih, SourceState.eval?_type hc]

/-- The number of words on the stack during a call. -/
def callSlots (args : List Value) : Nat :=
  (onStack args (callPlaces args)).length + (onStack args (callPlaces args)).length % 2

/-- The code that passes arguments, given the code that pushes some and that moves the others. -/
def passCode (args : List Value) (pushes : List (List Instr)) (moves : List Instr) : List Instr :=
  gapCode (onStack args (callPlaces args)).length ++ pushes.flatten ++ moves

/-- The code passes arguments, given the operands of values. -/
structure PassedBy (denotes : Value → Operand → Prop) (args : List Value)
    (pushes : List (List Instr)) (moves : List Instr) : Prop where
  pushes : List.Forall₂ (PushedBy denotes) (onStack args (callPlaces args)).reverse pushes
  moves : List.Forall₂ (MovedBy denotes) (inRegisters args (callPlaces args)) moves

/-- The code of a call passes arguments, calls, brings the stack pointer back and assigns the
result, given what lowering knows of the operands of values. -/
theorem LoweringContext.gives_call_of {R : List Value → LoweringState → LoweringState → Prop}
    {D : LoweringState → Value → Operand → Prop} {N : List Register → LoweringState → Prop}
    (hnil : ∀ st, R [] st st)
    (htrans : ∀ {xs ys st st₁ st₂}, R xs st st₁ → R ys st₁ st₂ → R (xs ++ ys) st st₂)
    (hkept : ∀ {xs v o st st'}, R xs st st' → D st v o → D st' v o)
    (hvalue : ∀ v ∈ args ++ dst.toList.map .var, ∀ st,
      Lower.Gives (ctx.operand v) st fun o st' => R [v] st st' ∧ D st' v o)
    (hnote : ∀ rs st, Lower.Gives (Lower.noteArguments (ctx.calleeSymbol callee) rs) st
      fun _ st' => R [] st st' ∧ N rs st') :
    Lower.Gives (ctx.call dst callee args) st fun code st' => ∃ pushes moves result st₁,
      code = passCode args pushes moves ++ [⟨.call, .quad, [.callee (ctx.calleeSymbol callee)]⟩] ++
        (releaseCode (onStack args (callPlaces args)).length ++ result) ∧
      PassedBy (D st') args pushes moves ∧ R ((onStack args (callPlaces args)).reverse ++
        (inRegisters args (callPlaces args)).map Prod.fst) st st₁ ∧
      N ((inRegisters args (callPlaces args)).map Prod.snd) st₁ ∧ R (dst.toList.map .var) st₁ st' ∧
      List.Forall₂ (fun v i => ∃ o, D st' (.var v) o ∧
        i = ⟨.mov, .ofType v.type, [o, .reg (resultRegister v.type)]⟩) dst.toList result := by
  have hpushed {v : Value} {code : List Instr} {xs : List Value} {st st' : LoweringState}
      (hst : R xs st st') : PushedBy (D st) v code → PushedBy (D st') v code :=
    fun ⟨o, ho, hcode⟩ => ⟨o, hkept hst ho, hcode⟩
  have hmoved {x : Value × Register} {i : Instr} {xs : List Value} {st st' : LoweringState}
      (hst : R xs st st') : MovedBy (D st) x i → MovedBy (D st') x i :=
    fun ⟨o, ho, hi⟩ => ⟨o, hkept hst ho, hi⟩
  refine (Lower.Gives.mapM (P := fun v code st => PushedBy (D st) v code) hnil htrans hpushed
    fun v hv st => (hvalue v (mem_append_left _
      (mem_of_mem_onStack (mem_reverse.mp hv))) st).bind fun o _ ⟨h₁, ho⟩ => by
        rw [← apply_ite pure]
        exact .pure ⟨h₁, o, ho, rfl⟩).bind ?_
  intro pushes st₁ ⟨h₁, hpushes⟩
  refine (Lower.Gives.mapM (R := fun xs => R (xs.map Prod.fst))
    (P := fun x i st => MovedBy (D st) x i) hnil htrans hmoved fun x hx st =>
      (hvalue x.1 (mem_append_left _ (of_mem_zip (mem_zip_of_mem_inRegisters hx)).1) st).bind
        fun o _ h => .pure ⟨h.1, o, h.2, rfl⟩).bind ?_
  intro moves st₂ ⟨h₂, hmoves⟩
  refine (hnote _ st₂).bind ?_
  intro _ st₃ ⟨h₃, hnoted⟩
  have hst := htrans (htrans h₁ h₂) h₃
  rw [append_nil] at hst
  -- What remains is the code that receives the result.
  have hpassed {xs : List Value} {st₄ : LoweringState} (h₄ : R xs st₃ st₄) :
      PassedBy (D st₄) args pushes moves :=
    ⟨hpushes.imp fun _ _ h => hpushed h₄ (hpushed h₃ (hpushed h₂ h)),
      hmoves.imp fun _ _ h => hmoved h₄ (hmoved h₃ h)⟩
  cases dst with
  | none =>
    exact .pure ⟨pushes, moves, [], st₃, append_assoc .., hpassed (hnil st₃), hst, hnoted,
      hnil st₃, .nil⟩
  | some v =>
    exact (hvalue (.var v) (by simp) st₃).bind fun o st₄ ⟨h₄, ho⟩ => .pure ⟨pushes, moves, _, st₃,
      append_assoc .., hpassed h₄, hst, hnoted, h₄, .cons ⟨o, ho, rfl⟩ .nil⟩

theorem Layout.Matches.prepare (h : L.Matches (some (stackPointer bottom slots)) s m)
    (hp : p.Hosts L) (hroom : e.Room bottom slots) (hslots : args.length < slots)
    (hargs : ∀ v ∈ args, L.HasValue v)
    (hpassed : PassedBy (fun v o => o = ctx.operandOf v) args pushes moves)
    (hcs : List.Forall₂ (fun v c => s.eval? ctx e v = some c) args cs) :
    ∃ n m', n + callSlots args = slots ∧
      (p.machine e (e.checks true)).block m (passCode args pushes moves) = .next m' ∧
      L.Prepared bottom slots s n (onStack cs (callPlaces args))
        (inRegisters cs (callPlaces args)).reverse m' := by
  obtain ⟨k, hk⟩ : ∃ k, k = (onStack args (callPlaces args)).length := ⟨_, rfl⟩
  have hlength : k ≤ args.length := hk ▸ length_onStack_le
  obtain ⟨n, hn⟩ : ∃ n, n + (k + k % 2) = slots := ⟨slots - (k + k % 2), by omega⟩
  obtain ⟨A, hm, hA⟩ := h
  rw [← hn, ← Nat.add_assoc] at hA
  have hgap : slot bottom (n + k + k % 2) - .ofInt 64 (8 * (k % 2) : Nat) =
      slot bottom (n + k) := by
    rw [← slot_add, BitVec.add_sub_cancel]
  obtain ⟨B, hpad, hB, -⟩ := hA.adjust (show .sub ∈ _ by decide) (padding_eq k)
    (fun h => by rw [h, Nat.add_zero]) hgap
  obtain ⟨m₁, hblock₁, hm₁⟩ := hpad m hm
  have hcs :=
    (forall₂_and_left _ _).mpr ⟨hargs, hcs⟩
  have hstate : L.Matches (some (stackPointer bottom (n + k))) s m₁ := ⟨B, hm₁, hB⟩
  rw [hk] at hstate
  obtain ⟨m₂, hblock₂, hm₂⟩ := Passed.pass (passing hp hroom) hpassed.pushes hpassed.moves
    rfl hcs hstate (by omega)
  refine ⟨n, m₂, by rw [callSlots, ← hk, hn], ?_, hm₂⟩
  rw [passCode, gapCode, ← hk, append_assoc, block_append_of_next hblock₁, hblock₂]

def LoweringContext.receiveCode (ctx : LoweringContext) : Option Variable → List Instr
  | none => []
  | some v => [⟨.mov, .ofType v.type, [ctx.variableOperandOf v, .reg (resultRegister v.type)]⟩]

theorem Sketch.Agrees.receive {r : Return} (hA : A.Agrees L top s) (hp : p.Hosts L)
    (hdst : ∀ v ∈ dst, L.Has v)
    (hregisters : ∀ v ∈ dst, A.cells (.reg (resultRegister v.type)) =
      some ⟨.ulong, r.registers (resultRegister v.type)⟩) :
    ∃ B, p.Runs e (ctx.receiveCode dst) A B ∧ B.Agrees L top (s.receive ctx e dst r) := by
  cases dst with
  | none => exact ⟨A, .nil, hA⟩
  | some v =>
    have hread := Sketch.read?_reg_of_le (p := p) (e := e) (hregisters v rfl) v.type.width_le
    obtain ⟨hmove, hB⟩ := hA.move hp (hdst v rfl) hread
    refine ⟨_, hmove, ?_⟩
    have hraw : (⟨.ulong, r.registers (resultRegister v.type)⟩ : Const).raw =
        r.registers (resultRegister v.type) := BitVec.setWidth_eq _
    rwa [hraw] at hB

theorem Layout.Matches.finish {r : Return} {trace : List Call}
    (h : L.Matches (some (stackPointer bottom n)) s m) (hp : p.Hosts L)
    (hdst : ∀ v ∈ dst, L.Has v) :
    ∃ m', (p.machine e (e.checks true)).block (Procedure.afterCall e m trace r)
        (releaseCode (onStack args (callPlaces args)).length ++ ctx.receiveCode dst) = .next m' ∧
      L.Matches (some (stackPointer bottom (n + callSlots args)))
        (SourceState.receive ctx e { s with bytes := r.bytes, trace := trace } dst r) m' := by
  obtain ⟨A, hm, hA⟩ := h
  have hpushed : 8 * (onStack args (callPlaces args)).length +
      padding (onStack args (callPlaces args)).length = 8 * callSlots args := by
    rw [padding_eq, callSlots, Nat.mul_add]
  obtain ⟨B, hrelease, hB, hcells⟩ := (hA.afterCall trace r).adjust
    (show .add ∈ _ by decide) hpushed (fun h => by rw [h, Nat.add_zero])
    (slot_add bottom n (callSlots args))
  have hregisters : ∀ v ∈ dst, B.cells (.reg (resultRegister v.type)) =
      some ⟨.ulong, r.registers (resultRegister v.type)⟩ := by
    intro v _
    have hnamed := (resultRegister_spec v.type).1
    rw [hcells _ fun heq => absurd (heq ▸ hnamed) (by decide)]
    exact if_pos (mem_callerSaved_of_mem_namedRegisters hnamed)
  obtain ⟨C, hreceive, hC⟩ := hB.receive hp hdst hregisters
  obtain ⟨m', hblock, hm'⟩ := (hrelease.append hreceive) _ (hm.afterCall trace r)
  exact ⟨m', hblock, C, hm', hC⟩

theorem LoweringContext.simulates_call (hp : p.Hosts L) (hroom : e.Room bottom slots)
    (hslots : args.length < slots) (hargs : ∀ v ∈ args, L.HasValue v) (hdst : ∀ v ∈ dst, L.Has v)
    (hpassed : PassedBy (fun v o => o = ctx.operandOf v) args pushes moves)
    (hnoted : ∀ x ∈ inRegisters args (callPlaces args),
      x.2 ∈ p.passedIn (ctx.calleeSymbol callee)) :
    p.Simulates L (some (stackPointer bottom slots))
      (passCode args pushes moves ++ [⟨.call, .quad, [.callee (ctx.calleeSymbol callee)]⟩] ++
        (releaseCode (onStack args (callPlaces args)).length ++ ctx.receiveCode dst))
      (.call dst callee args) := by
  intro s m hm
  rw [append_assoc, singleton_append]
  cases hcs : args.mapM (s.eval? ctx e) with
  | none =>
    simp only [SourceState.execute, hcs]
    trivial
  | some cs =>
    have hvalues := forall₂_of_mapM_eq_some hcs
    simp only [SourceState.execute, hcs, SourceState.call]
    cases htaken : (e.takes s.trace (ctx.calleeSymbol callee)).mapM (SourceState.argument? cs) with
    | none => trivial
    | some arguments =>
      simp only
      obtain ⟨n, m₁, rfl, hblock, hm₁⟩ := hm.prepare hp hroom hslots hargs hpassed hvalues
      have hloaded : ∀ d ∈ (inRegisters cs (callPlaces args)).reverse,
          d.2 ∈ p.passedIn (ctx.calleeSymbol callee) := by
        intro d hd
        obtain ⟨x, hx, -, hxd⟩ := exists_of_forall₂_of_mem (forall₂_inRegisters hvalues _)
          (mem_reverse.mp hd)
        exact hxd ▸ hnoted x hx
      have hcall := hm₁.execute_call hroom (callPlaces_eq hvalues)
        (fun d hd => mem_reverse.mpr hd) hloaded htaken rfl
      rw [block_append_of_next hblock]
      cases hrespond : e.respond (s.trace ++
          [⟨ctx.calleeSymbol callee, arguments, e.sharedBytes s.bytes⟩]) with
      | none =>
        rw [hrespond] at hcall
        have hstop : (p.machine e (e.checks true)).execute m₁
            ⟨.call, .quad, [.callee (ctx.calleeSymbol callee)]⟩ = .stop _ .lost := hcall
        rw [block, hstop]
        exact ⟨rfl, rfl⟩
      | some r =>
        rw [hrespond] at hcall
        have hnext := hcall
        obtain ⟨m₂, hfinish, hm₂⟩ := hm₁.state.finish hp hdst
        rw [block_cons_of_next hnext, hfinish]
        exact hm₂

theorem LoweringContext.gives_call (hL : L.Ordinary) (hargs : ∀ v ∈ args, L.HasValue v)
    (htypes : ∀ v ∈ args, v.type ≠ .double) (hdst : ∀ v ∈ dst, L.Has v) :
    ctx.Gives (args.flatMap (·.var?.toList) ++ dst.toList) (ctx.call dst callee args) st
      fun code st' => ∀ ⦃p : Procedure⦄, p.Hosts L → p.Notes st' → ∀ ⦃bottom slots⦄,
        e.Room bottom slots → args.length < slots →
        p.Simulates L (some (stackPointer bottom slots)) code (.call dst callee args) := by
  refine (gives_call_of (R := fun vs => ctx.Extends (vs.flatMap (·.var?.toList)))
    (D := fun _ v o => o = ctx.operandOf v) .refl
    (fun h h' => by simpa using h.trans h') (fun _ h => h) ?_ fun _ _ =>
      gives_noteArguments ctx ..).mono ?_
  · intro v hv st
    rw [flatMap_singleton]
    rcases mem_append.mp hv with hv | hv
    · exact gives_operand hL (hargs v hv) (htypes v hv)
    · obtain ⟨u, hu, rfl⟩ := mem_map.mp hv
      exact gives_variableOperand hL (hdst u (mem_toList.mp hu)).1
  · rintro code st' ⟨pushes, moves, result, st₁, rfl, hpassed, h₁, hnoted, h₂, hresult⟩
    have hreceive : result = ctx.receiveCode dst := by
      cases dst with
      | none => exact forall₂_nil_left_iff.mp hresult
      | some v =>
        obtain _ | ⟨⟨o, rfl, rfl⟩, _ | _⟩ := hresult
        rfl
    refine ⟨(h₁.trans h₂).subset (append_subset.mpr ⟨fun u hu => ?_, ?_⟩), ?_⟩
    · obtain ⟨v, hv, hu⟩ := mem_flatMap.mp hu
      have hlength : args.length ≤ (callPlaces args).length := by simp [callPlaces]
      refine mem_append_left _ (mem_flatMap.mpr ⟨v, mem_append.mpr ?_, hu⟩)
      exact (mem_onStack_or_mem_inRegisters hv hlength).imp mem_reverse.mpr
        fun ⟨r, hr⟩ => mem_map_of_mem hr
    · cases dst <;> simp [Value.var?]
    · intro p hp hnotes bottom slots hroom hslots
      exact hreceive ▸ simulates_call hp hroom hslots hargs hdst hpassed
        fun x hx => hnotes _ _ (h₂.arguments _ _ (hnoted _ (mem_map_of_mem hx)))

/-! ### Returns -/

variable {i : ThreeAddress.Instr} {returns : Option ScalarType} {arity? : String → Option Nat}

theorem Layout.Matches.leave {value : Option Const} (h : L.Matches top s m)
    (hvalue : ∀ c ∈ value, resultRegister c.type ∈ p.results ∧
      m.Has (.reg (resultRegister c.type)) c) :
    L.Follows top (s.leave e value) (p.leave e m) := by
  unfold SourceState.leave
  cases hvalues : (e.takesResults s.trace).mapM (SourceState.returned? value) with
  | none => trivial
  | some values =>
    have himp : ∀ x y, SourceState.returned? value x = some y → p.result? m x = some y := by
      rintro ⟨r, w⟩ y hy
      obtain ⟨c, hc, hy⟩ := bind_eq_some_iff.mp hy
      split at hy
      · rename_i hr
        obtain ⟨rfl, hw⟩ := hr
        cases hy
        obtain ⟨hmem, hhas⟩ := hvalue c hc
        rw [Procedure.result?, if_pos ⟨hmem, Nat.le_trans hw hhas.determined⟩,
          low_eq_of_le hw (hhas.low_eq.trans c.low_raw.symm)]
      · cases hy
    have hvalues' := mapM_eq_some_of_imp himp hvalues
    simp only [Procedure.leave, h.trace_eq, hvalues']
    exact ⟨by rw [h.sharedBytes_eq], h.trace_eq⟩

namespace LoweringContext

theorem simulates_ret_none : p.Simulates L top [.bare .ret []] (.ret none) := by
  intro s m h
  rw [block_singleton]
  exact h.leave fun c hc => nomatch hc

theorem gives_ret {value : Option Value} (hL : L.Ordinary) (hvalues : ∀ v ∈ value, L.HasValue v)
    (htypes : ∀ v ∈ value, v.type ≠ .double) (hreturns : value.map Value.type = returns) :
    ctx.Gives (value.toList.flatMap (·.var?.toList)) (ctx.ret value) st fun code _ =>
      ∀ ⦃p : Procedure⦄, p.Hosts L → p.results = resultRegisters returns →
        ∀ top, p.Simulates L top code (.ret value) := by
  cases value with
  | none => exact .pure fun p _ _ top => simulates_ret_none
  | some v =>
    refine .subset (.withOperand hL (hvalues v rfl) (htypes v rfl) fun _ => .pure ?_) (by simp)
    intro p hp hresults top s m hm
    simp only [SourceState.execute, SourceState.withValue]
    cases hc : s.eval? ctx e v with
    | none => trivial
    | some c =>
      have hne : resultRegister v.type ≠ .rsp := by
        cases v.type <;> decide
      have hread := hm.read?_operand hp (hvalues v rfl) hc
      rw [← SourceState.eval?_type hc] at hread hne ⊢
      rw [block_cons_of_next (Procedure.execute_mov_reg hread), block_singleton]
      refine (hm.load hne).leave ?_
      rintro _ ⟨⟩
      refine ⟨?_, Storage.has_load⟩
      rw [hresults, ← hreturns, SourceState.eval?_type hc]
      simp [resultRegisters]

/-! ### Instructions -/

theorem gives_storing {ptr src : Value} (hL : L.Ordinary) (hptr : L.HasValue ptr)
    (hsrc : L.HasValue src) (htype : ptr.type = .pointer) (hs : src.type ≠ .double) :
    ctx.Gives (ptr.var?.toList ++ src.var?.toList) (ctx.instr (.store ptr src)) st fun code _ =>
      ∀ ⦃p : Procedure⦄, p.Hosts L → ∀ top, p.Simulates L top code (.store ptr src) := by
  refine (gives_store hL hptr hsrc htype hs).imp (Subset.refl _) ?_
  rintro code - hstore p hp top s m ⟨A, hm, hA⟩
  simp only [SourceState.execute, SourceState.withValue]
  cases ha : s.eval? ctx e ptr with
  | none => trivial
  | some a =>
    cases hc : s.eval? ctx e src with
    | none => trivial
    | some c =>
      show L.Follows top (s.goOn (s.write? e a c)) _
      cases hwrite : s.write? e a c with
      | none => trivial
      | some s' =>
        obtain ⟨B, hrun, hB⟩ := hstore hp hA ha hc hwrite
        obtain ⟨m', hblock, hm'⟩ := hrun m hm
        rw [hblock]
        exact ⟨B, hm', hB⟩

/-- The number of words that an instruction needs on the stack, at most. -/
def stackUse : ThreeAddress.Instr → Nat
  | .call _ _ args => args.length + 1
  | _ => 0

/-- The code of every instruction without doubles does what the instruction does. -/
theorem gives_instr (hL : L.Ordinary) (hvars : ∀ v ∈ i.variables, L.Has v)
    (hdouble : i.usesDouble = false) (htype : i.typeDefect? returns arity? = none) :
    ctx.Gives i.variables (ctx.instr i) st fun code st' =>
      ∀ ⦃p : Procedure⦄, p.Hosts L → p.Notes st' → p.results = resultRegisters returns →
        ∀ ⦃bottom slots⦄, e.Room bottom slots → stackUse i ≤ slots →
          p.Simulates L (some (stackPointer bottom slots)) code i := by
  have hvalues := Layout.hasValue_of_variables hvars
  have hreads := ne_double_of_mem_reads hdouble
  cases i with
  | unary | binary | copy | addressOf | load | convert =>
    exact (gives_assignment hL hvars hdouble htype rfl rfl).imp (Subset.refl _)
      fun _ _ hassigns p hp _ _ bottom slots _ _ => hassigns.simulates hp rfl rfl
  | jump | jumpIfZero | jumpIfNotZero =>
    exact (gives_jump hL hvars hdouble rfl).imp (Subset.refl _)
      fun _ _ hsimulates p hp _ _ bottom slots _ _ => hsimulates hp _
  | label l => exact .pure fun p _ _ _ bottom slots _ _ s m hm => hm
  | ret value =>
    have hreturns : value.map Value.type = returns := by
      simp only [Instr.typeDefect?] at htype
      split at htype
      · assumption
      · cases htype
    exact (gives_ret hL (fun v hv => hvalues v (mem_toList.mpr hv))
      (fun v hv => hreads v (mem_toList.mpr hv)) hreturns).variables rfl
      (by simp [Instr.written?])
      (fun x hx v hv => mem_flatMap.mpr ⟨x, hx, mem_toList.mpr hv⟩)
      fun _ _ hsimulates p hp _ hresults bottom slots _ _ => hsimulates hp hresults _
  | store ptr src =>
    exact (gives_storing hL (hvalues ptr (.head _)) (hvalues src (.tail _ (.head _)))
      (eq_of_mismatch? htype) (hreads src (.tail _ (.head _)))).variables rfl
      (by simp [Instr.written?]) (by simp +contextual [ThreeAddress.Instr.reads])
      fun _ _ hsimulates p hp _ _ bottom slots _ _ => hsimulates hp _
  | call dst callee args =>
    exact (gives_call hL hvalues hreads fun v hv => Layout.has_of_written? hvars hv).variables rfl
      (fun v hv => mem_append_right _ (mem_toList.mpr hv))
      (fun x hx v hv => mem_append_left _
        (mem_flatMap.mpr ⟨x, hx, mem_toList.mpr hv⟩))
      fun _ _ hsimulates p hp hnotes _ bottom slots hroom hslots =>
        hsimulates hp hnotes hroom hslots

end LoweringContext

end

end ThreeAddress.Amd64
