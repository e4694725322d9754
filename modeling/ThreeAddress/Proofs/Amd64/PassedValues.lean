import ThreeAddress.Proofs.Amd64.LoweredFunctions

/-!
# Values that are passed

The values of a call may have any type.  Doubles that are constants are in the constant pool, which
grows while the call is lowered.  Passing arguments changes the stack and registers, and no argument
is read from there, so that all of them are passed with the values that they had before.
-/

namespace ThreeAddress.Amd64

open Storage List

/-! ### Operands of values -/

/-- The operand of a value, where doubles are in a pool. -/
def LoweringContext.Denotes (ctx : LoweringContext) (pool : List PoolEntry) (v : Value)
    (o : Operand) : Prop :=
  match v with
  | .var x => o = ctx.variableOperandOf x
  | .const c =>
    match c.toBinary64? with
    | some x => ∃ entry ∈ pool, entry.value = x ∧ o = .data entry.name
    | none => o = immediate c

theorem ConstantPool.intern_spec (pool : ConstantPool) (x : Binary64) (alignment : Nat) :
    pool.entries ⊆ (pool.intern x alignment).2.entries ∧
      ∃ entry ∈ (pool.intern x alignment).2.entries,
        entry.value = x ∧ entry.name = (pool.intern x alignment).1 := by
  unfold intern
  split
  · rename_i entry hfind
    have hvalue := find?_some hfind
    simp only [Bool.and_eq_true, beq_iff_eq] at hvalue
    exact ⟨fun _ h => h, entry, mem_of_find?_eq_some hfind, hvalue.1, rfl⟩
  · exact ⟨subset_append_left _ _, _, mem_append_right _ (mem_singleton_self _), rfl,
      rfl⟩

/-- The pool only grows. -/
def LoweringState.Pools (st st' : LoweringState) : Prop :=
  st.constants.entries ⊆ st'.constants.entries

namespace LoweringContext

variable {ctx : LoweringContext} {st : LoweringState} {pool pool' : List PoolEntry} {v : Value}
  {o : Operand}

theorem Denotes.mono (h : ctx.Denotes pool v o) (hsub : pool ⊆ pool') : ctx.Denotes pool' v o := by
  unfold Denotes at h ⊢
  cases v with
  | var x => exact h
  | const c =>
    simp only at h ⊢
    cases hx : c.toBinary64? with
    | none => rwa [hx] at h
    | some x =>
      rw [hx] at h
      obtain ⟨entry, hentry, hvalue⟩ := h
      exact ⟨entry, hsub hentry, hvalue⟩

theorem Denotes.isValue (h : ctx.Denotes pool v o) : o.isValue = true := by
  unfold Denotes at h
  cases v with
  | var x =>
    rw [h]
    exact ctx.isValue_variableOperandOf x
  | const c =>
    simp only at h
    split at h
    · obtain ⟨entry, -, -, rfl⟩ := h
      rfl
    · rw [h]
      rfl

theorem gives_variable (x : Variable) : Lower.Gives (ctx.variableOperand x) st fun o st' =>
      st.Pools st' ∧ o = ctx.variableOperandOf x := by
  unfold variableOperand variableOperandOf
  split
  · exact .pure ⟨fun _ h => h, rfl⟩
  · exact ⟨_, _, rfl, fun _ h => h, rfl⟩

theorem gives_denoted (v : Value) : Lower.Gives (ctx.operand v) st fun o st' =>
      st.Pools st' ∧ ctx.Denotes st'.constants.entries v o := by
  cases v with
  | var x => exact gives_variable x
  | const c =>
    show Lower.Gives (match c.toBinary64? with
      | some x => .doubleConstant x 8
      | none => pure (immediate c)) st _
    unfold Denotes
    cases hx : c.toBinary64? with
    | none => exact .pure ⟨fun _ h => h, by simp [hx]⟩
    | some x =>
      obtain ⟨hsub, entry, hentry, hvalue, hname⟩ := st.constants.intern_spec x 8
      refine ⟨_, _, rfl, hsub, ?_⟩
      simp only [hx]
      exact ⟨entry, hentry, hvalue, congrArg Operand.data hname.symm⟩

/-- The form of the code of a call: a gap, arguments on the stack, arguments in registers, the call
and more. -/
structure Passes (ctx : LoweringContext) (callee : String) (args : List Value) (code : List Instr)
    (st : LoweringState) (pushes : List (List Instr)) (moves rest : List Instr) : Prop where
  code_eq : code = passCode args pushes moves ++
    [⟨.call, .quad, [.callee (ctx.calleeSymbol callee)]⟩] ++ rest
  passed : PassedBy (ctx.Denotes st.constants.entries) args pushes moves

/-- The code of a call starts with code that passes its arguments, up to the call itself. -/
theorem gives_passes (dst : Option Variable) (callee : String) (args : List Value) :
    Lower.Gives (ctx.call dst callee args) st fun code st' =>
      ∃ pushes moves rest, ctx.Passes callee args code st' pushes moves rest := by
  refine (gives_call_of (R := fun _ => LoweringState.Pools) (N := fun _ _ => True) (fun _ _ h => h)
    (fun h h' => Subset.trans h h') (fun hst h => h.mono hst) (fun v _ _ => gives_denoted v)
    fun _ _ => ⟨_, _, rfl, fun _ h => h, trivial⟩).mono ?_
  rintro code st' ⟨pushes, moves, result, -, hcode, hpassed, -⟩
  exact ⟨pushes, moves, _, hcode, hpassed⟩

end LoweringContext

/-! ### Values in a state -/

/-- What the values of operands depend on is the same in two states. -/
structure Storage.Unaltered (e : Setting) (m m' : Storage) : Prop where
  cells : ∀ x, m'.cells (.pseudo x) = m.cells (.pseudo x)
  determined : ∀ x, m'.determined (.pseudo x) = m.determined (.pseudo x)
  bytes : ∀ a, e.region a = .shared → m'.bytes a = m.bytes a

/-- The constant that a value stands for in a state. -/
def Procedure.Evaluates (p : Procedure) (ctx : LoweringContext) (e : Setting) (m : Storage) :
    Value → Const → Prop
  | .const d, c => c = d
  | .var v, c => c.type = v.type ∧
    p.read? e (e.checks false) m (ctx.variableOperandOf v) (.ofType v.type) = some c.raw

/-- The constants of a pool are in memory. -/
def Procedure.HasPool (p : Procedure) (e : Setting) (m : Storage) (pool : List PoolEntry) : Prop :=
  ∀ entry ∈ pool, p.read? e (e.checks false) m (.data entry.name) .double = some entry.value.bits

section

variable {p : Procedure} {ctx : LoweringContext} {e : Setting} {m m' m'' : Storage}
  {o : Operand} {w : Width} {v : Value} {c : Const} {pool : List PoolEntry} {x : Word}

theorem Storage.Unaltered.trans (h : m.Unaltered e m') (h' : m'.Unaltered e m'') :
    m.Unaltered e m'' :=
  ⟨fun x => (h'.cells x).trans (h.cells x), fun x => (h'.determined x).trans (h.determined x),
    fun a ha => (h'.bytes a ha).trans (h.bytes a ha)⟩

theorem Storage.Unaltered.fetch?_address (h : m.Unaltered e m') (a : Word) :
    m'.fetch? (e.checks false) w (.address a) = m.fetch? (e.checks false) w (.address a) := by
  simp only [fetch?]
  split
  · rename_i hmay
    refine congrArg some (loadBytes_congr fun i hi => h.bytes _ ?_)
    simpa [Setting.checks] using all_eq_true.mp hmay i (mem_range.mpr hi)
  · rfl

theorem Storage.Unaltered.read?_eq (h : m.Unaltered e m') (ho : o.isValue = true) :
    p.read? e (e.checks false) m' o w = p.read? e (e.checks false) m o w := by
  cases o with
  | imm y => rfl
  | data y => exact h.fetch?_address _
  | pseudo y =>
    simp only [Procedure.read?, Procedure.place?, Option.bind_some]
    split
    · exact h.fetch?_address _
    · have hmay : m'.mayRead (e.checks false) w (.pseudo y) =
          m.mayRead (e.checks false) w (.pseudo y) := by simp only [mayRead, h.determined]
      simp only [fetch?, hmay, h.cells]
  | _ => cases ho

theorem Procedure.Evaluates.type_eq (h : p.Evaluates ctx e m v c) : c.type = v.type := by
  cases v with
  | const d => exact congrArg Const.type h
  | var x => exact h.1

theorem Procedure.Evaluates.read?_eq (h : p.Evaluates ctx e m v c) (ho : ctx.Denotes pool v o)
    (hpool : p.HasPool e m pool) :
    p.read? e (e.checks false) m o (.ofType v.type) = some c.raw := by
  cases v with
  | var x =>
    obtain rfl : o = ctx.variableOperandOf x := ho
    exact h.2
  | const d =>
    obtain rfl : c = d := h
    unfold LoweringContext.Denotes at ho
    simp only at ho
    cases hx : c.toBinary64? with
    | none =>
      rw [hx] at ho
      obtain rfl : o = immediate c := ho
      have hraw := congrArg Const.raw c.ofWord_ofInt_toInt
      rw [Const.raw_ofWord] at hraw
      show some (low (Width.ofType c.type).bits _) = some c.raw
      rw [Width.bits_ofType, hraw]
    | some y =>
      rw [hx] at ho
      obtain ⟨entry, hentry, hvalue, rfl⟩ := ho
      have hread := hpool entry hentry
      obtain ⟨t, bits⟩ := c
      cases t <;> cases hx
      rw [hvalue] at hread
      exact hread

end

/-! ### The stack pointer -/

/-- Only the stack pointer was moved. -/
structure Storage.Shifts (m : Storage) (a : Word) (m' : Storage) : Prop where
  rsp : m'.cells (.reg .rsp) = a
  cells : ∀ l ≠ .reg .rsp, m'.cells l = m.cells l
  determined : ∀ l ≠ .reg .rsp, m'.determined l = m.determined l
  bytes : m'.bytes = m.bytes
  settled : m'.settled = m.settled

section

variable {p : Procedure} {e : Setting} {k : Checks} {m m' : Storage} {o : Operand} {bottom x : Word}
  {n j slots : Nat} {r : Register} {w : Width}

theorem Storage.fetch?_reg (hk : k.strict = false) :
    m.fetch? k .quad (.cell (.reg r)) = some (m.cells (.reg r)) := by
  have hmay : m.mayRead k .quad (.reg r) = true := by simp [mayRead, hk]
  rw [fetch?, if_pos hmay]
  exact congrArg some (low_of_le (Nat.le_refl 64) _)

theorem Procedure.execute_sub_imm (hk : k.strict = false) (v : Int) :
    ∃ f, p.execute e k m ⟨.sub, .quad, [.reg r, .imm v]⟩ = .next { m with
      cells := Function.update m.cells (.reg r) (m.cells (.reg r) - BitVec.ofInt 64 v)
      determined := Function.update m.determined (.reg r) 64
      flags := f } := by
  have hread : p.read? e k m (.reg r) .quad = some (m.cells (.reg r)) := fetch?_reg hk
  have hreads : [(.reg r, .quad), (.imm v, .quad)].mapM
      (fun y => p.read? e k m y.1 y.2) = some [m.cells (.reg r), .ofInt 64 v] := by
    rw [mapM_cons, hread]
    rfl
  rw [execute_of_computation? rfl, Procedure.compute?_of_put? hreads rfl rfl rfl rfl]
  exact ⟨_, rfl⟩

theorem Procedure.exists_shifts (hk : k.strict = false)
    (hrsp : m.cells (.reg .rsp) = slot bottom (n + j)) {t : Nat} (ht : t = 8 * j) :
    ∃ m', (p.machine e k).block m
        (if t = 0 then [] else [⟨.sub, .quad, [.reg .rsp, .imm t]⟩]) = .next m' ∧
      m.Shifts (slot bottom n) m' := by
  subst ht
  split
  · obtain rfl : j = 0 := by omega
    exact ⟨m, rfl, hrsp, fun _ _ => rfl, fun _ _ => rfl, rfl, rfl⟩
  · have hsub : slot bottom (n + j) - .ofInt 64 (8 * j : Nat) = slot bottom n := by
      rw [← slot_add, BitVec.add_sub_cancel]
    obtain ⟨f, hf⟩ := execute_sub_imm hk (8 * j : Nat)
    rw [hrsp, hsub] at hf
    refine ⟨_, (Machine.block_singleton _).trans hf, ?_, ?_, ?_, rfl, rfl⟩
    · simp
    · intro l hl
      simp [Function.update_of_ne hl]
    · intro l hl
      simp [Function.update_of_ne hl]

section

variable (hk : k.strict = false) (hroom : e.Room bottom slots) (hn : n < slots)
  (hrsp : m.cells (.reg .rsp) = slot bottom (n + 1)) (hx : p.pushed? e k m o = some (x, j))

include hk hroom hn hrsp hx

theorem Procedure.push?_eq_pushed : p.push? e k m o = some (m.pushed (slot bottom n) x j) := by
  have hwithin : within e .stack (slot bottom (n + 1) - 8) 8 = true := by
    rw [slot_succ_sub]
    simp only [within, all_eq_true, mem_range, decide_eq_true_eq]
    exact fun i hi => hroom.within hn hi
  have hpush := push?_eq_some_iff.mpr ⟨_, _, hx, hrsp ▸ fetch?_reg hk, hwithin, rfl⟩
  rwa [slot_succ_sub] at hpush

theorem Procedure.execute_push :
    p.execute e k m ⟨.push, w, [o]⟩ = .next (m.pushed (slot bottom n) x j) := by
  show goOn m (p.push? e k m o) = _
  rw [push?_eq_pushed hk hroom hn hrsp hx]
  rfl

end

end

/-! ### Passing arguments -/

/-- The stack pointer is at a word of the stack, and all values are as before. -/
structure Storage.Descends (e : Setting) (bottom : Word) (m₀ : Storage) (n : Nat) (m : Storage) :
    Prop where
  rsp : m.cells (.reg .rsp) = slot bottom n
  unaltered : m₀.Unaltered e m

section

variable {ctx : LoweringContext} {p : Procedure} {e : Setting} {m₀ m : Storage} {bottom x : Word}
  {n j slots : Nat} {c : Const} {r : Register} {st : LoweringState} {callee : String}
  {args : List Value} {cs : List Const} {code : List Instr} {pushes : List (List Instr)}
  {moves rest : List Instr}

theorem Storage.Descends.pushed (h : m₀.Descends e bottom (n + 1) m) (hroom : e.Room bottom slots)
    (hn : n < slots) : m₀.Descends e bottom n (m.pushed (slot bottom n) x j) := by
  refine ⟨by simp [Storage.pushed], h.unaltered.trans ⟨fun y => ?_, fun y => ?_, fun a ha => ?_⟩⟩
  · simp [Storage.pushed]
  · simp [Storage.pushed]
  · refine storeBytes_of_not_mem ?_
    rintro i hi rfl
    rw [hroom.within hn hi] at ha
    cases ha

theorem Storage.Descends.load (h : m₀.Descends e bottom n m) (hr : r ≠ .rsp) :
    m₀.Descends e bottom n (m.load r c) := by
  refine ⟨?_, h.unaltered.trans ⟨fun y => ?_, fun y => ?_, fun a ha => rfl⟩⟩
  · have hne : Location.reg .rsp ≠ Location.reg r := by simpa using hr.symm
    simpa only [Storage.load, Function.update_of_ne hne] using h.rsp
  · simp [Storage.load]
  · simp [Storage.load]

theorem Procedure.HasPool.passing {pool : List PoolEntry} (hpool : p.HasPool e m₀ pool)
    (hroom : e.Room bottom slots) :
    p.Passing e (e.checks false) bottom slots (m₀.Descends e bottom) (ctx.Denotes pool)
      (p.Evaluates ctx e m₀) where
  small := hroom.small
  push h hn hx := ⟨execute_push rfl hroom hn h.rsp hx, h.pushed hroom hn⟩
  load h hr := h.load hr
  type_eq h := h.type_eq
  isValue h := h.isValue
  read?_eq ho hc h := by
    rw [h.unaltered.read?_eq ho.isValue]
    exact hc.read?_eq ho hpool

theorem LoweringContext.Passes.pass (h : ctx.Passes callee args code st pushes moves rest)
    (hroom : e.Room bottom slots) (hpool : p.HasPool e m st.constants.entries)
    (hslots : callSlots args ≤ slots) (hrsp : m.cells (.reg .rsp) = slot bottom slots)
    (hcs : List.Forall₂ (p.Evaluates ctx e m) args cs) :
    ∃ m', (p.machine e (e.checks false)).block m (passCode args pushes moves) = .next m' ∧
      Passed (m.Descends e bottom) bottom slots (slots - callSlots args)
        (onStack cs (callPlaces args)) (inRegisters cs (callPlaces args)).reverse m' := by
  obtain ⟨k, hk⟩ : ∃ k, k = (onStack args (callPlaces args)).length := ⟨_, rfl⟩
  obtain ⟨n, hn⟩ : ∃ n, n = slots - callSlots args := ⟨_, rfl⟩
  have hsum : n + k + k % 2 = slots := by
    rw [callSlots] at hn hslots
    omega
  rw [← hn]
  rw [← hsum] at hrsp
  obtain ⟨m₁, hgap, hm₁⟩ := Procedure.exists_shifts (k := e.checks false) rfl hrsp (padding_eq k)
  have hstate : m.Descends e bottom (n + k) m₁ :=
    ⟨hm₁.rsp, fun x => hm₁.cells _ (by simp), fun x => hm₁.determined _ (by simp),
      fun a _ => by rw [hm₁.bytes]⟩
  rw [hk] at hstate
  obtain ⟨m₂, hpass, hm₂⟩ := Passed.pass (hpool.passing hroom) h.passed.pushes h.passed.moves rfl
    hcs hstate (by omega)
  refine ⟨m₂, ?_, hm₂⟩
  rw [passCode, gapCode, ← hk, append_assoc, Machine.block_append_of_next hgap, hpass]

end

end ThreeAddress.Amd64
