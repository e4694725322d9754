import ThreeAddress.Proofs.Amd64.LoweredCalls
import ThreeAddress.Proofs.Amd64.LoweredLabels
import ThreeAddress.Proofs.Amd64.GeneratedLabels
import ThreeAddress.Proofs.Amd64.Records

/-!
# Lowered functions

A function without doubles is lowered to code that first copies the parameters from where they are
passed, and then has a block for every instruction.  Every block does what its instruction does, so
the lowered code does what the function does.
-/

namespace ThreeAddress

open List Option

def Function.variables (f : Function) : List Variable := f.params ++ f.body.flatMap Instr.variables

namespace Amd64

/-! ### Variables in memory -/

/-- The variables that are in memory are in shared memory, and do not overlap. -/
structure Setting.Places (e : Setting) (ctx : LoweringContext) (vs : List Variable) : Prop where
  shared : ∀ v ∈ vs, ∀ a, ctx.address? e v.name = some a →
    ∀ i < v.type.size, e.region (byteAt a i) = .shared
  apart : ∀ v ∈ vs, ∀ w ∈ vs, v.name ≠ w.name → ∀ a b, ctx.address? e v.name = some a →
    ctx.address? e w.name = some b → ∀ i < v.type.size, ∀ j < w.type.size, byteAt a i ≠ byteAt b j

/-- The layout of variables of which each has one type. -/
def Setting.Places.layout {e : Setting} {ctx : LoweringContext} {vs : List Variable}
    (h : e.Places ctx vs) (types : String → ScalarType)
    (htypes : ∀ v ∈ vs, types v.name = v.type) : Layout ctx e where
  used := {x | ∃ v ∈ vs, v.name = x}
  types := types
  shared := by
    rintro _ ⟨v, hv, rfl⟩ a ha
    rw [htypes v hv]
    exact h.shared v hv a ha
  apart := by
    rintro _ ⟨v, hv, rfl⟩ _ ⟨w, hw, rfl⟩ hne a b ha hb
    rw [htypes v hv, htypes w hw]
    exact h.apart v hv w hw hne a b ha hb

/-! ### Parameters -/

/-- Where an argument is found by the function that it is passed to. -/
def ArgumentPlace.operand : ArgumentPlace → Operand
  | .reg r => .reg r
  | .stack n => .memory .rbp (stackArgumentOffset n)

/-- The address of an argument that was passed on the stack. -/
def incoming (base : Word) (n : Nat) : Word := base + BitVec.ofInt 64 (stackArgumentOffset n)

/-- The instruction that copies a parameter from where it is passed. -/
def LoweringContext.paramMove (ctx : LoweringContext) (x : Variable × ArgumentPlace) : Instr :=
  ⟨.mov, .ofType x.1.type, [ctx.variableOperandOf x.1, x.2.operand]⟩

def paramPlaces (ps : List Variable) : List ArgumentPlace :=
  ArgumentPlace.ofTypes (ps.map Variable.type)

/-- The state of three-address code when a function is entered. -/
def SourceState.enter (ctx : LoweringContext) (e : Setting) (ps : List Variable) (args : List Const)
    (bytes : Bytes) (trace : List Call) : SourceState :=
  (ps.zip args).foldl (fun s x => s.assign ctx e x.1 x.2) ⟨fun _ => none, bytes, trace⟩

theorem SourceState.trace_enter {ctx : LoweringContext} {e : Setting} {ps : List Variable}
    {args : List Const} {bytes : Bytes} {trace : List Call} :
    (SourceState.enter ctx e ps args bytes trace).trace = trace := by
  suffices h : ∀ (zs : List (Variable × Const)) (s : SourceState),
      (zs.foldl (fun s x => s.assign ctx e x.1 x.2) s).trace = s.trace from h _ _
  intro zs
  induction zs with
  | nil => exact fun _ => rfl
  | cons z rest ih => exact fun s => (ih _).trans (trace_assign s z.1 z.2)

/-- The state of the machine when a function is entered.  Arguments are where the convention says,
the stack pointer is above the room for callees, and the base pointer is below the arguments that
are on the stack. -/
structure Enters (ctx : LoweringContext) (e : Setting) (vs ps : List Variable) (args : List Const)
    (bottom : Word) (slots : Nat) (base : Word) (m : Storage) : Prop where
  typed : args.map Const.type = ps.map Variable.type
  rsp : m.Has (.reg .rsp) (stackPointer bottom slots)
  rbp : m.Has (.reg .rbp) ⟨.pointer, base⟩
  registers : ∀ c r, (c, .reg r) ∈ args.zip (paramPlaces ps) → m.Has (.reg r) c
  loaded : ∀ c n, (c, .stack n) ∈ args.zip (paramPlaces ps) →
    loadBytes m.bytes (incoming base n) c.type.size = c.raw
  shared : ∀ c n, (c, .stack n) ∈ args.zip (paramPlaces ps) →
    ∀ i < c.type.size, e.region (byteAt (incoming base n) i) = .shared
  /-- No variable overlaps with an argument. -/
  apart : ∀ c n, (c, .stack n) ∈ args.zip (paramPlaces ps) → ∀ v ∈ vs, ∀ a,
    ctx.address? e v.name = some a → ∀ i < c.type.size, ∀ j < v.type.size,
      byteAt (incoming base n) i ≠ byteAt a j

section

variable {ctx : LoweringContext} {e : Setting} {L : Layout ctx e} {p : Procedure} {A : Sketch}
  {s : SourceState} {m : Storage} {v : Variable} {c d : Const} {top : Option Const}
  {st : LoweringState} {ps vs : List Variable} {args : List Const} {base bottom : Word}
  {slots : Nat}
variable {returns : Option ScalarType}

theorem Sketch.place?_incoming {n : Nat} (hbase : A.cells (.reg .rbp) = some ⟨.pointer, base⟩) :
    A.place? p e (ArgumentPlace.stack n).operand = some (.address (incoming base n)) := by
  have hfetch : A.fetch? e .pointer (.cell (.reg .rbp)) = some ⟨.pointer, base⟩ := by
    rw [fetch?_cell hbase (Nat.le_refl _)]
    exact congrArg some (Const.ofWord_raw ⟨.pointer, base⟩)
  rw [ArgumentPlace.operand, place?, hfetch]
  exact congrArg (fun x => some (Place.address (x + _))) (BitVec.setWidth_eq base)

theorem Sketch.read?_set_home {place : ArgumentPlace}
    (hbase : A.cells (.reg .rbp) = some ⟨.pointer, base⟩) (hd : d.type = v.type)
    (hapart : ∀ n, place = .stack n → ∀ a, ctx.address? e v.name = some a → ∀ i < c.type.size,
      ∀ j < v.type.size, byteAt (incoming base n) i ≠ byteAt a j)
    (h : A.read? p e place.operand c.type = some c) :
    (A.set (ctx.home e v.name) d).read? p e place.operand c.type = some c := by
  cases place with
  | reg r =>
    rw [← h]
    simp only [ArgumentPlace.operand, read?, place?, bind_some, fetch?, cells_set_home]
  | stack n =>
    rw [read?, place?_incoming hbase, bind_some, fetch?] at h
    rw [read?, place?_incoming (cells_set_home.trans hbase), bind_some, fetch?]
    split at h
    · rename_i hshared
      rw [if_pos hshared, ← h]
      refine congrArg (fun x => some (Const.ofWord c.type x)) (loadBytes_congr fun i hi => ?_)
      unfold LoweringContext.home
      cases ha : ctx.address? e v.name with
      | none => rfl
      | some a =>
        refine storeBytes_of_not_mem fun j hj => ?_
        exact hapart n rfl a ha i hi j (hd ▸ hj)
    · cases h

theorem Sketch.Agrees.params {zs : List ((Variable × ArgumentPlace) × Const)}
    (hA : A.Agrees L top s) (hp : p.Hosts L)
    (hbase : A.cells (.reg .rbp) = some ⟨.pointer, base⟩)
    (htyped : ∀ z ∈ zs, L.Has z.1.1 ∧ z.2.type = z.1.1.type)
    (hapart : ∀ z ∈ zs, ∀ y ∈ zs, ∀ n, z.1.2 = .stack n → ∀ a,
      ctx.address? e y.1.1.name = some a → ∀ i < z.2.type.size, ∀ j < y.1.1.type.size,
        byteAt (incoming base n) i ≠ byteAt a j)
    (hread : ∀ z ∈ zs, A.read? p e z.1.2.operand z.2.type = some z.2) :
    ∃ B, p.Runs e (zs.map fun z => ctx.paramMove z.1) A B ∧
      B.Agrees L top (zs.foldl (fun s z => s.assign ctx e z.1.1 z.2) s) := by
  induction zs generalizing A s with
  | nil => exact ⟨A, .nil, hA⟩
  | cons z rest ih =>
    obtain ⟨hz, hrest⟩ := forall_mem_cons.mp htyped
    have hvalue := hread z mem_cons_self
    rw [hz.2] at hvalue
    obtain ⟨hmove, hB⟩ := hA.move hp hz.1 hvalue
    obtain ⟨C, hruns, hC⟩ := ih hB (cells_set_home.trans hbase) hrest
      (fun y hy x hx => hapart y (mem_cons_of_mem _ hy) x (mem_cons_of_mem _ hx))
      fun y hy => read?_set_home hbase hz.2
        (hapart y (mem_cons_of_mem _ hy) z mem_cons_self)
        (hread y (mem_cons_of_mem _ hy))
    exact ⟨C, hmove.cons hruns, hC⟩

def entrySketch (ps : List Variable) (args : List Const) (bottom : Word) (slots : Nat) (base : Word)
    (m : Storage) : Sketch where
  cells
    | .reg r =>
      if r = .rsp then some (stackPointer bottom slots)
      else if r = .rbp then some ⟨.pointer, base⟩
      else ((inRegisters args (paramPlaces ps)).find? fun x => x.2 = r).map Prod.fst
    | .pseudo _ => none
  bytes := m.bytes
  flags := none
  trace := m.trace

namespace Enters

section

variable (h : Enters ctx e vs ps args bottom slots base m)

include h

theorem has_of_cells {l : Location Register}
    (hl : (entrySketch ps args bottom slots base m).cells l = some c) : m.Has l c := by
  cases l with
  | pseudo x => cases hl
  | reg r =>
    simp only [entrySketch] at hl
    split at hl
    · rename_i hr
      cases hl
      exact hr ▸ h.rsp
    · split at hl
      · rename_i hr
        cases hl
        exact hr ▸ h.rbp
      · obtain ⟨⟨c', r'⟩, hfind, rfl⟩ := map_eq_some_iff.mp hl
        obtain rfl : r' = r := by simpa using find?_some hfind
        obtain ⟨⟨c₁, place⟩, hmem, hplace⟩ :=
          mem_filterMap.mp (mem_of_find?_eq_some hfind)
        cases place with
        | stack n => cases hplace
        | reg q =>
          cases hplace
          exact h.registers _ _ hmem

theorem describes : (entrySketch ps args bottom slots base m).Describes e m :=
  ⟨fun _ _ hl => (h.has_of_cells hl).determined, fun _ _ hl => (h.has_of_cells hl).low_eq,
    fun _ _ => rfl, (nofun), rfl⟩

theorem read?_eq {place : ArgumentPlace} (hmem : (c, place) ∈ args.zip (paramPlaces ps)) :
    (entrySketch ps args bottom slots base m).read? p e place.operand c.type = some c := by
  cases place with
  | reg r =>
    have hin : (c, r) ∈ inRegisters args (paramPlaces ps) :=
      mem_filterMap.mpr ⟨(c, .reg r), hmem, rfl⟩
    have hfind : (inRegisters args (paramPlaces ps)).find? (fun x => x.2 = r) = some (c, r) := by
      have hsome : ((inRegisters args (paramPlaces ps)).find? fun x => x.2 = r).isSome = true :=
        find?_isSome.mpr ⟨(c, r), hin, decide_eq_true rfl⟩
      obtain ⟨y, hy⟩ := isSome_iff_exists.mp hsome
      rw [hy, inj_on_of_nodup_map (nodup_inRegisters args _) (mem_of_find?_eq_some hy) hin
        (by simpa using find?_some hy)]
    refine Sketch.read?_reg ?_
    have hrsp : r ≠ .rsp := ne_of_mem_inRegisters hin (by decide)
    have hrbp : r ≠ .rbp := ne_of_mem_inRegisters hin (by decide)
    simp only [entrySketch, if_neg hrsp, if_neg hrbp, hfind, map_some]
  | stack n =>
    have hbase : (entrySketch ps args bottom slots base m).cells (.reg .rbp) =
        some ⟨.pointer, base⟩ := rfl
    rw [Sketch.read?, Sketch.place?_incoming hbase, bind_some, Sketch.fetch?,
      if_pos (h.shared c n hmem)]
    show some (Const.ofWord c.type (loadBytes m.bytes _ _)) = _
    rw [h.loaded c n hmem, Const.ofWord_raw]

theorem exists_block (hp : p.Hosts L) (hps : ∀ v ∈ ps, L.Has v) (hvs : ps ⊆ vs) :
    ∃ m', (p.machine e (e.checks true)).block m
        ((ps.zip (paramPlaces ps)).map ctx.paramMove) = .next m' ∧
      L.Matches (some (stackPointer bottom slots))
        (SourceState.enter ctx e ps args m.bytes m.trace) m' := by
  have hlength : args.length = ps.length := by simpa using congrArg length h.typed
  have hplaces : (paramPlaces ps).length = ps.length := by simp [paramPlaces]
  have hcode : ((ps.zip (paramPlaces ps)).zip args).map Prod.fst = ps.zip (paramPlaces ps) :=
    map_fst_zip (by rw [length_zip]; omega)
  have hassigned : ((ps.zip (paramPlaces ps)).zip args).map (fun z => (z.1.1, z.2)) =
      ps.zip args := by
    conv_rhs => rw [← map_fst_zip (Nat.le_of_eq hplaces.symm), ← map_id args]
    rw [zip_map]
    rfl
  have hmem : ∀ z ∈ (ps.zip (paramPlaces ps)).zip args, z.1.1 ∈ ps ∧ z.2.type = z.1.1.type ∧
      (z.2, z.1.2) ∈ args.zip (paramPlaces ps) := by
    intro z hz
    obtain ⟨i, hi⟩ := mem_iff_getElem?.mp hz
    obtain ⟨hparam, harg⟩ := getElem?_zip_eq_some.mp hi
    obtain ⟨hv, hplace⟩ := getElem?_zip_eq_some.mp hparam
    have htyped := congrArg (·[i]?) h.typed
    simp only [getElem?_map, harg, hv, map_some, some.injEq] at htyped
    exact ⟨mem_of_getElem? hv, htyped, mem_of_getElem? (getElem?_zip_eq_some.mpr ⟨harg, hplace⟩)⟩
  have hentry : (entrySketch ps args bottom slots base m).Agrees L
      (some (stackPointer bottom slots)) ⟨fun _ => none, m.bytes, m.trace⟩ :=
    ⟨fun _ _ _ => rfl, (by rintro _ _ _ _ ⟨⟩), rfl, rfl, rfl⟩
  obtain ⟨B, hruns, hB⟩ := hentry.params hp rfl (fun z hz => ⟨hps _ (hmem z hz).1, (hmem z hz).2.1⟩)
    (fun z hz y hy n hn a ha i hi j hj =>
      h.apart z.2 n (hn ▸ (hmem z hz).2.2) y.1.1 (hvs (hmem y hy).1) a ha i hi j hj)
    (fun z hz => h.read?_eq (hmem z hz).2.2)
  obtain ⟨m', hblock, hm'⟩ := hruns m h.describes
  refine ⟨m', ?_, B, hm', ?_⟩
  · rw [← hblock, ← hcode, List.map_map, hcode]
    rfl
  · rw [SourceState.enter, ← hassigned, foldl_map]
    exact hB

end

end Enters

/-! ### The parts of a function -/

namespace LoweringContext

theorem gives_params_of {R : List Variable → LoweringState → LoweringState → Prop}
    (hnil : ∀ st, R [] st st)
    (hcons : ∀ {v vs st st₁ st₂}, R [v] st st₁ → R vs st₁ st₂ → R (v :: vs) st st₂)
    (hvariable : ∀ v ∈ ps, ∀ st, Lower.Gives (ctx.variableOperand v) st fun o st' =>
      R [v] st st' ∧ o = ctx.variableOperandOf v) :
    Lower.Gives (ctx.params ps) st fun code st' =>
      R ps st st' ∧ code = (ps.zip (paramPlaces ps)).map ctx.paramMove := by
  refine (Lower.Gives.mapM (R := fun xs => R (xs.map Prod.fst))
    (P := fun x move _ => move = ctx.paramMove x) hnil hcons (fun _ h => h) ?_).mono ?_
  · intro x hx st
    refine (hvariable x.1 (of_mem_zip hx).1 st).bind ?_
    rintro _ st₁ ⟨h₁, rfl⟩
    refine .pure ⟨h₁, ?_⟩
    cases hplace : x.2 <;> simp [paramMove, ArgumentPlace.operand, hplace]
  · intro code st' ⟨hst, hcode⟩
    rw [map_fst_zip (by simp)] at hst
    refine ⟨hst, ?_⟩
    rw [← forall₂_eq_eq_eq, forall₂_map_right_iff]
    exact hcode.flip

/-- The code of an instruction, in a procedure that knows what lowering knows in the end. -/
def Simulated (L : Layout ctx e) (returns : Option ScalarType) (st : LoweringState)
    (i : ThreeAddress.Instr) (code : List Instr) : Prop :=
  (∀ ⦃p : Procedure⦄, p.Hosts L → p.Notes st → p.results = resultRegisters returns →
    ∀ ⦃bottom slots⦄, e.Room bottom slots → stackUse i ≤ slots →
      p.Simulates L (some (stackPointer bottom slots)) code i) ∧
  KeepsLabels ThreeAddress.Instr.flow Instr.flow ctx.qualified i code

/-- The code of a body has a block for every instruction. -/
theorem gives_body {body : Listing ThreeAddress.Instr} {arity? : String → Option Nat}
    (hL : L.Ordinary) (hvars : ∀ i ∈ body, ∀ v ∈ i.variables, L.Has v)
    (hdouble : ∀ i ∈ body, i.usesDouble = false)
    (htype : ∀ i ∈ body, i.typeDefect? returns arity? = none) :
    ctx.Gives (body.flatMap ThreeAddress.Instr.variables) (ctx.body body) st fun code st' =>
      ∃ blocks, code = blocks.flatten ∧
        List.Forall₂ (Simulated L returns st') (completed body) blocks := by
  have hinstr : ∀ i ∈ body, ∀ st, ctx.Gives i.variables (ctx.instr i) st fun code st' =>
      Simulated L returns st' i code := by
    intro i hi st
    obtain ⟨code, st', hrun, hst, hsimulates⟩ : Lower.Gives (ctx.instr i) st _ :=
      gives_instr hL (hvars i hi) (hdouble i hi) (htype i hi)
    exact ⟨code, st', hrun, hst, hsimulates,
      (keepsLabels_instr (hdouble i hi) (htype i hi)).of_run hrun⟩
  have hkept : ∀ {i code vs st st'}, ctx.Extends vs st st' → Simulated L returns st i code →
      Simulated L returns st' i code :=
    fun hst h => ⟨fun p hp hnotes => h.1 hp fun symbol r hr =>
      hnotes symbol r (hst.arguments symbol r hr), h.2⟩
  rw [body_eq]
  refine .subset ((gives_mapM (P := fun i code st => Simulated L returns st i code) hkept
    hinstr).bind fun blocks st₁ _ hblocks => .pure (exists_completed hblocks ?_)) (by simp)
  exact ⟨fun p _ _ _ bottom slots _ _ => simulates_ret_none,
    Labelless.keepsLabels (by simp [Labelless, Instr.bare]) nofun⟩

theorem blockSimulation {code : Listing ThreeAddress.Instr} {front : List Instr}
    {blocks : List (List Instr)} (hblocks : List.Forall₂ (Simulated L returns st) code blocks)
    (hfront : Labelless front) (hp : p.Hosts L) (hnotes : p.Notes st)
    (hresults : p.results = resultRegisters returns) (hroom : e.Room bottom slots)
    (hslots : ∀ i ∈ code, stackUse i ≤ slots) :
    BlockSimulation (sourceMachine ctx e) (p.machine e (e.checks true)) code front blocks
      ctx.qualified (L.Matches (some (stackPointer bottom slots))) where
  records := Machine.records_of_recorded fun _ _ => SourceState.recorded_execute
  records' := Machine.records_of_recorded fun _ _ => Procedure.recorded_execute
  length_eq := hblocks.length_eq.symm
  seen_eq := fun h => h.trace_eq
  leave_eq := fun h => congrArg (Exit.mk []) h.sharedBytes_eq
  target_eq := targetPosition_flatten qualified_injective
    (fun i hi l => flow_ne_label_of_labelless hfront hi l) (hblocks.imp fun _ _ h => h.2)
  follows := by
    intro k i b hi hb s m hm
    obtain ⟨hk, rfl⟩ := List.getElem?_eq_some_iff.mp hi
    obtain ⟨hk', rfl⟩ := List.getElem?_eq_some_iff.mp hb
    have hsimulated := hblocks.get hk hk'
    exact hsimulated.1 hp hnotes hresults hroom (hslots _ (getElem_mem hk)) hm

theorem labelless_paramMoves (ctx : LoweringContext) (ps : List Variable) :
    Labelless ((ps.zip (paramPlaces ps)).map ctx.paramMove) := by
  intro i hi
  obtain ⟨x, -, rfl⟩ := mem_map.mp hi
  exact nofun

end LoweringContext

end

/-! ### Functions -/

theorem stackUse_completed {body : Listing ThreeAddress.Instr} {slots : Nat}
    (h : ∀ i ∈ body, LoweringContext.stackUse i ≤ slots) :
    ∀ i ∈ completed body, LoweringContext.stackUse i ≤ slots := by
  intro i hi
  unfold completed at hi
  split at hi
  · exact h i hi
  · rcases mem_append.mp hi with hi | hi
    · exact h i hi
    · rw [mem_singleton.mp hi]
      exact Nat.zero_le _

theorem types_of_accepted {p : Program} {f : Function} {table : TypeTable}
    (hinitial : (TypeTable.initial f.params p.statics).Extends table)
    (h : Accepted f.returnType p.arity? (fun x => table[x]?.getD .int) f.body)
    (hnodup : (f.params.map Variable.name).Nodup) :
    ∀ v ∈ f.variables, table[v.name]?.getD .int = v.type := by
  intro v hv
  rcases mem_append.mp hv with hv | hv
  · rw [hinitial v.name v.type (by
      rw [TypeTable.getElem?_initial hnodup, declaredType?, find?_of_nodup hnodup hv]
      rfl)]
    rfl
  · obtain ⟨i, hi, hv⟩ := mem_flatMap.mp hv
    exact h.variable_type i hi v hv

/-- The code of a function without doubles does what the function does.  It goes through the blocks
of the instructions that the function goes through, in the same order, with the same values of
variables and the same shared memory, and it calls and returns as the function does. -/
theorem lowerFunction_simulates {p : Program} {c : Config} {f : Function} (platform : Platform)
    (constants : ConstantPool) (hverify : p.verify c = .ok ()) (hf : f ∈ p.functions)
    (hdouble : ∀ i ∈ f.body, i.usesDouble = false)
    (hnames : ∀ v ∈ f.variables, ¬"%t".toList <+: v.name.toList) :
    ∃ q constants', lowerFunction p platform f constants = .ok (q, constants') ∧
      ∀ (e : Setting) (args : List Const) (bottom base : Word) (slots : Nat) (m : Storage),
        let ctx := LoweringContext.of p platform f
        let M := sourceMachine ctx e
        let M' := q.machine e (e.checks true)
        let s := SourceState.enter ctx e f.params args m.bytes m.trace
        e.Places ctx f.variables → e.Room bottom slots →
        (∀ i ∈ f.body, LoweringContext.stackUse i ≤ slots) →
        Enters ctx e f.variables f.params args bottom slots base m →
        Preserves M (completed f.body) s M' q.body m ∧
          ∃ (L : Layout ctx e) (front : List Instr) (blocks : List (List Instr)) (time : Nat → Nat),
            (∀ v ∈ f.variables, L.Has v) ∧ q.body = front ++ blocks.flatten ∧
            blocks.length = (completed f.body).length ∧ Monotone time ∧
            ∀ n, ¬(M.observe ((M.step (completed f.body))^[n] (.start Exit s))).IsUndefined →
              BlockSimulation.Corresponds M M' (completed f.body) front blocks
                (L.Matches (some (stackPointer bottom slots)))
                ((M.step (completed f.body))^[n] (.start Exit s))
                ((M'.step q.body)^[time n] (.start Exit m)) := by
  obtain ⟨table, hinitial, haccepted, -, hnodup⟩ := p.accepted_of_verify hverify hf
  have htypes := types_of_accepted hinitial haccepted hnodup
  obtain ⟨⟨params, st₁⟩, hparams⟩ :=
    (LoweringContext.of p platform f).succeeds_params f.params (.initial f constants)
  obtain ⟨⟨body, st₂⟩, hbody⟩ :=
    (LoweringContext.of p platform f).succeeds_body hdouble haccepted.typeDefect?_eq st₁
  let q : Procedure := ⟨f.name, f.isGlobal, params ++ body, st₂.pseudos,
    resultRegisters f.returnType, st₂.callArguments⟩
  refine ⟨q, st₂.constants, lowerFunction_eq_ok hparams hbody, ?_⟩
  intro e args bottom base slots m ctx M M' s hplaces hroom hslots henters
  let L : Layout ctx e := hplaces.layout (fun x => table[x]?.getD .int) htypes
  have hL : L.Ordinary := by
    refine Layout.ordinary_of_not_isPrefix ?_
    rintro _ ⟨v, hv, rfl⟩
    exact hnames v hv
  have hhas : ∀ v ∈ f.variables, L.Has v := fun v hv => ⟨⟨v, hv, rfl⟩, htypes v hv⟩
  have hps : f.params ⊆ f.variables := subset_append_left _ _
  have hvars : ∀ i ∈ f.body, ∀ v ∈ i.variables, L.Has v :=
    fun i hi v hv => hhas v (mem_append_right _ (mem_flatMap.mpr ⟨i, hi, hv⟩))
  -- Lowering gives one result, of which both the parameters and the body are known.
  obtain ⟨_, _, hparams', h₁, rfl⟩ : Lower.Gives (ctx.params f.params) (.initial f constants) _ :=
    LoweringContext.gives_params_of .refl .trans fun v hv _ =>
      LoweringContext.gives_variableOperand hL (hhas v (hps hv)).1
  cases hparams.symm.trans hparams'
  obtain ⟨_, _, hbody', h₂, blocks, rfl, hblocks⟩ : Lower.Gives (ctx.body f.body) st₁ _ :=
    LoweringContext.gives_body hL hvars hdouble haccepted.typeDefect?_eq
  cases hbody.symm.trans hbody'
  have hext : ctx.Extends f.variables (.initial f constants) st₂ := h₁.trans h₂
  have hsound : ctx.Sound (.initial f constants) := fun x info hx => by
    simp [LoweringState.initial] at hx
  have hhosts : q.Hosts L := (hext.sound hsound).hosts hL rfl (by
    rintro _ ⟨v, hv, rfl⟩
    exact hext.noted v hv)
  obtain ⟨m', hfront, hm'⟩ := henters.exists_block hhosts (fun v hv => hhas v (hps hv)) hps
  have hsimulation := LoweringContext.blockSimulation hblocks
    (ctx.labelless_paramMoves f.params) hhosts (fun _ _ hr => hr) rfl hroom
    (stackUse_completed hslots)
  have hseen : M'.seen m = M.seen s := SourceState.trace_enter.symm
  obtain ⟨time, hmono, htime⟩ := hsimulation.exists_schedule hm' hfront
  exact ⟨hsimulation.preserves hm' hfront hseen, L, _, blocks, time, hhas, rfl,
    hsimulation.length_eq, hmono, htime⟩

/-! ### A function with an argument on the stack -/

/-- A function of seven parameters that assigns the difference of the first and the last to a static
variable, and returns what a callee makes of it. -/
def callingFunction : Function where
  name := "f"
  isGlobal := true
  params := ["a", "b", "c", "d", "e", "f", "g"].map fun x => ⟨x, .int⟩
  returnType := some .int
  body :=
    [.binary ⟨"s", .int⟩ .subtract (.var ⟨"a", .int⟩) (.var ⟨"g", .int⟩),
      .call (some ⟨"r", .int⟩) "h" [.var ⟨"s", .int⟩],
      .jumpIfZero (.var ⟨"r", .int⟩) ⟨"end", 0⟩,
      .ret (some (.var ⟨"r", .int⟩)),
      .label ⟨"end", 0⟩]

def callingProgram : Program := ⟨[callingFunction], [⟨"s", true, .ofInt .int 0⟩]⟩

/-- A setting with a small stack, in which a callee takes one integer and returns 9, and the caller
takes an integer. -/
def callingSetting : Setting where
  hardware :=
    { double := fun _ x _ => x
      compare := fun x y => .ofSub x y
      toInteger := fun _ x => x
      ofInteger := fun _ x => x
      flags := fun _ _ _ old => old }
  symbols := fun _ => 0x2000
  homes := fun _ => 0
  region := fun a => if a.toNat < 0x1000 then .stack else .shared
  takes := fun _ _ => [(.reg .rdi, .long)]
  respond := fun _ => some ⟨fun _ => 9, fun _ => 0#8, .ofBitwise 0#8⟩
  takesResults := fun _ => [(.rax, .long)]

/-- The arguments: the first is 10, the last 3, the others are 0. -/
def callingArguments : List Const := [10, 0, 0, 0, 0, 0, 3].map (.ofInt .int)

def callingStorage : Storage where
  cells
    | .reg .rdi => 10
    | .reg .rsp => 64
    | .reg .rbp => 0x3000
    | _ => 0
  determined := fun _ => 64
  bytes := storeBytes (fun _ => 0#8) 0x3010 4 3
  settled := fun _ => true
  flags := .ofBitwise 0#8
  trace := []

abbrev callingContext : LoweringContext := .of callingProgram .linux callingFunction

theorem address?_callingContext (x : String) :
    callingContext.address? callingSetting x = if x = "s" then some 0x2000 else none := by
  have hstatic : x ∈ callingContext.statics ↔ x = "s" := by
    simp [callingContext, LoweringContext.of, callingProgram]
    exact eq_comm
  have haliased : x ∉ callingContext.aliased := by
    simp [callingContext, LoweringContext.of, callingFunction, addressTaken, Instr.addressed?]
  simp only [LoweringContext.address?, hstatic, if_neg haliased]
  rfl

theorem mem_zip_calling {x : Const × ArgumentPlace}
    (h : x ∈ callingArguments.zip (paramPlaces callingFunction.params)) :
    (∃ r, x.2 = .reg r ∧ callingStorage.Has (.reg r) x.1) ∨ x = (.ofInt .int 3, .stack 0) := by
  have hzip : callingArguments.zip (paramPlaces callingFunction.params) =
      [(.ofInt .int 10, .reg .rdi), (.ofInt .int 0, .reg .rsi), (.ofInt .int 0, .reg .rdx),
        (.ofInt .int 0, .reg .rcx), (.ofInt .int 0, .reg .r8), (.ofInt .int 0, .reg .r9),
        (.ofInt .int 3, .stack 0)] := by decide
  rw [hzip] at h
  simp only [mem_cons, not_mem_nil, or_false] at h
  rcases h with rfl | rfl | rfl | rfl | rfl | rfl | rfl
  case inr.inr.inr.inr.inr.inr => exact .inr rfl
  all_goals exact .inl ⟨_, rfl, by decide, by decide⟩

theorem enters_calling : Enters callingContext callingSetting callingFunction.variables
    callingFunction.params callingArguments 0 8 0x3000 callingStorage where
  typed := by decide
  rsp := ⟨by decide, by decide⟩
  rbp := ⟨by decide, by decide⟩
  registers := by
    intro c r h
    rcases mem_zip_calling h with ⟨_, ⟨⟩, hhas⟩ | ⟨⟨⟩⟩
    exact hhas
  loaded := by
    intro c n h
    rcases mem_zip_calling h with ⟨_, ⟨⟩, _⟩ | ⟨⟨⟩⟩
    decide
  shared := by
    intro c n h
    rcases mem_zip_calling h with ⟨_, ⟨⟩, _⟩ | ⟨⟨⟩⟩
    decide
  apart := by
    intro c n h v hv a ha
    rcases mem_zip_calling h with ⟨_, ⟨⟩, _⟩ | ⟨⟨⟩⟩
    rw [address?_callingContext] at ha
    split at ha
    · cases ha
      have hapart : ∀ i < 4, ∀ j < 8, byteAt (incoming 0x3000 0) i ≠ byteAt 0x2000 j := by decide
      exact fun i hi j hj => hapart i hi j (Nat.lt_of_lt_of_le hj v.type.size_le)
    · cases ha

theorem places_calling : callingSetting.Places callingContext callingFunction.variables where
  shared := by
    intro v hv a ha
    rw [address?_callingContext] at ha
    split at ha
    · cases ha
      have hshared : ∀ i < 8, callingSetting.region (byteAt 0x2000 i) = .shared := by decide
      exact fun i hi => hshared i (Nat.lt_of_lt_of_le hi v.type.size_le)
    · cases ha
  apart := by
    intro v hv w hw hne a b ha hb
    rw [address?_callingContext] at ha hb
    split at ha
    · rename_i hv
      split at hb
      · rename_i hw
        exact absurd (hv.trans hw.symm) hne
      · cases hb
    · cases ha

theorem room_calling : callingSetting.Room 0 8 := ⟨by decide, by decide⟩

/-- The code calls with 7, the difference of 10 and 3, and returns what the callee returns. -/
theorem callingFunction_simulates :
    callingProgram.verify {} = .ok () ∧ callingFunction ∈ callingProgram.functions ∧
      ∃ q constants, lowerFunction callingProgram .linux callingFunction (.empty .linux) =
          .ok (q, constants) ∧
        ∃ o, (q.machine callingSetting (callingSetting.checks true)).Observable q.body
            callingStorage o ∧
          o.seen.map Call.arguments = [[7]] ∧
          ∃ bytes, o.ending = some (.returned ⟨[9], bytes⟩) := by
  have hverify : callingProgram.verify {} = .ok () := by decide
  have hmem : callingFunction ∈ callingProgram.functions := mem_singleton_self _
  obtain ⟨q, constants, hq, h⟩ := lowerFunction_simulates .linux (.empty .linux) hverify
    hmem (by decide) (by decide)
  obtain ⟨hpreserves, -⟩ := h callingSetting callingArguments 0 0x3000 8 callingStorage
    places_calling room_calling (by decide) enters_calling
  -- Three-address code assigns the difference, calls, does not jump, and returns.
  refine ⟨hverify, hmem, q, constants, hq, _, hpreserves.shows ⟨4, rfl⟩ ?_, rfl, _, rfl⟩
  exact fun hundefined => nomatch (some.inj hundefined)

end Amd64

end ThreeAddress
