import ThreeAddress.Proofs.Amd64.EncodableParts
import ThreeAddress.Proofs.Amd64.Execution

/-!
# Operands that are routed through scratch registers

An instruction whose operands cannot be encoded works on scratch registers instead.  They are loaded
before, and a result is stored after.  All that can be told afterwards from the instruction itself
is the value of the scratch registers, provided that the operands do not use them.

Operands are accessed without checks here, as the machine does it.
-/

namespace ThreeAddress.Amd64

open Procedure Storage Operand Amd64.Instr

/-! ### Places without checks -/

namespace Operand

/-- Operands that have a value: all but pseudo registers and names in the code. -/
def isPlain : Operand → Bool
  | imm _ | reg _ | memory _ _ | data _ => true
  | pseudo _ | label _ | callee _ => false

def isPlace : Operand → Bool
  | reg _ | memory _ _ | data _ => true
  | _ => false

/-- Whether an operand uses none of some registers. -/
def avoids (rs : List Register) : Operand → Bool
  | reg r | memory r _ => r ∉ rs
  | _ => true

/-- Where an operand is that is no pseudo register. -/
def place (e : Setting) (m : Storage) : Operand → Place
  | reg r => .cell (.reg r)
  | memory base offset => .address (m.cells (.reg base) + BitVec.ofInt 64 offset)
  | data symbol => .address (e.symbols symbol)
  | imm v => .value (BitVec.ofInt 64 v)
  | pseudo _ | label _ | callee _ => .value 0

theorem isPlain_of_isPlace {o : Operand} (h : o.isPlace = true) : o.isPlain = true := by
  cases o <;> first | rfl | cases h

theorem avoids_of_subset {rs rs' : List Register} (hsub : rs ⊆ rs') {o : Operand}
    (h : o.avoids rs' = true) : o.avoids rs = true := by
  cases o <;> simp_all [avoids]
  all_goals exact fun hr => h (hsub hr)

end Operand

namespace Storage

variable (m : Storage)

def valueAt (w : Width) : Place → Word
  | .value x => low w.bits x
  | .cell l => low w.bits (m.cells l)
  | .address a => loadBytes m.bytes a w.size

def write (x : Extent) (w : Width) (v : Word) : Place → Storage
  | .value _ => m
  | .cell l => { m with
      cells := Function.update m.cells l (overwritten w (m.cells l) v)
      determined := Function.update m.determined l (x.determined l w (m.determined l)) }
  | .address a => { m with bytes := storeBytes m.bytes a w.size v }

end Storage

section

variable {p : Procedure} {e : Setting} {m m' : Storage} {a o : Operand} {v w : Width}

theorem mayAccess_none (a : Word) (w : Width) : Storage.mayAccess .none a w = true := by
  simp [mayAccess, Checks.none]

theorem mayRead_none (r : Register) (w : Width) : m.mayRead .none w (.reg r) = true := rfl

theorem place?_of_isPlain (ho : o.isPlain = true) : p.place? e .none m o = some (o.place e m) := by
  cases o with
  | memory base offset =>
    simp [place?, place, fetch?, mayRead_none, low_of_le (n := Width.bits .quad) (Nat.le_refl 64)]
  | imm | reg | data => rfl
  | _ => cases ho

theorem read?_of_isPlain (ho : o.isPlain = true) (w : Width) :
    p.read? e .none m o w = some (m.valueAt w (o.place e m)) := by
  rw [read?, place?_of_isPlain ho]
  cases o with
  | imm => rfl
  | reg | memory | data =>
    simp [place, fetch?, valueAt, mayRead_none, mayAccess_none]
  | _ => cases ho

theorem put?_of_isPlace (ho : o.isPlace = true) (x : Extent) (w : Width) (v : Word) :
    m'.put? .none x w v (o.place e m) = some (m'.write x w v (o.place e m)) := by
  cases o with
  | reg => rfl
  | memory | data => simp [place, put?, write, mayAccess_none]
  | _ => cases ho

end

theorem storeBytes_eq_of_low_eq {memory : Bytes} {a x y : Word} {w : Width}
    (h : low w.bits x = low w.bits y) :
    storeBytes memory a w.size x = storeBytes memory a w.size y := by
  funext b
  unfold storeBytes
  split
  · apply BitVec.eq_of_getLsbD_eq
    intro i hi
    rw [BitVec.getLsbD_extractLsb', BitVec.getLsbD_extractLsb', decide_eq_true hi]
    refine low_eq_iff.mp h _ ?_
    unfold Width.bits
    omega
  · rfl

/-! ### Operations on two operands -/

/-- What an instruction with two operands does: whether it reads and writes the first, the widths of
the operands, and how the result and the flags are computed. -/
structure Operation where
  reads : Bool
  writes : Bool
  first : Width
  second : Width
  extent : Extent := .computed
  run : Word → Word → Flags → Word × Flags

namespace Operation

def convert (w v : Width) (f : Word → Word) : Operation where
  reads := false
  writes := true
  first := w
  second := v
  run := fun _ y flags => (f y, flags)

def combine (w v : Width) (f : Word → Word → Flags → Word × Flags) : Operation where
  reads := true
  writes := true
  first := w
  second := v
  run := f

def compare (w : Width) (f : Word → Word → Flags) : Operation where
  reads := true
  writes := false
  first := w
  second := w
  run := fun x y _ => (0, f x y)

/-- The result and the flags of an operation on two places. -/
def result (t : Operation) (m : Storage) (a b : Place) : Word × Flags :=
  t.run (if t.reads then m.valueAt t.first a else 0) (m.valueAt t.second b) m.flags

/-- The storage after an operation on two places. -/
def apply (t : Operation) (m : Storage) (a b : Place) : Storage :=
  { (if t.writes then m.write t.extent t.first (t.result m a b).1 a else m) with
    flags := (t.result m a b).2 }

end Operation

def operation? (h : Hardware) (op : Opcode) (w : Width) : Option Operation :=
  match op with
  | .mov => some { Operation.convert w w id with extent := .copied }
  | .movsx v => some (.convert w v fun x => (v.ofWord x).signExtend 64)
  | .movzx v => some (.convert w v (low v.bits))
  | .cvttsd2si => some (.convert w .double (h.toInteger w))
  | .cvtsi2sd v => some (.convert .double v (h.ofInteger v))
  | .add | .sub | .imul | .and | .or | .xor => some (.combine w w (h.combine op w))
  | .sal | .sar | .shr => some (.combine w .byte (h.shift op w))
  | .cmp => some (.compare w (h.comparison w))
  | .comisd => some (.compare .double h.compare)
  | .div => if w = .double then some (.combine w w (h.combine .div w)) else none
  | _ => none

/-- An operation is performed by an instruction on two operands for which it makes sense. -/
structure Operation.IsPerformed (t : Operation) (h : Hardware) (op : Opcode) (w : Width)
    (a b : Operand) : Prop where
  operation : operation? h op w = some t
  width : op = .comisd ∨ (∃ v, op = .cvtsi2sd v) → w = .double
  distinct : op = .xor → a ≠ b
  first : a.isPlain = true
  second : b.isPlain = true
  place : t.writes = true → a.isPlace = true

section

variable {p : Procedure} {e : Setting} {m : Storage} {a b : Operand} {v w : Width}

theorem compute?_convert (ha : a.isPlace = true) (hb : b.isPlain = true) (f : Word → Word)
    (x : Extent) : p.compute? e .none m { Computation.convert a w b v f with extent := x } =
      some (m.write x w (f (m.valueAt v (b.place e m))) (a.place e m)) := by
  simp [compute?, Computation.convert, read?_of_isPlain hb,
    place?_of_isPlain (isPlain_of_isPlace ha), putAll?, put?_of_isPlace ha]
  cases a <;> rfl

theorem compute?_combine (ha : a.isPlace = true) (hb : b.isPlain = true)
    (f : Word → Word → Flags → Word × Flags) :
    p.compute? e .none m (.combine a w b v f) =
      some ((Operation.combine w v f).apply m (a.place e m) (b.place e m)) := by
  have hplain := isPlain_of_isPlace ha
  simp [compute?, Computation.combine, read?_of_isPlain hb, read?_of_isPlain hplain,
    place?_of_isPlain hplain, putAll?, put?_of_isPlace ha, Operation.apply,
    Operation.result, Operation.combine]

theorem compute?_compare (ha : a.isPlain = true) (hb : b.isPlain = true) (f : Word → Word → Flags) :
    p.compute? e .none m (.compare a b w f) =
      some ((Operation.compare w f).apply m (a.place e m) (b.place e m)) := by
  simp [compute?, Computation.compare, read?_of_isPlain hb, read?_of_isPlain ha,
    putAll?, Operation.apply, Operation.result, Operation.compare]

/-- An instruction with two operands performs its operation. -/
theorem Operation.IsPerformed.execute {op : Opcode} {t : Operation}
    (ht : t.IsPerformed e.hardware op w a b) :
    p.execute e .none m ⟨op, w, [a, b]⟩ = .next (t.apply m (a.place e m) (b.place e m)) := by
  obtain ⟨ht, -, hxor, ha, hb, hplace⟩ := ht
  have hconvert {f : Word → Word} {x : Extent} {v w : Width} (ha : a.isPlace = true) :
      goOn m (p.compute? e .none m { Computation.convert a w b v f with extent := x }) =
        .next (apply { convert w v f with extent := x } m (a.place e m)
          (b.place e m)) := by
    rw [compute?_convert ha hb]
    cases a <;> rfl
  have hcombine {f : Word → Word → Flags → Word × Flags} {v w : Width} (ha : a.isPlace = true) :
      goOn m (p.compute? e .none m (.combine a w b v f)) =
        .next ((combine w v f).apply m (a.place e m) (b.place e m)) := by
    rw [compute?_combine ha hb]
    rfl
  have hcompare {f : Word → Word → Flags} {w : Width} :
      goOn m (p.compute? e .none m (.compare a b w f)) =
        .next ((compare w f).apply m (a.place e m) (b.place e m)) := by
    rw [compute?_compare ha hb]
    rfl
  cases op with
  | mov | movsx | movzx | cvttsd2si | cvtsi2sd =>
    cases ht
    exact hconvert (hplace rfl)
  | add | sub | imul | and | or | sal | sar | shr =>
    cases ht
    exact hcombine (hplace rfl)
  | xor =>
    cases ht
    have hc : (⟨.xor, w, [a, b]⟩ : Instr).computation? e.hardware =
        some (.combine a w b w (e.hardware.combine .xor w)) := if_neg (hxor rfl)
    rw [execute_of_computation? hc]
    exact hcombine (hplace rfl)
  | cmp | comisd =>
    cases ht
    exact hcompare
  | div =>
    simp only [operation?] at ht
    split at ht
    · rename_i hw
      cases ht
      have hc : (⟨.div, w, [a, b]⟩ : Instr).computation? e.hardware =
          some (.combine a w b w (e.hardware.combine .div w)) := if_pos hw
      rw [execute_of_computation? hc]
      exact hcombine (hplace rfl)
    · cases ht
  | _ => cases ht

end

/-- What the tables of directions and widths say about an instruction with two operands.  They do
not say that the division of doubles writes to its first operand. -/
theorem Operation.IsPerformed.tables {h : Hardware} {op : Opcode} {w : Width} {t : Operation}
    {a b : Operand} (ht : t.IsPerformed h op w a b) :
    ∃ d u, (⟨op, w, [a, b]⟩ : Instr).directions = [d, .read] ∧
      (⟨op, w, [a, b]⟩ : Instr).operandWidths = [u, t.second] ∧ t.first = w ∧
      d.reads = t.reads ∧ (op ≠ .div → d.writes = t.writes) := by
  obtain ⟨ht, hw, hxor, -, -, -⟩ := ht
  cases op with
  | mov | movsx | cvttsd2si =>
    cases ht
    exact ⟨.write, w, rfl, rfl, rfl, rfl, fun _ => rfl⟩
  | movzx v =>
    cases ht
    cases v
    case long => exact ⟨.write, .long, rfl, rfl, rfl, rfl, fun _ => rfl⟩
    all_goals exact ⟨.write, w, rfl, rfl, rfl, rfl, fun _ => rfl⟩
  | cvtsi2sd v =>
    cases ht
    exact ⟨.write, .double, rfl, rfl, (hw (.inr ⟨v, rfl⟩)).symm, rfl, fun _ => rfl⟩
  | add | sub | imul | and | or | sal | sar | shr =>
    cases ht
    exact ⟨.readWrite, w, rfl, rfl, rfl, rfl, fun _ => rfl⟩
  | xor =>
    cases ht
    refine ⟨.readWrite, w, ?_, rfl, rfl, rfl, fun _ => rfl⟩
    simp [directions, positions, hxor rfl]
  | cmp =>
    cases ht
    exact ⟨.read, w, rfl, rfl, rfl, rfl, fun _ => rfl⟩
  | comisd =>
    cases ht
    cases hw (.inl rfl)
    exact ⟨.read, .double, rfl, rfl, rfl, rfl, fun _ => rfl⟩
  | div =>
    simp only [operation?] at ht
    split at ht
    · cases ht
      exact ⟨.read, w, rfl, rfl, rfl, rfl, fun h => absurd rfl h⟩
    · cases ht
  | _ => cases ht

/-! ### States that agree -/

/-- Storages agree up to some registers, and up to what is kept track of. -/
structure Storage.Agrees (rs : List Register) (m m' : Storage) : Prop where
  cells : ∀ l, (∀ r ∈ rs, l ≠ .reg r) → m.cells l = m'.cells l
  bytes : m.bytes = m'.bytes
  flags : m.flags = m'.flags
  trace : m.trace = m'.trace

namespace Storage.Agrees

variable {rs : List Register} {m m' m'' : Storage} {e : Setting} {o : Operand} {r : Register}

theorem refl (rs : List Register) (m : Storage) : m.Agrees rs m := ⟨fun _ _ => rfl, rfl, rfl, rfl⟩

theorem trans (h : m.Agrees rs m') (h' : m'.Agrees rs m'') : m.Agrees rs m'' :=
  ⟨fun l hl => (h.cells l hl).trans (h'.cells l hl), h.bytes.trans h'.bytes, h.flags.trans h'.flags,
    h.trace.trans h'.trace⟩

theorem mono {rs' : List Register} (h : m.Agrees rs m') (hsub : rs ⊆ rs') : m.Agrees rs' m' :=
  ⟨fun l hl => h.cells l fun r hr => hl r (hsub hr), h.bytes, h.flags, h.trace⟩

theorem register (h : m.Agrees rs m') (hr : r ∉ rs) : m.cells (.reg r) = m'.cells (.reg r) := by
  refine h.cells _ fun r' hr' heq => hr ?_
  cases heq
  exact hr'

theorem place_eq (h : m.Agrees rs m') (ho : o.avoids rs = true) : o.place e m = o.place e m' := by
  cases o with
  | memory base offset =>
    have hbase : base ∉ rs := by simpa [avoids] using ho
    simp only [place, h.register hbase]
  | _ => rfl

theorem valueAt_eq (h : m.Agrees rs m') (ho : o.avoids rs = true) (w : Width) :
    m.valueAt w (o.place e m) = m'.valueAt w (o.place e m') := by
  rw [← h.place_eq ho]
  cases o with
  | reg r =>
    have hr : r ∉ rs := by simpa [avoids] using ho
    simp only [place, valueAt, h.register hr]
  | memory | data => simp only [place, valueAt, h.bytes]
  | _ => rfl

theorem write (h : m.Agrees rs m') (x x' : Extent) {w : Width} {v v' : Word}
    (hv : low w.bits v = low w.bits v') (a : Place) :
    (m.write x w v a).Agrees rs (m'.write x' w v' a) := by
  cases a with
  | value => exact h
  | cell l =>
    refine ⟨fun l' hl' => ?_, h.bytes, h.flags, h.trace⟩
    by_cases heq : l' = l
    · subst heq
      simp only [Storage.write, Function.update_self, h.cells l' hl']
      exact overwritten_congr hv
    · simp only [Storage.write, Function.update_of_ne heq, h.cells l' hl']
  | address a =>
    refine ⟨h.cells, ?_, h.flags, h.trace⟩
    simp only [Storage.write, h.bytes]
    exact storeBytes_eq_of_low_eq hv

theorem write_register (hr : r ∈ rs) (m : Storage) (x : Extent) (w : Width) (v : Word) :
    m.Agrees rs (m.write x w v (.cell (.reg r))) := by
  refine ⟨fun l hl => ?_, rfl, rfl, rfl⟩
  simp only [Storage.write, Function.update_of_ne (hl r hr)]

theorem withFlags (h : m.Agrees rs m') (flags : Flags) :
    ({ m with flags := flags } : Storage).Agrees rs { m' with flags := flags } :=
  ⟨h.cells, h.bytes, rfl, h.trace⟩

theorem pushed (h : m.Agrees rs m') (a x : Word) (n n' : Nat) :
    (m.pushed a x n).Agrees rs (m'.pushed a x n') := by
  refine ⟨fun l hl => ?_, ?_, h.flags, h.trace⟩
  · by_cases heq : l = .reg .rsp
    · simp [Storage.pushed, heq]
    · simp [Storage.pushed, heq, h.cells l hl]
  · simp [Storage.pushed, h.bytes]

end Storage.Agrees

/-! ### Sequences of instructions -/

/-- What instructions without jumps between them lead to. -/
def Procedure.runAll (p : Procedure) (e : Setting) (k : Checks) (m : Storage) :
    List Instr → Procedure.Step
  | [] => .next m
  | i :: rest =>
    match p.execute e k m i with
    | .next m' => p.runAll e k m' rest
    | outcome => outcome

section

variable {p : Procedure} {e : Setting} {k : Checks} {m m' : Storage} {i : Instr}
  {code code' : List Instr}

theorem Procedure.runAll_cons (h : p.execute e k m i = .next m') :
    p.runAll e k m (i :: code) = p.runAll e k m' code := by
  simp only [runAll, h]

theorem Procedure.runAll_append (h : p.runAll e k m code = .next m') :
    p.runAll e k m (code ++ code') = p.runAll e k m' code' := by
  induction code generalizing m with
  | nil =>
    cases h
    rfl
  | cons i rest ih =>
    cases hi : p.execute e k m i with
    | next m₁ =>
      rw [runAll_cons hi] at h
      rw [List.cons_append, runAll_cons hi, ih h]
    | jump l m₁ =>
      simp only [runAll, hi] at h
      cases h
    | stop m₁ ending =>
      simp only [runAll, hi] at h
      cases h

theorem Procedure.runAll_singleton (p : Procedure) (e : Setting) (k : Checks) (m : Storage)
    (i : Instr) : p.runAll e k m [i] = p.execute e k m i := by
  unfold runAll
  cases p.execute e k m i <;> rfl

theorem Procedure.runAll_copy {d s : Operand} (hd : d.isPlace = true) (hs : s.isPlain = true)
    (w : Width) : p.runAll e .none m [⟨.mov, w, [d, s]⟩] =
      .next (m.write .copied w (m.valueAt w (s.place e m)) (d.place e m)) := by
  have hmov : Operation.IsPerformed { Operation.convert w w id with extent := .copied } e.hardware
      .mov w d s := ⟨rfl, nofun, nofun, isPlain_of_isPlace hd, hs, fun _ => hd⟩
  rw [runAll_singleton, hmov.execute]
  cases d <;> rfl

end

/-! ### Operands that are routed through scratch registers -/

/-- The scratch registers for sources. -/
def sourceRegisters : List Register := [.r10, .xmm 14]

theorem sourceScratch_mem_sourceRegisters (w : Width) : sourceScratch w ∈ sourceRegisters := by
  unfold sourceScratch
  split <;> decide

theorem sourceRegisters_subset : sourceRegisters ⊆ Instr.scratchRegisters := by decide

theorem destinationScratch_not_mem (w : Width) : destinationScratch w ∉ sourceRegisters := by
  unfold destinationScratch
  split <;> decide

theorem valueAt_write_register (m : Storage) (x : Extent) (w : Width) (v : Word) (r : Register) :
    (m.write x w v (.cell (.reg r))).valueAt w (.cell (.reg r)) = low w.bits v := by
  simp only [write, valueAt, Function.update_self, low_overwritten]

theorem low_valueAt (m : Storage) (w : Width) (a : Place) :
    low w.bits (m.valueAt w a) = m.valueAt w a := by
  cases a with
  | value | cell => exact low_low _ _
  | address a => exact low_loadBytes m.bytes a (Nat.le_refl _) (by cases w <;> decide)

theorem Storage.withFlags_write (m : Storage) (x : Extent) (w : Width) (v : Word) (a : Place)
    (flags : Flags) : ({ m with flags := flags } : Storage).write x w v a =
      { m.write x w v a with flags := flags } := by
  cases a <;> rfl

theorem Storage.Agrees.writeThrough {rs : List Register} {m m' m'' : Storage} {e : Setting}
    {a : Operand} {r : Register} {x : Extent} {w : Width} {v : Word} {flags : Flags}
    (h : m.Agrees rs m') (hr : r ∈ rs) (ha : a.avoids rs = true)
    (hm'' : m'' = { m'.write x w v (.cell (.reg r)) with flags := flags }) :
    ({ m.write x w v (a.place e m) with flags := flags } : Storage).Agrees rs
      (m''.write .copied w (m''.valueAt w (.cell (.reg r))) (a.place e m'')) := by
  have hagrees :=
    hm'' ▸ (h.trans (.write_register hr m' x w v)).withFlags flags
  rw [← withFlags_write, ← hagrees.place_eq ha]
  refine hagrees.write x .copied ?_ _
  rw [low_valueAt, hm'']
  exact (valueAt_write_register m' x w v r).symm

section

variable {p : Procedure} {e : Setting} {m : Storage} {i : Instr} {a b : Operand} {d : Direction}
  {u v : Width}

theorem Procedure.runAll_load (ha : a.isPlain = true) (w : Width) :
    ∃ m', p.runAll e .none m [⟨.mov, v, [.reg (sourceScratch w), a]⟩] = .next m' ∧
      m.Agrees sourceRegisters m' ∧
      m'.valueAt v (.cell (.reg (sourceScratch w))) = m.valueAt v (a.place e m) :=
  ⟨_, runAll_copy rfl ha v, .write_register (sourceScratch_mem_sourceRegisters w) m _ _ _,
    (valueAt_write_register m _ v _ _).trans (low_valueAt m v _)⟩

theorem runAll_legaliseSecond (hb : b.isPlain = true) (first : Operand) :
    (i.legaliseSecond v first b).1.isPlain = true ∧
    (∀ o : Operand, o.avoids sourceRegisters = true → o ≠ b → o ≠ (i.legaliseSecond v first b).1) ∧
    ∃ m', p.runAll e .none m (i.legaliseSecond v first b).2 = .next m' ∧
      m.Agrees sourceRegisters m' ∧
      m'.valueAt v ((i.legaliseSecond v first b).1.place e m') = m.valueAt v (b.place e m) := by
  rcases i.legaliseSecond_cases v first b with ⟨heq, -⟩ | ⟨-, heq⟩
  · rw [heq]
    exact ⟨hb, fun _ _ h => h, m, rfl, .refl _ m, rfl⟩
  · rw [heq]
    refine ⟨rfl, ?_, runAll_load hb v⟩
    rintro o ho - rfl
    simp [avoids, sourceScratch_mem_sourceRegisters] at ho

theorem Operation.result_eq {t : Operation} {m m' : Storage} {a a' b b' : Place}
    (hfirst : t.reads = true → m.valueAt t.first a = m'.valueAt t.first a')
    (hsecond : m.valueAt t.second b = m'.valueAt t.second b') (hflags : m.flags = m'.flags) :
    t.result m a b = t.result m' a' b' := by
  unfold result
  cases hreads : t.reads with
  | false => simp [hsecond, hflags]
  | true => simp [hfirst hreads, hsecond, hflags]

variable {op : Opcode} {w : Width} {t : Operation}

theorem runAll_legaliseOperands_of_legal (ht : t.IsPerformed e.hardware op w a b)
    (hsource : a.avoids sourceRegisters = true)
    (hlegal : (⟨op, w, [a, b]⟩ : Instr).isFirstIllegal a = false) :
    ∃ m', p.runAll e .none m (Instr.legaliseOperands ⟨op, w, [a, b]⟩) = .next m' ∧
      (t.apply m (a.place e m) (b.place e m)).Agrees sourceRegisters m' := by
  obtain ⟨d, u, hdirections, hwidths, hfirst, -, -⟩ := ht.tables
  obtain ⟨hplain, hdistinct, m₁, hload, hagrees, hvalue⟩ :=
    runAll_legaliseSecond
      ht.second a
  rw [legaliseOperands_of_legal hdirections hwidths hlegal]
  generalize (mk op w [a, b]).legaliseSecond t.second a b = second at *
  obtain ⟨b', load⟩ := second
  have hmain : t.IsPerformed e.hardware op w a b' := { ht with
    second := hplain
    distinct := fun hop => hdistinct a hsource (ht.distinct hop) }
  rw [runAll_append hload, runAll_singleton, hmain.execute]
  refine ⟨_, rfl, ?_⟩
  have hresult : t.result m (a.place e m) (b.place e m) =
      t.result m₁ (a.place e m₁) (b'.place e m₁) :=
    Operation.result_eq (fun _ => hagrees.valueAt_eq hsource _) hvalue.symm hagrees.flags
  unfold Operation.apply
  rw [← hresult, ← hagrees.place_eq hsource]
  refine .withFlags ?_ _
  split
  · exact hagrees.write _ _ rfl _
  · exact hagrees

theorem runAll_legaliseOperands_of_illegal (ht : t.IsPerformed e.hardware op w a b)
    (hdiv : op ≠ .div) (havoids : a.avoids Instr.scratchRegisters = true)
    (havoids' : b.avoids Instr.scratchRegisters = true)
    (hillegal : (⟨op, w, [a, b]⟩ : Instr).isFirstIllegal a = true) :
    ∃ m', p.runAll e .none m (Instr.legaliseOperands ⟨op, w, [a, b]⟩) = .next m' ∧
      (t.apply m (a.place e m) (b.place e m)).Agrees Instr.scratchRegisters m' := by
  obtain ⟨d, u, hdirections, hwidths, hfirst, hreads, hwrites⟩ := ht.tables
  replace hwrites := hwrites hdiv
  simp only [legaliseOperands, hdirections, hwidths, legaliseFirst, hillegal, if_true,
    Bool.false_and, Bool.false_eq_true, if_false, aroundScratch]
  generalize hr : destinationScratch u = r
  have hscratch : r ∈ scratchRegisters := hr ▸ destinationScratch_mem u
  have hnotSource : (reg r).avoids sourceRegisters = true := by
    simpa [avoids, ← hr] using destinationScratch_not_mem u
  -- The scratch register has the value of the operand, if it matters.
  obtain ⟨m₁, hbefore, hagrees₁, hvalue₁⟩ : ∃ m₁, p.runAll e .none m
      (if d.reads = true then [⟨.mov, w, [.reg r, a]⟩] else []) = .next m₁ ∧
        m.Agrees scratchRegisters m₁ ∧
        (t.reads = true → m₁.valueAt w (.cell (.reg r)) = m.valueAt w (a.place e m)) := by
    split
    · exact ⟨_, runAll_copy rfl ht.first w, .write_register hscratch m _ _ _,
        fun _ => (valueAt_write_register m _ w _ _).trans (low_valueAt m w _)⟩
    · rename_i hnot
      exact ⟨m, rfl, .refl _ m, fun h => absurd (hreads.trans h) hnot⟩
  obtain ⟨hplain, hdistinct, m₂, hload, hagrees₂, hvalue₂⟩ :=
    runAll_legaliseSecond
      ht.second (.reg r)
  generalize (mk op w [a, b]).legaliseSecond t.second (.reg r) b = second at *
  obtain ⟨b', load⟩ := second
  have hagrees := hagrees₁.trans (hagrees₂.mono sourceRegisters_subset)
  have hresult : t.result m (a.place e m) (b.place e m) =
      t.result m₂ (.cell (.reg r)) (b'.place e m₂) := by
    refine Operation.result_eq (fun hreads => ?_) ?_ hagrees.flags
    · rw [hfirst, ← hvalue₁ hreads]
      exact hagrees₂.valueAt_eq (e := e) hnotSource w
    · exact (hagrees₁.valueAt_eq havoids' _).trans hvalue₂.symm
  have hmain := { ht with
    first := rfl
    second := hplain
    place := fun _ => rfl
    distinct := fun _ => hdistinct _ hnotSource fun h => by
      simp [← h, avoids, hscratch] at havoids' }
  have hfront : p.runAll e .none m ((if d.reads = true then [⟨.mov, w, [.reg r, a]⟩] else []) ++
      load ++ [⟨op, w, [.reg r, b']⟩]) = .next (t.apply m₂ (.cell (.reg r)) (b'.place e m₂)) := by
    rw [List.append_assoc, runAll_append hbefore, runAll_append hload,
      runAll_singleton, hmain.execute]
    rfl
  rw [runAll_append hfront, Operation.apply, Operation.apply, ← hresult]
  cases hwrite : t.writes with
  | false =>
    rw [hwrites, hwrite]
    exact ⟨_, rfl, hagrees.withFlags _⟩
  | true =>
    rw [hwrites, hwrite]
    refine ⟨_, runAll_copy (ht.place hwrite) rfl w, ?_⟩
    rw [show t.first = w from hfirst]
    exact hagrees.writeThrough hscratch havoids rfl

end

end ThreeAddress.Amd64
