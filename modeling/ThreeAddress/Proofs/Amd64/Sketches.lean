import ThreeAddress.Proofs.Amd64.Execution
import ThreeAddress.Proofs.Control.Blocks
import ThreeAddress.Proofs.Semantics.Evaluation

/-!
# Sketches of storages

To follow machine code, not all of a storage has to be known.  A sketch has typed values for some of
the locations, the shared memory, and the flags if they matter.  Every instruction turns a sketch of
the storage before it into one of the storage after it.
-/

namespace ThreeAddress

open BitVec Option ThreeAddress.Const

theorem ScalarType.size_le (t : ScalarType) : t.size ≤ 8 := by
  cases t <;> decide

namespace Const

def raw (c : Const) : Amd64.Word := c.bits.setWidth 64

/-- The constant of a type that is in the lowest bits of a word. -/
def ofWord (t : ScalarType) (x : Amd64.Word) : Const := ⟨t, x.setWidth t.width⟩

@[simp] theorem ofWord_type (t : ScalarType) (x : Amd64.Word) : (ofWord t x).type = t := rfl

@[simp] theorem raw_ofWord (t : ScalarType) (x : Amd64.Word) :
    (ofWord t x).raw = Amd64.low t.width x := rfl

@[simp] theorem ofWord_raw (c : Const) : ofWord c.type c.raw = c := by
  obtain ⟨t, bits⟩ := c
  rw [ofWord, raw, setWidth_setWidth_of_le _ t.width_le, setWidth_eq]

theorem low_raw (c : Const) : Amd64.low c.type.width c.raw = c.raw := by
  rw [← raw_ofWord, ofWord_raw]

theorem ofWord_congr {t : ScalarType} {x y : Amd64.Word}
    (h : Amd64.low t.width x = Amd64.low t.width y) : ofWord t x = ofWord t y := by
  rw [ofWord, ofWord, Amd64.setWidth_eq_of_low_eq h]

end Const

namespace Amd64

theorem Width.bits_ofType (t : ScalarType) : (ofType t).bits = t.width := by
  rw [bits, size_ofType, ScalarType.width]

/-- What is known about a storage. -/
structure Sketch where
  cells : Location Register → Option Const
  /-- The shared memory. -/
  bytes : Bytes
  flags : Option Flags
  trace : List Call

namespace Sketch

/-- A sketch is true of a storage. -/
structure Describes (A : Sketch) (e : Setting) (m : Storage) : Prop where
  determined : ∀ l c, A.cells l = some c → c.type.width ≤ m.determined l
  cells : ∀ l c, A.cells l = some c → low c.type.width (m.cells l) = c.raw
  bytes : ∀ a, e.region a = .shared → m.bytes a = A.bytes a
  flags : ∀ f, A.flags = some f → m.flags = f
  trace : m.trace = A.trace

section

variable (A : Sketch) (p : Procedure) (e : Setting)

def fetch? (t : ScalarType) : Place → Option Const
  | .value x => some (.ofWord t x)
  | .cell l => (A.cells l).bind fun c =>
    if t.width ≤ c.type.width then some (.ofWord t c.raw) else none
  | .address a =>
    if ∀ i < t.size, e.region (byteAt a i) = .shared then
      some (.ofWord t (loadBytes A.bytes a t.size))
    else none

/-- Where an operand is, as far as it is known. -/
def place? : Operand → Option Place
  | .imm v => some (.value (BitVec.ofInt 64 v))
  | .reg r => some (.cell (.reg r))
  | .pseudo x => some (if p.isAliased x then .address (e.homes x) else .cell (.pseudo x))
  | .memory base offset =>
    (A.fetch? e .pointer (.cell (.reg base))).map fun b => .address (b.raw + BitVec.ofInt 64 offset)
  | .data symbol => some (.address (e.symbols symbol))
  | .label _ | .callee _ => none

/-- The constant of a type that an operand is known to have. -/
def read? (o : Operand) (t : ScalarType) : Option Const :=
  (A.place? p e o).bind (A.fetch? e t)

def set (d : Place) (c : Const) : Sketch :=
  match d with
  | .value _ => A
  | .cell l => { A with cells := Function.update A.cells l (some c) }
  | .address a => { A with bytes := storeBytes A.bytes a c.type.size c.raw }

theorem read?_imm (v : Int) (t : ScalarType) :
    A.read? p e (.imm v) t = some (.ofWord t (BitVec.ofInt 64 v)) := rfl

def withFlags (flags : Option Flags) : Sketch := { A with flags := flags }

@[simp] theorem read?_withFlags (flags : Option Flags) (o : Operand) (t : ScalarType) :
    (A.withFlags flags).read? p e o t = A.read? p e o t := rfl

theorem withFlags_set_comm (d : Place) (c : Const) (flags : Option Flags) :
    (A.set d c).withFlags flags = (A.withFlags flags).set d c := by
  cases d <;> rfl

@[simp] theorem flags_set (d : Place) (c : Const) : (A.set d c).flags = A.flags := by
  cases d <;> rfl

end

end Sketch

/-- A value of a type may be written to a place. -/
def Setting.Writable (e : Setting) (t : ScalarType) : Place → Prop
  | .value _ => False
  | .cell _ => True
  | .address a => ∀ i < t.size, e.region (byteAt a i) = .shared

/-! ### Reading -/

section

variable {A : Sketch} {p : Procedure} {e : Setting} {m : Storage} {t : ScalarType} {c : Const}
  {d : Place} {o : Operand} {l : Location Register}

theorem mayAccess_iff {e : Setting} {strict : Bool} {a : Word} {w : Width} :
    Storage.mayAccess (e.checks strict) a w = true ↔
      ∀ i < w.size, e.region (byteAt a i) = .shared := by
  simp [Storage.mayAccess, Setting.checks]

theorem Sketch.fetch?_type (h : A.fetch? e t d = some c) : c.type = t := by
  cases d with
  | value x =>
    cases h
    rfl
  | cell l =>
    obtain ⟨c₁, -, hc⟩ := bind_eq_some_iff.mp h
    split at hc <;> cases hc
    rfl
  | address a =>
    simp only [fetch?] at h
    split at h <;> cases h
    rfl

theorem Sketch.read?_type (h : A.read? p e o t = some c) : c.type = t := by
  obtain ⟨d, -, hd⟩ := bind_eq_some_iff.mp h
  exact fetch?_type hd

theorem Sketch.fetch?_cell (hl : A.cells l = some c) (ht : t.width ≤ c.type.width) :
    A.fetch? e t (.cell l) = some (.ofWord t c.raw) := by
  simp [fetch?, hl, ht]

theorem Sketch.fetch?_set_self (hd : e.Writable c.type d) :
    (A.set d c).fetch? e c.type d = some c := by
  cases d with
  | value x => cases hd
  | cell l =>
    have hl : (A.set (.cell l) c).cells l = some c := Function.update_self _ _ _
    rw [fetch?_cell hl (Nat.le_refl _), ofWord_raw]
  | address a =>
    have hlow := c.low_raw
    rw [ScalarType.width] at hlow
    have hshared : ∀ i < c.type.size, e.region (byteAt a i) = .shared := hd
    simp only [fetch?, set]
    rw [if_pos hshared, loadBytes_storeBytes _ _ c.type.size_le, hlow, ofWord_raw]

@[simp] theorem Sketch.cells_set_self :
    (A.set (.cell l) c).cells l = some c := Function.update_self _ _ _

theorem Sketch.cells_set_of_ne {l' : Location Register} (h : l' ≠ l) :
    (A.set (.cell l) c).cells l' = A.cells l' := Function.update_of_ne h _ _

theorem Extent.bits_le_determined {x : Extent} {w : Width} {old : Nat} (h : x ≠ .merged) :
    w.bits ≤ x.determined l w old := by
  cases x with
  | merged => exact absurd rfl h
  | copied => exact Nat.le_refl _
  | computed => cases l <;> cases w <;> simp [determined, Width.bits, Width.size]

namespace Sketch.Describes

theorem fetch? (hA : A.Describes e m) (h : A.fetch? e t d = some c) :
    m.fetch? (e.checks true) (.ofType t) d = some c.raw := by
  cases d with
  | value x =>
    cases h
    rw [Storage.fetch?, Width.bits_ofType]
    rfl
  | cell l =>
    obtain ⟨c₁, hl, hc⟩ := bind_eq_some_iff.mp h
    split at hc
    · rename_i hwidth
      cases hc
      have hdetermined : t.width ≤ m.determined l := Nat.le_trans hwidth (hA.determined l c₁ hl)
      have hread : m.mayRead (e.checks true) (.ofType t) l = true := by
        cases l <;> simp [Storage.mayRead, Setting.checks, Width.bits_ofType, hdetermined]
      have hcell :=
        low_eq_of_le hwidth ((hA.cells l c₁ hl).trans c₁.low_raw.symm)
      rw [Storage.fetch?, if_pos hread, Width.bits_ofType, hcell, raw_ofWord]
    · cases hc
  | address a =>
    simp only [fetch?] at h
    split at h
    · rename_i hshared
      cases h
      have hload :=
        loadBytes_congr fun i hi => hA.bytes _ (hshared i hi)
      have haccess : Storage.mayAccess (e.checks true) a (.ofType t) = true := by
        rw [mayAccess_iff, Width.size_ofType]
        exact hshared
      rw [Storage.fetch?, if_pos haccess, Width.size_ofType, hload, raw_ofWord,
        ScalarType.width, low_loadBytes _ _ (Nat.le_refl _) t.size_le]
    · cases h

theorem place? (hA : A.Describes e m) (h : A.place? p e o = some d) :
    p.place? e (e.checks true) m o = some d := by
  cases o with
  | memory base offset =>
    obtain ⟨b, hb, rfl⟩ := map_eq_some_iff.mp h
    have hfetch : m.fetch? (e.checks true) .quad (.cell (.reg base)) = some b.raw := hA.fetch? hb
    rw [Procedure.place?, hfetch]
    rfl
  | _ => exact h

theorem read? (hA : A.Describes e m) (h : A.read? p e o t = some c) :
    p.read? e (e.checks true) m o (.ofType t) = some c.raw := by
  obtain ⟨d, hd, hfetch⟩ := bind_eq_some_iff.mp h
  rw [Procedure.read?, hA.place? hd]
  exact hA.fetch? hfetch

/-! ### Writing -/

theorem update {x : Word} {n : Nat} (hA : A.Describes e m) (hn : c.type.width ≤ n)
    (hx : low c.type.width x = c.raw) :
    (A.set (.cell l) c).Describes e { m with
      cells := Function.update m.cells l x
      determined := Function.update m.determined l n } := by
  refine ⟨?_, ?_, hA.bytes, hA.flags, hA.trace⟩
  all_goals
    intro l' c' hl'
    simp only [set] at hl'
    by_cases hne : l' = l
    · subst hne
      rw [Function.update_self] at hl'
      cases hl'
      simpa using by assumption
    · rw [Function.update_of_ne hne] at hl'
      simp only [Function.update_of_ne hne]
      first | exact hA.determined l' c' hl' | exact hA.cells l' c' hl'

theorem store {a : Word} {v : Word} (hA : A.Describes e m) :
    (A.set (.address a) (.ofWord t v)).Describes e
      { m with bytes := storeBytes m.bytes a t.size v } := by
  refine ⟨hA.determined, hA.cells, ?_, hA.flags, hA.trace⟩
  intro b hb
  show storeBytes m.bytes a t.size v b = storeBytes A.bytes a t.size (low t.width v) b
  rw [storeBytes, storeBytes, hA.bytes b hb]
  split
  · apply eq_of_getLsbD_eq
    intro i hi
    rw [getLsbD_extractLsb', getLsbD_extractLsb', getLsbD_low, ScalarType.width,
      decide_eq_true (by omega : 8 * (b - a).toNat + i < 8 * t.size), Bool.true_and]
  · rfl

theorem put? {x : Extent} {v : Word} (hA : A.Describes e m) (hd : e.Writable t d)
    (hx : x ≠ .merged) :
    ∃ m', m.put? (e.checks true) x (.ofType t) v d = some m' ∧
      (A.set d (.ofWord t v)).Describes e m' := by
  cases d with
  | value x => cases hd
  | cell l =>
    refine ⟨_, rfl, hA.update ?_ ?_⟩
    · rw [ofWord_type, ← Width.bits_ofType]
      exact Extent.bits_le_determined hx
    · rw [ofWord_type, ← Width.bits_ofType, low_overwritten, Width.bits_ofType, raw_ofWord]
  | address a =>
    have haccess : Storage.mayAccess (e.checks true) a (.ofType t) = true := by
      rw [mayAccess_iff, Width.size_ofType]
      exact hd
    refine ⟨_, if_pos haccess, ?_⟩
    rw [Width.size_ofType]
    exact hA.store

end Sketch.Describes

end

/-! ### Instructions -/

theorem getLsbD_of_low_eq {n i : Nat} {x : Word} (h : low n x = x) (hi : n ≤ i) :
    x.getLsbD i = false := by
  rw [← h, getLsbD_low, decide_eq_false (by omega), Bool.false_and]

theorem low_overwritten_byte {old x : Word} (h : low 32 old = 0#64) (hx : low 8 x = x) :
    low 32 (overwritten .byte old x) = x := by
  apply eq_of_getLsbD_eq
  intro i _
  rw [getLsbD_low, getLsbD_overwritten_byte]
  by_cases h8 : i < 8
  · simp [h8, show i < 32 by omega]
  · rw [if_neg h8, getLsbD_of_low_eq hx (by omega), ← getLsbD_low, h, getLsbD_zero]

theorem storeBytes_byte {memory : Bytes} {a x : Word} (h : loadBytes memory a 4 = 0#64)
    (hx : low 8 x = x) : storeBytes memory a 1 x = storeBytes memory a 4 x := by
  funext b
  simp only [storeBytes]
  by_cases hfirst : (b - a).toNat < 1
  · rw [if_pos hfirst, if_pos (by omega)]
  · rw [if_neg hfirst]
    split
    · apply eq_of_getLsbD_eq
      intro i hi
      have hbit := congrArg (·.getLsbD (8 * (b - a).toNat + i)) h
      simp only [getLsbD_loadBytes memory a (by decide : 4 ≤ 8), getLsbD_zero,
        show (8 * (b - a).toNat + i) / 8 = (b - a).toNat by omega,
        show (8 * (b - a).toNat + i) % 8 = i by omega, ← eq_byteAt a b,
        decide_eq_true (show 8 * (b - a).toNat + i < 8 * 4 by omega), Bool.true_and] at hbit
      rw [hbit, getLsbD_extractLsb', getLsbD_of_low_eq hx (by omega), Bool.and_false]
    · rfl

section

variable {A B C : Sketch} {p : Procedure} {e : Setting} {k : Checks} {m m' : Storage} {i : Instr}
  {D : Place} {d s : Operand} {t : ScalarType} {w : Width} {f : Flags}

theorem Procedure.compute?_of_put? {c : Computation} {xs : List Word} {x : Word}
    (hreads : c.reads.mapM (fun y => p.read? e k m y.1 y.2) = some xs)
    (hwrites : c.writes = [(d, w)]) (hd : p.place? e k m d = some D)
    (hc : c.compute xs m.flags = some ([x], f)) (hput : m.put? k c.extent w x D = some m') :
    p.compute? e k m c = some { m' with flags := f } := by
  simp [compute?, hreads, hwrites, hd, hc, Storage.putAll?, hput]

/-- A block of machine code turns storages that one sketch describes into storages that another
describes. -/
def Procedure.Runs (p : Procedure) (e : Setting) (code : List Instr) (A B : Sketch) : Prop :=
  ∀ m, A.Describes e m →
    ∃ m', (p.machine e (e.checks true)).block m code = .next m' ∧ B.Describes e m'

namespace Procedure.Runs

theorem nil : p.Runs e [] A A := fun m hm => ⟨m, rfl, hm⟩

theorem append {first second : List Instr} (h₁ : p.Runs e first A B) (h₂ : p.Runs e second B C) :
    p.Runs e (first ++ second) A C := by
  intro m hm
  obtain ⟨m₁, hfirst, hm₁⟩ := h₁ m hm
  obtain ⟨m₂, hsecond, hm₂⟩ := h₂ m₁ hm₁
  exact ⟨m₂, (Machine.block_append_of_next hfirst).trans hsecond, hm₂⟩

theorem cons {code : List Instr} (h₁ : p.Runs e [i] A B) (h₂ : p.Runs e code B C) :
    p.Runs e (i :: code) A C := append h₁ h₂

theorem of_execute (h : ∀ m, A.Describes e m →
    ∃ m', p.execute e (e.checks true) m i = .next m' ∧ B.Describes e m') : p.Runs e [i] A B := by
  intro m hm
  obtain ⟨m', hnext, hm'⟩ := h m hm
  exact ⟨m', (Machine.block_singleton i).trans hnext, hm'⟩

theorem of_compute? {c : Computation} (hi : i.computation? e.hardware = some c)
    (h : ∀ m, A.Describes e m →
      ∃ m', p.compute? e (e.checks true) m c = some m' ∧ B.Describes e m') : p.Runs e [i] A B := by
  refine of_execute fun m hm => ?_
  obtain ⟨m', hcompute, hm'⟩ := h m hm
  exact ⟨m', by rw [execute_of_computation? hi, hcompute, goOn], hm'⟩

end Procedure.Runs

theorem Sketch.Describes.withFlags {flags : Option Flags} (h : A.Describes e m)
    (hf : ∀ f₀, flags = some f₀ → f = f₀) : (A.withFlags flags).Describes e { m with flags := f } :=
  ⟨h.determined, h.cells, h.bytes, hf, h.trace⟩

/-- Operands with the constants that they are known to have. -/
def Sketch.Reads (A : Sketch) (p : Procedure) (e : Setting) :
    List (Operand × Width) → List Const → Prop :=
  List.Forall₂ fun y c => y.2 = .ofType c.type ∧ A.read? p e y.1 c.type = some c

theorem Sketch.Describes.mapM_read? {reads : List (Operand × Width)} {cs : List Const}
    (hm : A.Describes e m) (h : A.Reads p e reads cs) :
    reads.mapM (fun y => p.read? e (e.checks true) m y.1 y.2) = some (cs.map Const.raw) := by
  induction h with
  | nil => rfl
  | cons hy _ ih => simp [hy.1, hm.read? hy.2, ih]

namespace Procedure.Runs

variable {a b c : Const} {x : Word}

theorem compute {c : Computation} (cs : List Const) (flags : Option Flags)
    (hi : i.computation? e.hardware = some c) (hreads : A.Reads p e c.reads cs)
    (hwrites : c.writes = [(d, .ofType t)]) (hx : c.extent ≠ .merged)
    (hd : A.place? p e d = some D) (hD : e.Writable t D)
    (hc : ∀ f, (∀ f₀, A.flags = some f₀ → f = f₀) →
      ∃ f', c.compute (cs.map Const.raw) f = some ([x], f') ∧ ∀ f₀, flags = some f₀ → f' = f₀) :
    p.Runs e [i] A ((A.set D (.ofWord t x)).withFlags flags) := by
  refine of_compute? hi fun m hm => ?_
  obtain ⟨m', hput, hm'⟩ := hm.put? hD hx
  obtain ⟨f', hcompute, hflags⟩ := hc m.flags hm.flags
  exact ⟨_, compute?_of_put? (hm.mapM_read? hreads) hwrites (hm.place? hd) hcompute hput,
    hm'.withFlags hflags⟩

theorem withFlags_set (A : Sketch) (D : Place) (c : Const) :
    (A.set D c).withFlags A.flags = A.set D c := by
  cases D <;> rfl

theorem move (hs : A.read? p e s t = some c) (hd : A.place? p e d = some D) (hD : e.Writable t D) :
    p.Runs e [⟨.mov, .ofType t, [d, s]⟩] A (A.set D c) := by
  have htype := Sketch.read?_type hs
  subst htype
  have hrun := compute (i := ⟨.mov, .ofType c.type, [d, s]⟩)
    [c] A.flags rfl (.cons ⟨rfl, hs⟩ .nil) rfl (nofun) hd hD fun f hf => ⟨f, rfl, hf⟩
  rwa [withFlags_set, id, ofWord_raw] at hrun

theorem convert {g : Word → Word}
    (hi : i.computation? e.hardware = some (.convert d (.ofType t) s (.ofType c.type) g))
    (hs : A.read? p e s c.type = some c) (hd : A.place? p e d = some D) (hD : e.Writable t D) :
    p.Runs e [i] A (A.set D (.ofWord t (g c.raw))) := by
  have hrun := compute [c] A.flags hi (.cons ⟨rfl, hs⟩ .nil) rfl (nofun) hd hD
    fun f hf => ⟨f, rfl, hf⟩
  rwa [withFlags_set] at hrun

theorem modify {g : Word → Flags → Word × Flags}
    (hi : i.computation? e.hardware = some (.modify d (.ofType c.type) g))
    (hg : ∀ f, (g c.raw f).1 = x) (hs : A.read? p e d c.type = some c)
    (hd : A.place? p e d = some D) (hD : e.Writable c.type D) :
    p.Runs e [i] A ((A.set D (.ofWord c.type x)).withFlags none) :=
  compute [c] none hi (.cons ⟨rfl, hs⟩ .nil) rfl (nofun) hd hD
    fun f _ => ⟨_, by rw [← hg f]; rfl, nofun⟩

theorem combine {g : Word → Word → Flags → Word × Flags} (hi : i.computation? e.hardware =
      some (.combine d (.ofType a.type) s (.ofType b.type) g))
    (hg : ∀ f, (g a.raw b.raw f).1 = x) (ha : A.read? p e d a.type = some a)
    (hb : A.read? p e s b.type = some b) (hd : A.place? p e d = some D)
    (hD : e.Writable a.type D) :
    p.Runs e [i] A ((A.set D (.ofWord a.type x)).withFlags none) :=
  compute [a, b] none hi (.cons ⟨rfl, ha⟩ (.cons ⟨rfl, hb⟩ .nil)) rfl (nofun) hd hD
    fun f _ => ⟨_, by rw [← hg f]; rfl, nofun⟩

theorem compare {g : Word → Word → Flags}
    (hi : i.computation? e.hardware = some (.compare d s (.ofType a.type) g))
    (hb : b.type = a.type) (hd : A.read? p e d a.type = some a)
    (hs : A.read? p e s b.type = some b) : p.Runs e [i] A (A.withFlags (some (g a.raw b.raw))) := by
  refine of_compute? hi fun m hm => ⟨{ m with flags := g a.raw b.raw }, ?_, ?_⟩
  · have hreads := hm.read? hd
    have hreads' := hm.read? hs
    rw [hb] at hreads'
    simp [compute?, Computation.compare, hreads, hreads', Storage.putAll?]
  · exact hm.withFlags fun _ h => some.inj h

theorem clear {r : Register} : p.Runs e [⟨.xor, .long, [.reg r, .reg r]⟩] A
      ((A.set (.cell (.reg r)) (.zero .ulong)).withFlags none) := by
  refine of_compute? (c := .clear (.reg r) .long) (by simp [Instr.computation?]) fun m hm => ?_
  have hcell : low 64 (overwritten .long (m.cells (.reg r)) 0#64) = 0#64 := by
    show low 64 (low 32 0#64) = 0#64
    decide
  refine ⟨_, rfl, (hm.update (c := .zero .ulong) (Nat.le_refl 64) hcell).withFlags ?_⟩
  rintro _ ⟨⟩

theorem setByte (cond : Condition) (hf : A.flags = some f) (hd : A.place? p e d = some D)
    (hD : e.Writable .int D) (hzero : A.fetch? e .int D = some (.zero .int)) :
    p.Runs e [⟨.setcc cond, .byte, [d]⟩] A (A.set D (.ofBool (cond.holds f))) := by
  refine of_compute? rfl fun m hm => ?_
  have hflags := hm.flags f hf
  subst hflags
  -- The word that is written is the whole of the constant.
  have hraw : (Const.ofBool (cond.holds m.flags)).raw =
      if cond.holds m.flags then 1#64 else 0#64 := by
    cases cond.holds m.flags <;> decide
  have hbyte : low 8 (if cond.holds m.flags then 1#64 else 0#64) =
      if cond.holds m.flags then 1#64 else 0#64 := by
    cases cond.holds m.flags <;> decide
  have hplace := hm.place? hd
  have hfetch := hm.fetch? hzero
  cases D with
  | value x => cases hD
  | cell l =>
    obtain ⟨c, hl, hc⟩ := bind_eq_some_iff.mp hzero
    have hwidth : 32 ≤ c.type.width := by
      split at hc
      · assumption
      · cases hc
    refine ⟨_, compute?_of_put? rfl rfl hplace rfl rfl, hm.update ?_ ?_⟩
    · exact Nat.le_trans (Nat.le_trans hwidth (hm.determined l c hl)) (Nat.le_max_left _ _)
    · rw [hraw]
      refine low_overwritten_byte ?_ hbyte
      simp only [Storage.fetch?] at hfetch
      split at hfetch
      · exact some.inj hfetch
      · cases hfetch
  | address a =>
    have haccess : Storage.mayAccess (e.checks true) a .byte = true := by
      rw [mayAccess_iff]
      exact fun i hi => hD i (Nat.lt_of_lt_of_le hi (by decide))
    refine ⟨_, compute?_of_put? rfl rfl hplace rfl (if_pos haccess),
      hm.determined, hm.cells, ?_, hm.flags, hm.trace⟩
    intro b hb
    simp only [Storage.fetch?] at hfetch
    split at hfetch
    · show storeBytes m.bytes a 1 _ b = storeBytes A.bytes a 4 _ b
      rw [hraw, storeBytes_byte (some.inj hfetch) hbyte]
      simp only [storeBytes, hm.bytes b hb]
    · cases hfetch

theorem divide {op : Opcode} {signed : Bool} {upper : Const}
    {q r : BitVec (Width.ofType a.type).bits}
    (hi : i.computation? e.hardware = some (.divide e.hardware op signed (.ofType a.type) s))
    (hupper : A.read? p e (.reg .rdx) a.type = some upper)
    (ha : A.read? p e (.reg .rax) a.type = some a) (hb : A.read? p e s a.type = some b)
    (hq : quotients signed ((Width.ofType a.type).ofWord upper.raw)
      ((Width.ofType a.type).ofWord a.raw) ((Width.ofType a.type).ofWord b.raw) = some (q, r)) :
    p.Runs e [i] A
      (((A.set (.cell (.reg .rax)) (.ofWord a.type (q.setWidth 64))).set (.cell (.reg .rdx))
        (.ofWord a.type (r.setWidth 64))).withFlags none) := by
  refine of_compute? hi fun m hm => ?_
  obtain ⟨m₁, hput₁, hm₁⟩ := hm.put? (x := .computed) (d := .cell (.reg .rax)) trivial (nofun)
  obtain ⟨m₂, hput₂, hm₂⟩ := hm₁.put? (x := .computed) (d := .cell (.reg .rdx)) trivial (nofun)
  refine ⟨{ m₂ with
    flags := e.hardware.flags op (.ofType a.type) [upper.raw, a.raw, b.raw] m.flags }, ?_,
    hm₂.withFlags nofun⟩
  simp [compute?, Computation.divide, hm.read? hupper, hm.read? ha, hm.read? hb, hq,
    place?, Storage.putAll?, hput₁, hput₂]

theorem lea {address : Word} (hs : A.place? p e s = some (.address address))
    (hd : A.place? p e d = some D) (hD : e.Writable .pointer D) :
    p.Runs e [⟨.lea, .quad, [d, s]⟩] A (A.set D (.ofWord .pointer address)) := by
  refine of_execute fun m hm => ?_
  obtain ⟨m', hput, hm'⟩ := hm.put? (x := .computed) hD (nofun)
  refine ⟨m', ?_, hm'⟩
  have hput' : m.put? (e.checks true) .computed .quad address D = some m' := hput
  simp [execute, lea?, hm.place? hs, hm.place? hd, hput', goOn]

end Procedure.Runs

end

end Amd64

end ThreeAddress
