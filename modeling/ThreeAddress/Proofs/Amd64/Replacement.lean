import ThreeAddress.Proofs.Amd64.Execution
import ThreeAddress.Proofs.Control.EditedCode
import ThreeAddress.Proofs.Registers.Placement

/-!
# Replacing pseudo registers

The pseudo registers of a procedure are replaced by others, by machine registers, or by slots in the
stack frame.  An operand of the new code then stands for the new place of what it stood for.

Values need not be the same in all bits.  Only as much of a value is carried over as the old code
has determined, and strict checks make sure that it never reads more.
-/

namespace ThreeAddress.Amd64

open Storage Option

variable {y : Word × Nat} {o : Operand}

/-! ### What is carried over -/

/-- What lies at a place, and how much of it is determined.  Memory is determined. -/
def Storage.view (m : Storage) : Place → Word × Nat
  | .cell l => (m.cells l, m.determined l)
  | .address a => (loadBytes m.bytes a 8, 64)
  | .value _ => (0#64, 0)

/-- What is determined of one word is found in another too. -/
def CarriesOver (x y : Word × Nat) : Prop := x.2 ≤ y.2 ∧ low x.2 x.1 = low x.2 y.1

theorem CarriesOver.low_eq {x : Word × Nat} (h : CarriesOver x y) {n : Nat} (hn : n ≤ x.2) :
    low n x.1 = low n y.1 := low_eq_of_le hn h.2

/-- Where a place has gone: a location has a new place, and memory stays where it is. -/
def Place.through (target : Location Register → Place) : Place → Place
  | .cell l => target l
  | d => d

/-- What a replacement of operands does to a procedure.  Pseudo registers go to new places, machine
registers stay.  The base pointer points to the frame. -/
structure Replacement (p : Procedure) (e : Setting) (k : Checks) (base : Word)
    (names : String → Prop) (f : Operand → Operand) (target : Location Register → Place) :
      Prop where
  fixed : ∀ o, o.pseudo? = none → f o = o
  register : ∀ r, target (.reg r) = .cell (.reg r)
  pseudo : ∀ x, names x → p.isAliased x = false → ∀ m : Storage, m.cells (.reg .rbp) = base →
    64 ≤ m.determined (.reg .rbp) → p.place? e k m (f (.pseudo x)) = some (target (.pseudo x))
  /-- What lives in memory stays where it is. -/
  aliased : ∀ x, names x → p.isAliased x = true → ∀ m : Storage, m.cells (.reg .rbp) = base →
    64 ≤ m.determined (.reg .rbp) → p.place? e k m (f (.pseudo x)) = some (.address (e.homes x))
  notValue : ∀ x v, target (.pseudo x) ≠ .value v
  notLabel : ∀ x l, f (.pseudo x) ≠ .label l
  /-- A new place that is a register is named by it. -/
  operand : ∀ x l, names x → p.isAliased x = false → target (.pseudo x) = .cell l →
    f (.pseudo x) = Procedure.locationOperand l
  memory : ∀ x a, names x → p.isAliased x = false → target (.pseudo x) = .address a →
    (f (.pseudo x)).isMemory = true
  /-- The stack pointer is handed out to no one. -/
  stackPointer : ∀ x, names x → p.isAliased x = false → target (.pseudo x) ≠ .cell (.reg .rsp)
  injective : ∀ x y a, names x → names y → p.isAliased x = false → p.isAliased y = false →
    target (.pseudo x) = .address a → target (.pseudo y) = .address a → x = y
  /-- New places in memory are not shared. -/
  unshared : ∀ x a, names x → p.isAliased x = false → target (.pseudo x) = .address a → ∀ i < 8,
    e.region (byteAt a i) = .frame ∧ k.valid (byteAt a i) = true
  disjoint : ∀ x y a b, names x → names y → p.isAliased x = false → p.isAliased y = false →
    target (.pseudo x) = .address a → target (.pseudo y) = .address b → a ≠ b →
    ∀ i < 8, ∀ j < 8, byteAt a i ≠ byteAt b j
  valid : ∀ a, e.region a = .shared → k.valid a = true

namespace Replacement

variable {p : Procedure} {e : Setting} {k : Checks} {base : Word} {names : String → Prop}
  {f : Operand → Operand} {target : Location Register → Place} {m m₁ m' : Storage}
  {l d : Location Register} {x : Extent} {w : Width} {v : Word} {a : Word}

/-- The locations that get a new place. -/
def Placed (p : Procedure) (names : String → Prop) (l : Location Register) : Prop :=
  ∀ x, l = .pseudo x → names x ∧ p.isAliased x = false

theorem placed_reg (r : Register) : Placed p names (.reg r) := nofun

/-- What is determined of a location is found at its new place. -/
def Carried (target : Location Register → Place) (m m' : Storage) (l : Location Register) : Prop :=
  CarriesOver (m.view (.cell l)) (m'.view (target l))

/-- Flags and memory of the old and of the new code. -/
structure Outer (e : Setting) (m m' : Storage) : Prop where
  shared : ∀ a, e.region a = .shared → m.bytes a = m'.bytes a
  stack : ∀ a, e.region a = .stack → m.settled a = true →
    m'.settled a = true ∧ m.bytes a = m'.bytes a
  flags_eq : m.flags = m'.flags
  trace_eq : m.trace = m'.trace

theorem of_mayAccess {k : Checks} (h : Storage.mayAccess k a w = true) {i : Nat} (hi : i < w.size) :
    k.valid (byteAt a i) = true :=
  List.all_eq_true.mp h i (List.mem_range.mpr hi)

theorem mayAccess_of {k : Checks} (h : ∀ i < w.size, k.valid (byteAt a i) = true) :
    Storage.mayAccess k a w = true :=
  List.all_eq_true.mpr fun i hi => h i (List.mem_range.mp hi)

theorem size_le (w : Width) : w.size ≤ 8 := by
  cases w <;> decide

theorem bits_le_of_mayRead (h : m.mayRead (e.checks true) w l = true) :
    w.bits ≤ m.determined l := by
  cases l <;> simpa [mayRead, Setting.checks] using h

theorem mayRead_of_bits_le (h : w.bits ≤ m.determined l) : m.mayRead k w l = true := by
  cases l <;> simp [mayRead, h]

theorem fetch?_target (h : Replacement p e k base names f target) (hl : Placed p names l)
    (hcarried : Carried target m m' l) (hv : m.fetch? (e.checks true) w (.cell l) = some v) :
    m'.fetch? k w (target l) = some v := by
  obtain ⟨hmay, rfl⟩ : m.mayRead (e.checks true) w l = true ∧ low w.bits (m.cells l) = v := by
    simpa [fetch?] using hv
  have hbits : w.bits ≤ m.determined l := bits_le_of_mayRead hmay
  have hlow : low w.bits (m.cells l) = low w.bits (m'.view (target l)).1 := hcarried.low_eq hbits
  have hdetermined : w.bits ≤ (m'.view (target l)).2 := hbits.trans hcarried.1
  cases ht : target l with
  | value y =>
    rw [ht] at hdetermined
    exact absurd hdetermined (Nat.not_le_of_lt w.bits_pos)
  | cell l' =>
    rw [ht] at hlow hdetermined
    have hmay' : m'.mayRead k w l' = true := mayRead_of_bits_le hdetermined
    simp only [fetch?, hmay', if_true, hlow]
    rfl
  | address a =>
    rw [ht] at hlow
    cases l with
    | reg r =>
      rw [h.register] at ht
      cases ht
    | pseudo y =>
      have hmay' : mayAccess k a w = true := mayAccess_of fun i hi =>
        (h.unshared y a (hl y rfl).1 (hl y rfl).2 ht i (by have := size_le w; omega)).2
      simp only [fetch?, hmay', if_true, hlow]
      rw [← low_loadBytes m'.bytes a (size_le w) (Nat.le_refl 8)]
      rfl

theorem placed_of_place? (hnames : ∀ y, o = .pseudo y → names y)
    (hd : p.place? e k m o = some (.cell l)) : o.location? = some l ∧ Placed p names l := by
  cases o with
  | imm y | data y => cases hd
  | label y | callee y => cases hd
  | memory b offset =>
    obtain ⟨_, -, hcell⟩ := map_eq_some_iff.mp hd
    cases hcell
  | reg r =>
    cases hd
    exact ⟨rfl, placed_reg r⟩
  | pseudo y =>
    simp only [Procedure.place?, some.injEq] at hd
    split at hd
    · cases hd
    · rename_i haliased
      cases hd
      refine ⟨rfl, fun z hz => ?_⟩
      cases hz
      exact ⟨hnames y rfl, by simpa using haliased⟩

section

variable (h : Replacement p e k base names f target)

include h

theorem place?_through {d : Place} (hrbp : m'.cells (.reg .rbp) = base)
    (hrbp' : 64 ≤ m'.determined (.reg .rbp)) (hnames : ∀ y, o = .pseudo y → names y)
    (hbase : ∀ r, o.base? = some r → Carried target m m' (.reg r))
    (hd : p.place? e (e.checks true) m o = some d) :
    p.place? e k m' (f o) = some (d.through target) := by
  cases o with
  | imm y | data y =>
    rw [h.fixed _ rfl]
    cases hd
    rfl
  | label y | callee y => cases hd
  | reg r =>
    rw [h.fixed _ rfl]
    cases hd
    rw [Place.through, h.register]
    rfl
  | memory b offset =>
    rw [h.fixed _ rfl]
    obtain ⟨top, htop, rfl⟩ := map_eq_some_iff.mp hd
    have htop' := h.fetch?_target (placed_reg b) (hbase b rfl) htop
    rw [h.register] at htop'
    simp [Procedure.place?, htop', Place.through]
  | pseudo y =>
    have hy := hnames y rfl
    simp only [Procedure.place?, some.injEq] at hd
    split at hd
    · rename_i haliased
      cases hd
      exact h.aliased y hy haliased m' hrbp hrbp'
    · rename_i haliased
      cases hd
      exact h.pseudo y hy (by simpa using haliased) m' hrbp hrbp'

theorem fetch?_through (houter : Outer e m m') {d : Place}
    (hcell : ∀ l, d = .cell l → Placed p names l ∧ Carried target m m' l)
    (hv : m.fetch? (e.checks true) w d = some v) : m'.fetch? k w (d.through target) = some v := by
  cases d with
  | value y => exact hv
  | cell l => exact h.fetch?_target (hcell l rfl).1 (hcell l rfl).2 hv
  | address a =>
    obtain ⟨hmay, rfl⟩ : mayAccess (e.checks true) a w = true ∧ loadBytes m.bytes a w.size = v := by
      simpa [fetch?] using hv
    have hshared : ∀ i < w.size, e.region (byteAt a i) = .shared := fun i hi => by
      simpa [Setting.checks] using of_mayAccess hmay hi
    have hmay' : mayAccess k a w = true :=
      mayAccess_of fun i hi => h.valid _ (hshared i hi)
    simp only [Place.through, fetch?, hmay', if_true, some.injEq]
    exact (loadBytes_congr fun i hi => houter.shared _ (hshared i hi)).symm

/-- What an operand is read as, the new operand is read as. -/
theorem read?_through (houter : Outer e m m') (hrbp : m'.cells (.reg .rbp) = base)
    (hrbp' : 64 ≤ m'.determined (.reg .rbp)) (hnames : ∀ y, o = .pseudo y → names y)
    (hcarried : ∀ l, o.location? = some l → Placed p names l → Carried target m m' l)
    (hbase : ∀ r, o.base? = some r → Carried target m m' (.reg r))
    (hv : p.read? e (e.checks true) m o w = some v) : p.read? e k m' (f o) w = some v := by
  obtain ⟨d, hd, hfetch⟩ := bind_eq_some_iff.mp hv
  refine bind_eq_some_iff.mpr ⟨d.through target, h.place?_through hrbp hrbp' hnames hbase hd, ?_⟩
  refine h.fetch?_through houter (fun l hl => ?_) hfetch
  subst hl
  obtain ⟨hlocation, hplaced⟩ := placed_of_place? hnames hd
  exact ⟨hplaced, hcarried l hlocation hplaced⟩

end

/-! ### Writes -/

def wrote (m : Storage) (x : Extent) (w : Width) (v : Word) (l : Location Register) : Storage :=
  { m with
    cells := Function.update m.cells l (overwritten w (m.cells l) v)
    determined := Function.update m.determined l (x.determined l w (m.determined l)) }

theorem view_wrote_self : (wrote m x w v l).view (.cell l) =
      (overwritten w (m.cells l) v, x.determined l w (m.determined l)) := by
  simp [wrote, view]

theorem view_wrote_of_ne (hne : d ≠ l) : (wrote m x w v l).view (.cell d) = m.view (.cell d) := by
  simp [wrote, view, Function.update_of_ne hne]

theorem carriesOver_overwritten {l' : Location Register} {z : Word × Nat}
    (hreg : ∀ r, l = .reg r → l' = .reg r) (hmerged : x = .merged → CarriesOver y z) :
    CarriesOver (overwritten w y.1 v, x.determined l w y.2)
      (overwritten w z.1 v, x.determined l' w z.2) := by
  have hwritten : low w.bits (overwritten w y.1 v) = low w.bits (overwritten w z.1 v) := by
    rw [low_overwritten, low_overwritten]
  cases x with
  | merged =>
    obtain ⟨hle, hlow⟩ := hmerged rfl
    exact ⟨max_le_max_right _ hle, low_max_overwritten hlow⟩
  | copied => exact ⟨Nat.le_refl _, hwritten⟩
  | computed =>
    cases l with
    | reg r =>
      rw [hreg r rfl]
      refine ⟨?_, ?_⟩
      · cases w <;> exact Nat.le_refl _
      · cases w <;> first | exact hwritten | rfl
    | pseudo n =>
      refine ⟨?_, ?_⟩
      · cases l' <;> cases w <;> simp [Extent.determined, Width.bits_le]
      · exact hwritten

theorem carriesOver_stored {n : String} {memory : Bytes}
    (hmerged : x = .merged → w = .byte ∧ CarriesOver y (loadBytes memory a 8, 64)) :
    CarriesOver (overwritten w y.1 v, x.determined (.pseudo n) w y.2)
      (loadBytes (storeBytes memory a w.size v) a 8, 64) := by
  have hstored : low w.bits (loadBytes (storeBytes memory a w.size v) a 8) = low w.bits v := by
    rw [Width.bits, low_loadBytes _ _ (size_le w) (Nat.le_refl 8),
      loadBytes_storeBytes _ _ (size_le w)]
  have hwritten : low w.bits (overwritten w y.1 v) =
      low w.bits (loadBytes (storeBytes memory a w.size v) a 8) := by
    rw [low_overwritten, hstored]
  cases x with
  | copied => exact ⟨w.bits_le, hwritten⟩
  | computed =>
    exact ⟨w.bits_le, hwritten⟩
  | merged =>
    -- Only the lowest byte is written, and the bytes above it are carried over as before.
    obtain ⟨rfl, hle, hlow⟩ := hmerged rfl
    refine ⟨max_le hle (Width.bits_le _), ?_⟩
    rw [low_eq_iff]
    intro i hi
    rw [getLsbD_overwritten_byte]
    split
    · rename_i h8
      have hbyte := low_eq_iff.mp hstored i h8
      exact hbyte.symm
    · have hbits : Width.byte.bits = 8 := rfl
      have hmax : i < max y.2 Width.byte.bits := hi
      have hold := low_eq_iff.mp hlow i (by omega)
      rw [hold, getLsbD_loadBytes _ _ (Nat.le_refl 8), getLsbD_loadBytes _ _ (Nat.le_refl 8)]
      have hbyteAt : byteAt a (i / 8) ≠ byteAt a 0 := by
        intro heq
        have hsub := congrArg (fun b => (b - a).toNat) heq
        simp only [toNat_byteAt_sub (show i / 8 < 2 ^ 64 by omega),
          toNat_byteAt_sub (show 0 < 2 ^ 64 by omega)] at hsub
        omega
      rw [storeBytes_of_not_mem]
      intro j hj
      obtain rfl : j = 0 := by
        have : j < 1 := hj
        omega
      exact hbyteAt

theorem storeBytes_of_region {region region' : Region} {memory : Bytes} {b : Word} {n : Nat}
    (hstore : ∀ i < n, e.region (byteAt a i) = region) (hb : e.region b = region')
    (hne : region ≠ region') : storeBytes memory a n v b = memory b := by
  refine storeBytes_of_not_mem fun i hi heq => hne ?_
  rw [← hb, heq, hstore i hi]

/-- What two states have at a place after a write to it, and what the write leaves alone. -/
structure Written (p : Procedure) (e : Setting) (names : String → Prop)
    (target : Location Register → Place) (written : Location Register → Prop)
    (m m' m₁ m₁' : Storage) : Prop where
  outer : Outer e m₁ m₁'
  carried : ∀ l, written l → Carried target m₁ m₁' l
  view_old : ∀ l, ¬ written l → m₁.view (.cell l) = m.view (.cell l)
  view_new : ∀ l, Placed p names l → (∀ d, written d → target d ≠ target l) →
    m₁'.view (target l) = m'.view (target l)

theorem Written.kept {written : Location Register → Prop} {m₁' : Storage}
    (h : Written p e names target written m m' m₁ m₁') (hl : Placed p names l)
    (hne : ∀ d, written d → target d ≠ target l) (hcarried : Carried target m m' l) :
    Carried target m₁ m₁' l := by
  have hold : ¬ written l := fun hw => hne l hw rfl
  unfold Carried
  rwa [h.view_old l hold, h.view_new l hl hne]

theorem put?_cell (h : Replacement p e k base names f target) (houter : Outer e m m')
    (hl : Placed p names l)
    (hmerged : x = .merged → w = .byte ∧ Carried target m m' l) :
    ∃ m₁', m'.put? k x w v (target l) = some m₁' ∧
      Written p e names target (· = l) m m' (wrote m x w v l) m₁' := by
  have hold : ∀ d, ¬ d = l → (wrote m x w v l).view (.cell d) = m.view (.cell d) := fun d hd =>
    view_wrote_of_ne hd
  cases ht : target l with
  | value y =>
    cases l with
    | reg r => rw [h.register] at ht; cases ht
    | pseudo n => exact absurd ht (h.notValue n y)
  | cell l' =>
    refine ⟨wrote m' x w v l', rfl, ⟨houter.shared, houter.stack, houter.flags_eq, houter.trace_eq⟩,
      ?_, hold, ?_⟩
    · rintro d rfl
      unfold Carried at hmerged ⊢
      rw [ht] at hmerged ⊢
      rw [view_wrote_self, view_wrote_self]
      refine carriesOver_overwritten (y := m.view (.cell d)) (z := m'.view (.cell l')) ?_
        fun hx => (hmerged hx).2
      rintro r rfl
      rw [h.register] at ht
      cases ht
      rfl
    · intro d _ hne
      have hd : target d ≠ .cell l' := fun heq => hne l rfl (ht.trans heq.symm)
      cases htd : target d with
      | value y => rfl
      | address a => rfl
      | cell d' =>
        refine view_wrote_of_ne fun heq => hd ?_
        rw [htd, heq]
  | address a =>
    cases l with
    | reg r => rw [h.register] at ht; cases ht
    | pseudo n =>
      have hn := hl n rfl
      have hframe : ∀ i < w.size, e.region (byteAt a i) = .frame ∧ k.valid (byteAt a i) = true :=
        fun i hi => h.unshared n a hn.1 hn.2 ht i (by have := size_le w; omega)
      have hmay : mayAccess k a w = true := mayAccess_of fun i hi => (hframe i hi).2
      refine ⟨{ m' with bytes := storeBytes m'.bytes a w.size v }, by simp [put?, hmay],
        ?_, ?_,
        hold, ?_⟩
      · -- The frame is neither shared nor used for arguments.
        refine ⟨fun b hb => ?_, fun b hb hsettled => ?_, houter.flags_eq, houter.trace_eq⟩
        · have hnew : storeBytes m'.bytes a w.size v b = m'.bytes b :=
            storeBytes_of_region (fun i hi => (hframe i hi).1) hb (by decide)
          exact (houter.shared b hb).trans hnew.symm
        · have hnew : storeBytes m'.bytes a w.size v b = m'.bytes b :=
            storeBytes_of_region (fun i hi => (hframe i hi).1) hb (by decide)
          obtain ⟨hsettled', hbytes⟩ := houter.stack b hb hsettled
          exact ⟨hsettled', hbytes.trans hnew.symm⟩
      · rintro d rfl
        unfold Carried at hmerged ⊢
        rw [ht] at hmerged ⊢
        rw [view_wrote_self]
        exact carriesOver_stored (y := m.view (.cell (.pseudo n))) hmerged
      · intro d hd hne
        have hne' : target d ≠ .address a := fun heq => hne _ rfl (ht.trans heq.symm)
        cases htd : target d with
        | value y => rfl
        | cell d' => rfl
        | address b =>
          cases d with
          | reg r => rw [h.register] at htd; cases htd
          | pseudo n' =>
            have hn' := hd n' rfl
            have hab : a ≠ b := fun heq => hne' (by rw [htd, heq])
            have hload : loadBytes (storeBytes m'.bytes a w.size v) b 8 =
              loadBytes m'.bytes b 8 := by
              refine loadBytes_congr fun j hj => storeBytes_of_not_mem fun i hi heq => ?_
              exact h.disjoint n n' a b hn.1 hn'.1 hn.2 hn'.2 ht htd hab i
                (by have := size_le w; omega) j hj heq.symm
            simp only [view, hload]

/-- What lies at a new place stays if the frame does, and also the register if the place is one. -/
theorem view_target_eq (h : Replacement p e k base names f target) (hl : Placed p names l)
    (hframe : ∀ b, e.region b = .frame → m₁.bytes b = m'.bytes b)
    (hcell : ∀ c, target l = .cell c → m₁.view (.cell c) = m'.view (.cell c)) :
    m₁.view (target l) = m'.view (target l) := by
  cases ht : target l with
  | value y => rfl
  | cell c => exact hcell c ht
  | address b =>
    cases l with
    | reg r => rw [h.register] at ht; cases ht
    | pseudo n =>
      obtain ⟨hn, haliased⟩ := hl n rfl
      have hload : loadBytes m₁.bytes b 8 = loadBytes m'.bytes b 8 :=
        loadBytes_congr fun j hj => hframe _ (h.unshared n b hn haliased ht j hj).1
      simp only [view, hload]

theorem put?_address (h : Replacement p e k base names f target) (houter : Outer e m m')
    (hput : m.put? (e.checks true) x w v (.address a) = some m₁) :
    ∃ m₁', m'.put? k x w v (.address a) = some m₁' ∧
      Written p e names target (fun _ => False) m m' m₁ m₁' := by
  obtain ⟨hmay, rfl⟩ : mayAccess (e.checks true) a w = true ∧
      { m with bytes := storeBytes m.bytes a w.size v } = m₁ := by
    simpa [put?] using hput
  have hshared : ∀ i < w.size, e.region (byteAt a i) = .shared := fun i hi => by
    simpa [Setting.checks] using of_mayAccess hmay hi
  have hmay' : mayAccess k a w = true := mayAccess_of fun i hi => h.valid _ (hshared i hi)
  refine ⟨{ m' with bytes := storeBytes m'.bytes a w.size v }, by simp [put?, hmay'],
    ⟨fun b hb => ?_, fun b hb hsettled => ?_, houter.flags_eq, houter.trace_eq⟩,
    fun _ hw => hw.elim, fun _ _ => rfl, fun d hd _ => ?_⟩
  · show storeBytes m.bytes a w.size v b = storeBytes m'.bytes a w.size v b
    unfold storeBytes
    split
    · rfl
    · exact houter.shared b hb
  · obtain ⟨hsettled', hbytes⟩ := houter.stack b hb hsettled
    refine ⟨hsettled', ?_⟩
    show storeBytes m.bytes a w.size v b = storeBytes m'.bytes a w.size v b
    rw [storeBytes_of_region hshared hb (by decide), storeBytes_of_region hshared hb (by decide),
      hbytes]
  · exact h.view_target_eq hd (fun b hb => storeBytes_of_region hshared hb (by decide))
      fun _ _ => rfl

theorem Written.trans {first second : Location Register → Prop} {m₁' m₂ m₂' : Storage}
    (h : Written p e names target first m m' m₁ m₁')
    (h' : Written p e names target second m₁ m₁' m₂ m₂')
    (hplaced : ∀ l, first l → Placed p names l)
    (hne : ∀ l d, first l → second d → target d ≠ target l) :
    Written p e names target (fun l => first l ∨ second l) m m' m₂ m₂' where
  outer := h'.outer
  carried := by
    rintro l (hl | hl)
    · exact h'.kept (hplaced l hl) (fun d hd => hne l d hl hd) (h.carried l hl)
    · exact h'.carried l hl
  view_old := fun l hl => by
    rw [h'.view_old l fun hs => hl (.inr hs), h.view_old l fun hf => hl (.inl hf)]
  view_new := fun l hl hd => by
    rw [h'.view_new l hl fun d hs => hd d (.inr hs), h.view_new l hl fun d hf => hd d (.inl hf)]

/-- Writes become writes to where the places have gone, if these are different. -/
theorem putAll?_through (h : Replacement p e k base names f target)
    {writes : List ((Place × Width) × Word)} (houter : Outer e m m')
    (hplaced : ∀ y ∈ writes, ∀ l, y.1.1 = .cell l → Placed p names l)
    (hmerged : x = .merged → ∀ y ∈ writes, y.1.2 = .byte ∧
      ∀ l, y.1.1 = .cell l → Carried target m m' l)
    (hdistinct : writes.Pairwise fun y z => ∀ l d, y.1.1 = .cell l → z.1.1 = .cell d →
      target d ≠ target l)
    (hput : m.putAll? (e.checks true) x writes = some m₁) :
    ∃ m₁', m'.putAll? k x (writes.map (Prod.map (Prod.map (Place.through target) id) id)) =
      some m₁' ∧
      Written p e names target (fun l => ∃ y ∈ writes, y.1.1 = .cell l) m m' m₁ m₁' := by
  induction writes generalizing m m' with
  | nil =>
    cases hput
    exact ⟨m', rfl, houter, by simp, fun _ _ => rfl, fun _ _ _ => rfl⟩
  | cons y rest ih =>
    obtain ⟨⟨d, w⟩, v⟩ := y
    obtain ⟨hplaced, hrest⟩ := List.forall_mem_cons.mp hplaced
    obtain ⟨hhead, htail⟩ := List.pairwise_cons.mp hdistinct
    obtain ⟨m₀, hfirst, hput⟩ := bind_eq_some_iff.mp hput
    obtain ⟨m₀', hfirst', hwritten⟩ : ∃ m₀', m'.put? k x w v (d.through target) = some m₀' ∧
        Written p e names target (fun l => d = .cell l) m m' m₀ m₀' := by
      cases d with
      | value u => cases hfirst
      | address a =>
        obtain ⟨m₀', hm₀', hwritten⟩ := h.put?_address houter hfirst
        refine ⟨m₀', hm₀', ?_⟩
        simpa using hwritten
      | cell l =>
        obtain rfl : wrote m x w v l = m₀ := some.inj hfirst
        have hcell := h.put?_cell (v := v) houter (hplaced l rfl) fun hx =>
          (hmerged hx _ List.mem_cons_self).imp_right fun hcarried => hcarried l rfl
        obtain ⟨m₀', hm₀', hwritten⟩ := hcell
        refine ⟨m₀', hm₀', ?_⟩
        simpa [eq_comm] using hwritten
    -- What is merged later is still carried over.
    have hmerged' : x = .merged → ∀ z ∈ rest, z.1.2 = .byte ∧
        ∀ l, z.1.1 = .cell l → Carried target m₀ m₀' l := by
      intro hx z hz
      obtain ⟨hbyte, hcarried⟩ := hmerged hx z (List.mem_cons_of_mem _ hz)
      refine ⟨hbyte, fun l hl => ?_⟩
      refine hwritten.kept (hrest z hz l hl) (fun d' hd' heq => ?_) (hcarried l hl)
      exact hhead z hz d' l hd' hl heq.symm
    obtain ⟨m₁', hput', hwritten'⟩ := ih hwritten.outer hrest hmerged' htail hput
    have htrans := hwritten.trans hwritten' hplaced fun l d' hl ⟨z, hz, hd'⟩ =>
      hhead z hz l d' hl hd'
    refine ⟨m₁', ?_, by simpa using htrans⟩
    show (m'.put? k x w v (d.through target)).bind _ = some m₁'
    rw [hfirst', bind_some, hput']

end Replacement

end ThreeAddress.Amd64
