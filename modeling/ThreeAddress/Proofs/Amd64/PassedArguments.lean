import Mathlib.Data.List.Zip
import ThreeAddress.Proofs.Amd64.LoweredForms
import ThreeAddress.Proofs.Amd64.LoweredInstructions

/-!
# Arguments of calls

The arguments of a call are pushed to the stack or moved to registers before it.  Pushing leaves
everything alone that is on the stack already, and moving to a register leaves the stack alone and
all other registers.  So the callee finds every argument where it expects it.
-/

namespace ThreeAddress.Amd64

open List Procedure Width ArgumentPlace Machine

variable {types : List ScalarType} {top : Option Const} {places : List ArgumentPlace}

/-! ### Where arguments are passed -/

section

variable {α β : Type}

variable {R : α → β → Prop} {xs : List α} {ys : List β} {x : α} {y : β} {r : Register} {n k : Nat}
  {places : List ArgumentPlace} {place : ArgumentPlace} {integers doubles : List Register}

@[simp] theorem onStack_cons_stack :
    onStack (x :: xs) (.stack n :: places) = x :: onStack xs places := rfl

theorem length_onStack_le : (onStack xs places).length ≤ xs.length := by
  refine Nat.le_trans (length_filterMap_le _ _) ?_
  rw [length_zip]
  exact Nat.min_le_left _ _

theorem forall₂_onStack (h : List.Forall₂ R xs ys) (places : List ArgumentPlace) :
    List.Forall₂ R (onStack xs places) (onStack ys places) := by
  induction h generalizing places with
  | nil => exact .nil
  | cons hxy _ ih =>
    cases places with
    | nil => exact .nil
    | cons place rest =>
      cases place with
      | reg r => exact ih rest
      | stack n => exact .cons hxy (ih rest)

theorem forall₂_inRegisters (h : List.Forall₂ R xs ys) (places : List ArgumentPlace) :
    List.Forall₂ (fun x y => R x.1 y.1 ∧ x.2 = y.2) (inRegisters xs places)
      (inRegisters ys places) := by
  induction h generalizing places with
  | nil => exact .nil
  | cons hxy _ ih =>
    cases places with
    | nil => exact .nil
    | cons place rest =>
      cases place with
      | reg r => exact .cons ⟨hxy, rfl⟩ (ih rest)
      | stack n => exact ih rest

theorem mem_onStack_or_mem_inRegisters (hx : x ∈ xs) (hlength : xs.length ≤ places.length) :
    x ∈ onStack xs places ∨ ∃ r, (x, r) ∈ inRegisters xs places := by
  induction xs generalizing places with
  | nil => cases hx
  | cons y ys ih =>
    cases places with
    | nil => simp at hlength
    | cons place rest =>
      have hrest : ys.length ≤ rest.length := by simpa using hlength
      cases place with
      | reg r =>
        rcases mem_cons.mp hx with rfl | hx
        · exact .inr ⟨r, mem_cons_self⟩
        · exact (ih hx hrest).imp id fun ⟨q, hq⟩ => ⟨q, mem_cons_of_mem _ hq⟩
      | stack n =>
        rcases mem_cons.mp hx with rfl | hx
        · exact .inl mem_cons_self
        · exact (ih hx hrest).imp (mem_cons_of_mem _) id

theorem mem_inRegisters (h : (ArgumentPlace.reg r, x) ∈ places.zip xs) :
    (x, r) ∈ inRegisters xs places := by
  refine mem_filterMap.mpr ⟨(x, .reg r), ?_, rfl⟩
  rw [← zip_swap]
  exact mem_map_of_mem h

/-- Places on the stack are handed out in order. -/
theorem getElem?_onStack
    (h : (ArgumentPlace.stack n, x) ∈ (ArgumentPlace.assign integers doubles k types).zip xs) :
    k ≤ n ∧ (onStack xs (ArgumentPlace.assign integers doubles k types))[n - k]? = some x := by
  fun_induction assign integers doubles k types generalizing xs with
  | case1 => simp at h
  | case2 _ _ _ _ _ _ _ ih | case4 _ _ _ _ _ _ _ ih =>
    cases xs with
    | nil => simp at h
    | cons y ys =>
      rw [zip_cons_cons, mem_cons] at h
      rcases h with h | h
      · cases h
      · exact ih h
  | case3 _ k _ _ _ ih | case5 _ k _ _ _ ih =>
    cases xs with
    | nil => simp at h
    | cons y ys =>
      rw [zip_cons_cons, mem_cons] at h
      rcases h with h | h
      · cases h
        simp
      · obtain ⟨hle, hget⟩ := ih h
        refine ⟨by omega, ?_⟩
        rw [show n - k = n - (k + 1) + 1 by omega]
        exact hget

theorem ArgumentPlace.registers_assign (integers doubles : List Register) (k : Nat)
    (types : List ScalarType) (h : (integers ++ doubles).Nodup) :
    ((assign integers doubles k types).filterMap reg?).Nodup ∧
      (assign integers doubles k types).filterMap reg? ⊆ integers ++ doubles := by
  fun_induction assign integers doubles k types with
  | case1 => simp
  | case2 integers k t rest _ r doubles ih =>
    obtain ⟨hr, hrest⟩ := nodup_cons.mp (nodup_middle.mp h)
    obtain ⟨hnodup, hsubset⟩ := ih hrest
    exact ⟨nodup_cons.mpr ⟨fun hmem => hr (hsubset hmem), hnodup⟩,
      Subset.trans (cons_subset_cons r hsubset) perm_middle.symm.subset⟩
  | case4 doubles k t rest _ r integers ih =>
    obtain ⟨hr, hrest⟩ := nodup_cons.mp h
    obtain ⟨hnodup, hsubset⟩ := ih hrest
    exact ⟨nodup_cons.mpr ⟨fun hmem => hr (hsubset hmem), hnodup⟩,
      cons_subset_cons r hsubset⟩
  | case3 _ _ _ _ _ ih | case5 _ _ _ _ _ ih => exact ih h

theorem map_snd_inRegisters_sublist : ((inRegisters xs places).map Prod.snd).Sublist
    (places.filterMap ArgumentPlace.reg?) := by
  induction places generalizing xs with
  | nil => simp [inRegisters]
  | cons place rest ih =>
    cases xs with
    | nil => simp [inRegisters]
    | cons x xs =>
      cases place with
      | reg r => exact (@ih xs).cons_cons r
      | stack n => exact @ih xs

/-- The registers of arguments are different from each other. -/
theorem nodup_inRegisters (xs : List α) (types : List ScalarType) :
    ((inRegisters xs (ArgumentPlace.ofTypes types)).map Prod.snd).Nodup :=
  map_snd_inRegisters_sublist.nodup (registers_assign _ _ 0 types (by decide)).1

theorem ne_of_mem_inRegisters {z : α × Register}
    (h : z ∈ inRegisters xs (ArgumentPlace.ofTypes types))
    (hr : r ∉ ArgumentPlace.integerRegisters ++ ArgumentPlace.doubleRegisters) : z.2 ≠ r := by
  have hmem := (registers_assign _ _ 0 types (by decide)).2
    (map_snd_inRegisters_sublist.subset (mem_map_of_mem h))
  intro heq
  exact hr (heq ▸ hmem)

end

/-! ### The stack -/

/-- The stack has room for some words, from an address on. -/
structure Setting.Room (e : Setting) (bottom : Word) (slots : Nat) : Prop where
  stack : ∀ i < 8 * slots, e.region (byteAt bottom i) = .stack
  small : 8 * slots < 2 ^ 64

/-- The address of a word above others. -/
def slot (bottom : Word) (n : Nat) : Word := byteAt bottom (8 * n)

/-- A constant is on the stack, as a whole. -/
structure Storage.HasSlot (m : Storage) (a : Word) (c : Const) : Prop where
  settled : ∀ i < c.type.size, m.settled (byteAt a i) = true
  loaded : loadBytes m.bytes a c.type.size = c.raw

/-- Constants are on the stack, one after another. -/
def Storage.Holds (m : Storage) (bottom : Word) (n : Nat) (cs : List Const) : Prop :=
  ∀ i c, cs[i]? = some c → m.HasSlot (slot bottom (n + i)) c

section

variable {bottom x : Word} {m : Storage} {n i j slots : Nat} {c : Const} {cs : List Const}

theorem byteAt_byteAt (a : Word) (i j : Nat) : byteAt (byteAt a i) j = byteAt a (i + j) := by
  rw [byteAt, byteAt, byteAt, BitVec.add_assoc, BitVec.ofNat_add]

theorem slot_succ_sub : slot bottom (n + 1) - 8 = slot bottom n := by
  have hadd : slot bottom (n + 1) = slot bottom n + 8 := by
    rw [slot, Nat.mul_succ, ← byteAt_byteAt]
    rfl
  rw [hadd, BitVec.add_sub_cancel]

theorem toNat_slot_sub (h : 8 * (j + 1) ≤ 2 ^ 64) (hnj : n ≤ j) (hi : i < 8) :
    (byteAt (slot bottom j) i - slot bottom n).toNat = 8 * (j - n) + i := by
  have haddress : byteAt (slot bottom j) i = byteAt (slot bottom n) (8 * (j - n) + i) := by
    rw [slot, slot, byteAt_byteAt, byteAt_byteAt]
    congr 1
    omega
  rw [haddress, toNat_byteAt_sub (by omega)]

theorem Storage.hasSlot_pushed {a : Word} (hn : c.type.width ≤ n)
    (hx : low c.type.width x = c.raw) : (m.pushed a x n).HasSlot a c := by
  have hsize := c.type.size_le
  rw [ScalarType.width] at hn hx
  refine ⟨?_, ?_⟩
  · intro i hi
    have hsub : (byteAt a i - a).toNat = i := toNat_byteAt_sub (by omega)
    simp only [pushed, hsub]
    rw [if_pos (by omega), decide_eq_true (by omega)]
  · rw [← low_loadBytes _ a hsize (Nat.le_refl 8), pushed, loadBytes_storeBytes _ a (Nat.le_refl 8),
      low_of_le (Nat.le_refl 64), hx]

theorem Storage.HasSlot.pushed (hm : m.HasSlot (slot bottom j) c) (hj : 8 * (j + 1) ≤ 2 ^ 64)
    (hn : n < j) (x : Word) (k : Nat) : (m.pushed (slot bottom n) x k).HasSlot
    (slot bottom j) c := by
  have hsize := c.type.size_le
  have hsub : ∀ i < c.type.size, ¬(byteAt (slot bottom j) i - slot bottom n).toNat < 8 := by
    intro i hi
    rw [toNat_slot_sub hj (by omega) (by omega)]
    omega
  refine ⟨?_, ?_⟩
  · intro i hi
    simp only [Storage.pushed, if_neg (hsub i hi)]
    exact hm.settled i hi
  · rw [← hm.loaded]
    refine loadBytes_congr fun i hi => ?_
    show storeBytes m.bytes (slot bottom n) 8 x _ = _
    rw [storeBytes, if_neg (hsub i hi)]

theorem Storage.Holds.pushed (hm : m.Holds bottom (n + 1) cs) (hroom : n + 1 + cs.length ≤ slots)
    (hsmall : 8 * slots < 2 ^ 64) {k : Nat} (hk : c.type.width ≤ k)
    (hx : low c.type.width x = c.raw) : (m.pushed (slot bottom n) x k).Holds bottom n
    (c :: cs) := by
  intro i d hd
  cases i with
  | zero =>
    cases hd
    exact hasSlot_pushed hk hx
  | succ i =>
    have hi := (List.getElem?_eq_some_iff.mp hd).1
    rw [length_cons] at hi
    have hslot := hm i d hd
    rw [show n + 1 + i = n + (i + 1) by omega] at hslot
    exact hslot.pushed (by omega) (by omega) x k

end

/-! ### Pushing -/

/-- The stack pointer while words below some address are in use. -/
def stackPointer (bottom : Word) (n : Nat) : Const := ⟨.pointer, slot bottom n⟩

section

variable {ctx : LoweringContext} {e : Setting} {L : Layout ctx e} {p : Procedure} {A : Sketch}
  {s : SourceState} {m : Storage} {o : Operand} {bottom x : Word} {slots n k : Nat} {c : Const}

theorem Setting.Room.within (h : e.Room bottom slots) (hn : n < slots) {i : Nat} (hi : i < 8) :
    e.region (byteAt (slot bottom n) i) = .stack := by
  rw [slot, byteAt_byteAt]
  exact h.stack _ (by omega)

theorem Sketch.Describes.pushed (hm : A.Describes e m) (hroom : e.Room bottom slots)
    (hn : n < slots) : (A.set (.cell (.reg .rsp)) (stackPointer bottom n)).Describes e
      (m.pushed (slot bottom n) x k) := by
  have hupdate := hm.update (l := .reg .rsp) (c := stackPointer bottom n)
    (x := slot bottom n) (Nat.le_refl 64) ?_
  · refine ⟨hupdate.determined, hupdate.cells, ?_, hupdate.flags, hupdate.trace⟩
    intro b hb
    show storeBytes m.bytes (slot bottom n) 8 x b = A.bytes b
    rw [storeBytes_of_not_mem, hm.bytes b hb]
    rintro i hi rfl
    rw [hroom.within hn hi] at hb
    cases hb
  · exact low_of_le (Nat.le_refl 64) _

theorem Sketch.Agrees.set_stack (hA : A.Agrees L top s) :
    (A.set (.cell (.reg .rsp)) c).Agrees L (some c) s := by
  refine ⟨?_, hA.typed, hA.bytes, hA.trace, cells_set_self⟩
  intro y hy hnone
  rw [cells_set_of_ne (by simp), hA.locals y hy hnone]

theorem Layout.Matches.fetch?_stack (h : L.Matches (some (stackPointer bottom n)) s m) :
    m.fetch? (e.checks true) .quad (.cell (.reg .rsp)) = some (slot bottom n) := by
  obtain ⟨A, hm, hA⟩ := h
  have hfetch := hm.fetch? (Sketch.fetch?_cell hA.stack (Nat.le_refl _))
  exact hfetch

theorem Layout.Matches.push (h : L.Matches (some (stackPointer bottom (n + 1))) s m)
    (hroom : e.Room bottom slots) (hn : n < slots)
    (hx : p.pushed? e (e.checks true) m o = some (x, k)) :
    p.execute e (e.checks true) m ⟨.push, .quad, [o]⟩ = .next (m.pushed (slot bottom n) x k) ∧
      L.Matches (some (stackPointer bottom n)) s (m.pushed (slot bottom n) x k) := by
  have hwithin : within e .stack (slot bottom n) 8 = true := by
    simp only [within, all_eq_true, mem_range, decide_eq_true_eq]
    exact fun i hi => hroom.within hn hi
  refine ⟨?_, ?_⟩
  · simp only [Procedure.execute, push?, hx, h.fetch?_stack, Option.bind_some,
      slot_succ_sub, hwithin, if_true, goOn]
  · obtain ⟨A, hm, hA⟩ := h
    exact ⟨_, hm.pushed hroom hn, hA.set_stack⟩

/-! ### Registers -/

/-- A constant is at a location, as a whole. -/
structure Storage.Has (m : Storage) (l : Location Register) (c : Const) : Prop where
  determined : c.type.width ≤ m.determined l
  low_eq : low c.type.width (m.cells l) = c.raw

def Storage.load (m : Storage) (r : Register) (c : Const) : Storage :=
  { m with
    cells := Function.update m.cells (.reg r)
      (overwritten (.ofType c.type) (m.cells (.reg r)) c.raw)
    determined := Function.update m.determined (.reg r) (Width.ofType c.type).bits }

variable {checks : Checks} {w : Width} {q r : Register} {d : Const}

theorem Storage.low_load :
    low c.type.width (overwritten (.ofType c.type) (m.cells (.reg r)) c.raw) = c.raw := by
  rw [← bits_ofType, low_overwritten, bits_ofType, c.low_raw]

theorem Storage.has_load : (m.load r c).Has (.reg r) c :=
  ⟨by simp [load, bits_ofType], by simpa [load] using low_load⟩

theorem Storage.Has.load (h : m.Has (.reg q) d) (hq : q ≠ r) : (m.load r c).Has (.reg q) d := by
  have hne : Location.reg q ≠ Location.reg r := by simpa using hq
  exact ⟨by simpa [Storage.load, Function.update_of_ne hne] using h.determined,
    by simpa [Storage.load, Function.update_of_ne hne] using h.low_eq⟩

theorem Procedure.execute_mov_reg (hx : p.read? e checks m o w = some x) :
    p.execute e checks m ⟨.mov, w, [.reg r, o]⟩ = .next { m with
      cells := Function.update m.cells (.reg r) (overwritten w (m.cells (.reg r)) x)
      determined := Function.update m.determined (.reg r) w.bits } := by
  have hreads : [(o, w)].mapM (fun y => p.read? e checks m y.1 y.2) = some [x] := by simp [hx]
  rw [execute_of_computation? rfl, compute?_of_put? hreads rfl rfl rfl rfl]
  rfl

theorem Layout.Matches.load (h : L.Matches top s m) (hr : r ≠ .rsp) :
    L.Matches top s (m.load r c) := by
  obtain ⟨A, hm, hA⟩ := h
  have hbits : c.type.width ≤ (ofType c.type).bits := Nat.le_of_eq (bits_ofType _).symm
  exact ⟨_, hm.update hbits Storage.low_load, hA.set_scratch (L.isScratch_reg hr)⟩

theorem Layout.Matches.read?_operand {v : Value} (h : L.Matches top s m) (hp : p.Hosts L)
    (hv : L.HasValue v) (hc : s.eval? ctx e v = some c) :
    p.read? e (e.checks true) m (ctx.operandOf v) (.ofType v.type) = some c.raw := by
  obtain ⟨A, hm, hA⟩ := h
  have hread := hA.read?_operand hp hv hc
  exact hm.read? hread

/-! ### Code that passes arguments -/

/-- Whether an operand is pushed as it is. -/
def isPushable (t : ScalarType) : Operand → Bool
  | .imm _ | .reg _ => true
  | _ => (Width.ofType t).size == 8

def pushCode (t : ScalarType) (o : Operand) : List Instr :=
  if isPushable t o then [⟨.push, .quad, [o]⟩]
  else [⟨.mov, .ofType t, [.reg .rax, o]⟩, ⟨.push, .quad, [.reg .rax]⟩]

def PushedBy (denotes : Value → Operand → Prop) (v : Value) (code : List Instr) : Prop :=
  ∃ o, denotes v o ∧ code = pushCode v.type o

def MovedBy (denotes : Value → Operand → Prop) (x : Value × Register) (i : Instr) : Prop :=
  ∃ o, denotes x.1 o ∧ i = ⟨.mov, .ofType x.1.type, [.reg x.2, o]⟩

theorem Procedure.read?_of_size (hw : w.size = 8) :
    p.read? e checks m o w = p.read? e checks m o .quad := by
  have hfetch : ∀ D, m.fetch? checks w D = m.fetch? checks .quad D := by
    intro D
    cases w with
    | byte | long => cases hw
    | quad => rfl
    | double => cases D <;> rfl
  rw [read?, read?, funext hfetch]

theorem Procedure.exists_pushed? (ho : o.isValue = true) (hpush : isPushable c.type o = true)
    (hread : p.read? e checks m o (.ofType c.type) = some c.raw) :
    ∃ x, p.pushed? e checks m o = some (x, 64) ∧ low c.type.width x = c.raw := by
  have hword (hsize : ((ofType c.type).size == 8) = true) :
      p.read? e checks m o .quad = some c.raw := by
    rw [← read?_of_size (by simpa using hsize), hread]
  cases o with
  | imm y =>
    have hlow := Option.some.inj hread
    rw [bits_ofType] at hlow
    refine ⟨_, rfl, ?_⟩
    rw [← hlow]
    exact congrArg (low c.type.width) (low_of_le (Nat.le_refl 64) _)
  | pseudo y | data y => exact ⟨c.raw, congrArg (Option.map (·, 64)) (hword hpush), c.low_raw⟩
  | _ => cases ho

/-! ### A call that is being prepared -/

/-- Some arguments of a call are on the stack and in registers.  What else is known of the storage
depends on how many words are free. -/
structure Passed (known : Nat → Storage → Prop) (bottom : Word) (slots n : Nat) (cs : List Const)
    (loaded : List (Const × Register)) (m : Storage) : Prop where
  state : known n m
  holds : m.Holds bottom n cs
  registers : ∀ x ∈ loaded, m.Has (.reg x.2) x.1
  fits : n + cs.length ≤ slots

/-- Arguments can be passed: what is known of the storage stays known when words are pushed and
constants are moved to registers, and it tells the values of operands. -/
structure Procedure.Passing (p : Procedure) (e : Setting) (checks : Checks) (bottom : Word)
    (slots : Nat) (known : Nat → Storage → Prop) (denotes : Value → Operand → Prop)
    (evaluates : Value → Const → Prop) : Prop where
  small : 8 * slots < 2 ^ 64
  push : ∀ {n m o x j}, known (n + 1) m → n < slots → p.pushed? e checks m o = some (x, j) →
    p.execute e checks m ⟨.push, .quad, [o]⟩ = .next (m.pushed (slot bottom n) x j) ∧
      known n (m.pushed (slot bottom n) x j)
  load : ∀ {n m r c}, known n m → r ≠ .rsp → known n (m.load r c)
  type_eq : ∀ {v c}, evaluates v c → c.type = v.type
  isValue : ∀ {v o}, denotes v o → o.isValue = true
  read?_eq : ∀ {v o c n m}, denotes v o → evaluates v c → known n m →
    p.read? e checks m o (.ofType v.type) = some c.raw

namespace Passed

variable {known : Nat → Storage → Prop} {denotes : Value → Operand → Prop}
  {evaluates : Value → Const → Prop} {cs ds : List Const} {loaded : List (Const × Register)}
  {v : Value}

variable (hp : p.Passing e checks bottom slots known denotes evaluates)

include hp

theorem push (h : Passed known bottom slots (n + 1) cs [] m)
    (hx : p.pushed? e checks m o = some (x, k)) (hk : c.type.width ≤ k)
    (hlow : low c.type.width x = c.raw) :
    ∃ m', p.execute e checks m ⟨.push, .quad, [o]⟩ = .next m' ∧
      Passed known bottom slots n (c :: cs) [] m' := by
  have hfits := h.fits
  obtain ⟨hnext, hstate⟩ := hp.push h.state (by omega) hx
  refine ⟨_, hnext, hstate, h.holds.pushed h.fits hp.small hk hlow, (fun _ hy => nomatch hy), ?_⟩
  rw [length_cons]
  omega

theorem load (h : Passed known bottom slots n cs loaded m) (hr : r ≠ .rsp)
    (hfree : r ∉ loaded.map Prod.snd) (ho : denotes v o) (hc : evaluates v c) :
    ∃ m', p.execute e checks m ⟨.mov, .ofType v.type, [.reg r, o]⟩ = .next m' ∧
      Passed known bottom slots n cs ((c, r) :: loaded) m' := by
  have hread := hp.read?_eq ho hc h.state
  rw [← hp.type_eq hc] at hread ⊢
  refine ⟨m.load r c, execute_mov_reg hread, hp.load h.state hr,
    fun i c hc => ⟨(h.holds i c hc).settled, (h.holds i c hc).loaded⟩, ?_, h.fits⟩
  intro y hy
  rcases mem_cons.mp hy with rfl | hmem
  · exact Storage.has_load
  · refine (h.registers y hmem).load ?_
    rintro rfl
    exact hfree (mem_map_of_mem hmem)

theorem pushCode (h : Passed known bottom slots (n + 1) cs [] m) (ho : denotes v o)
    (hc : evaluates v c) :
    ∃ m', (p.machine e checks).block m (Amd64.pushCode v.type o) = .next m' ∧
      Passed known bottom slots n (c :: cs) [] m' := by
  unfold Amd64.pushCode
  split
  · rename_i hpushable
    have hread := hp.read?_eq ho hc h.state
    rw [← hp.type_eq hc] at hread hpushable
    obtain ⟨x, hx, hlow⟩ := exists_pushed? (hp.isValue ho) hpushable hread
    obtain ⟨m', hnext, hm'⟩ := h.push hp hx c.type.width_le hlow
    exact ⟨m', (block_singleton _).trans hnext, hm'⟩
  · -- A narrower operand goes through a register.
    obtain ⟨m₁, hmove, hm₁⟩ := h.load hp (r := .rax) (by decide) not_mem_nil ho hc
    have hrax := hm₁.registers _ mem_cons_self
    have hm₁ : Passed known bottom slots (n + 1) cs [] m₁ :=
      { hm₁ with registers := fun _ hy => nomatch hy }
    obtain ⟨m₂, hpush, hm₂⟩ := hm₁.push hp (o := .reg .rax) rfl hrax.determined hrax.low_eq
    exact ⟨m₂, (block_cons_of_next hmove).trans ((block_singleton _).trans hpush), hm₂⟩

theorem pushes {vs : List Value} {codes : List (List Instr)}
    (hcodes : List.Forall₂ (PushedBy denotes) vs codes)
    (hds : List.Forall₂ evaluates vs ds)
    (h : Passed known bottom slots (n + vs.length) cs [] m) :
    ∃ m', (p.machine e checks).block m codes.flatten = .next m' ∧
      Passed known bottom slots n (ds.reverse ++ cs) [] m' := by
  induction hcodes generalizing m cs ds with
  | nil =>
    cases hds
    exact ⟨m, rfl, h⟩
  | cons hcode _ ih =>
    cases hds with
    | cons hc hrest =>
      obtain ⟨o, ho, rfl⟩ := hcode
      obtain ⟨m₁, hblock, hm₁⟩ := h.pushCode hp ho hc
      obtain ⟨m₂, hblocks, hm₂⟩ := ih hrest hm₁
      refine ⟨m₂, ?_, ?_⟩
      · rw [flatten_cons, block_append_of_next hblock, hblocks]
      · rwa [reverse_cons, append_assoc]

theorem loads {vs : List (Value × Register)} {ds : List (Const × Register)} {moves : List Instr}
    (hmoves : List.Forall₂ (MovedBy denotes) vs moves)
    (hvs : ∀ x ∈ vs, x.2 ≠ .rsp)
    (hds : List.Forall₂ (fun x d => evaluates x.1 d.1 ∧ x.2 = d.2) vs ds)
    (hnodup : (vs.map Prod.snd ++ loaded.map Prod.snd).Nodup)
    (h : Passed known bottom slots n cs loaded m) :
    ∃ m', (p.machine e checks).block m moves = .next m' ∧
      Passed known bottom slots n cs (ds.reverse ++ loaded) m' := by
  induction hmoves generalizing m ds loaded with
  | nil =>
    cases hds
    exact ⟨m, rfl, h⟩
  | @cons x move vs moves hmove _ ih =>
    cases hds with
    | @cons _ d _ ds hd hrest =>
      obtain ⟨c, r⟩ := d
      obtain ⟨hc, rfl⟩ := hd
      obtain ⟨o, ho, rfl⟩ := hmove
      obtain ⟨hx, hvs⟩ := forall_mem_cons.mp hvs
      rw [map_cons, cons_append, nodup_cons] at hnodup
      obtain ⟨m₁, hnext, hm₁⟩ := h.load hp hx (fun hmem => hnodup.1 (mem_append_right _ hmem)) ho hc
      have hnodup' : (vs.map Prod.snd ++ ((c, x.2) :: loaded).map Prod.snd).Nodup :=
        nodup_middle.mpr (nodup_cons.mpr hnodup)
      obtain ⟨m₂, hblock, hm₂⟩ := ih hvs hrest hnodup' hm₁
      refine ⟨m₂, ?_, ?_⟩
      · rw [block_cons_of_next hnext, hblock]
      · rwa [reverse_cons, append_assoc]

/-- All arguments are passed, those on the stack first. -/
theorem pass {args : List Value} {codes : List (List Instr)} {moves : List Instr}
    (hcodes : List.Forall₂ (PushedBy denotes) (onStack args places).reverse codes)
    (hmoves : List.Forall₂ (MovedBy denotes) (inRegisters args places) moves)
    (hplaces : places = ArgumentPlace.ofTypes types) (hcs : List.Forall₂ evaluates args cs)
    (hm : known (n + (onStack args places).length) m)
    (hfits : n + (onStack args places).length ≤ slots) :
    ∃ m', (p.machine e checks).block m (codes.flatten ++ moves) = .next m' ∧
      Passed known bottom slots n (onStack cs places) (inRegisters cs places).reverse m' := by
  have hnone : Passed known bottom slots (n + (onStack args places).reverse.length) [] [] m := by
    rw [length_reverse]
    exact ⟨hm, (nofun), (fun _ h => nomatch h), hfits⟩
  obtain ⟨m₁, hpush, hm₁⟩ := hnone.pushes hp hcodes
    (forall₂_reverse_iff.mpr (forall₂_onStack hcs _))
  rw [reverse_reverse, append_nil] at hm₁
  obtain ⟨m₂, hmove, hm₂⟩ := hm₁.loads hp hmoves
    (fun x hx => ne_of_mem_inRegisters (hplaces ▸ hx) (by decide)) (forall₂_inRegisters hcs _)
    (by simpa [hplaces] using nodup_inRegisters args types)
  rw [append_nil] at hm₂
  exact ⟨m₂, by rw [block_append_of_next hpush, hmove], hm₂⟩

end Passed

variable {v : Value}

theorem LoweringContext.isValue_operandOf : (ctx.operandOf v).isValue = true := by
  cases v with
  | const c => rfl
  | var x => exact ctx.isValue_variableOperandOf x

/-- Some arguments of a call are on the stack and in registers, and the variables are as before. -/
abbrev Layout.Prepared (L : Layout ctx e) (bottom : Word) (slots : Nat) (s : SourceState) :
    Nat → List Const → List (Const × Register) → Storage → Prop :=
  Passed (fun n m => L.Matches (some (stackPointer bottom n)) s m) bottom slots

theorem Layout.passing (hp : p.Hosts L) (hroom : e.Room bottom slots) :
    p.Passing e (e.checks true) bottom slots
      (fun n m => L.Matches (some (stackPointer bottom n)) s m) (fun v o => o = ctx.operandOf v)
      (fun v c => L.HasValue v ∧ s.eval? ctx e v = some c) where
  small := hroom.small
  push h hn hx := h.push hroom hn hx
  load h hr := h.load hr
  type_eq h := SourceState.eval?_type h.2
  isValue h := h ▸ LoweringContext.isValue_operandOf
  read?_eq ho hc h := ho ▸ h.read?_operand hp hc.1 hc.2

section

end

/-! ### What the callee takes -/

theorem Storage.HasSlot.loadBytes_eq {a : Word} (h : m.HasSlot a c) {w : Width}
    (hw : w.bits ≤ c.type.width) : loadBytes m.bytes a w.size = low w.bits c.raw := by
  have hsize : w.size ≤ c.type.size := by
    rw [bits, ScalarType.width] at hw
    omega
  rw [← h.loaded, bits, low_loadBytes _ _ hsize c.type.size_le]

/-- The callee takes what three-address code passes. -/
theorem Layout.Prepared.argument?_eq_some {args : List Const} {loaded : List (Const × Register)}
    {symbol : String} {taken : ArgumentPlace × Width} {y : Word}
    (h : L.Prepared bottom slots s n (onStack args places) loaded m) (hroom : e.Room bottom slots)
    (hplaces : places = ArgumentPlace.ofTypes (args.map Const.type))
    (hloaded : inRegisters args places ⊆ loaded) (hpassed : ∀ d ∈ loaded, d.2 ∈ p.passedIn symbol)
    (hy : SourceState.argument? args taken = some y) :
    p.argument? e (e.checks true) m symbol taken = some y := by
  subst hplaces
  obtain ⟨⟨place, c⟩, hmem, hc⟩ := exists_of_findSome?_eq_some hy
  obtain ⟨place', w⟩ := taken
  simp only at hc
  split at hc
  · rename_i hplace
    obtain ⟨rfl, hw⟩ := hplace
    cases hc
    cases place with
    | reg r =>
      have hin := hloaded (mem_inRegisters hmem)
      have hhas := h.registers _ hin
      have hdetermined : w.bits ≤ m.determined (.reg r) := Nat.le_trans hw hhas.determined
      have hlow :=
        low_eq_of_le hw (hhas.low_eq.trans c.low_raw.symm)
      rw [argument?, if_pos ⟨hpassed _ hin, hdetermined⟩, hlow]
    | stack i =>
      obtain ⟨-, hget⟩ := getElem?_onStack hmem
      have hslot := h.holds i c hget
      have hi : i < (onStack args (ofTypes (args.map Const.type))).length :=
        (List.getElem?_eq_some_iff.mp hget).1
      have hfits := h.fits
      have hsize : w.size ≤ c.type.size := by
        rw [bits, ScalarType.width] at hw
        omega
      have hbytes := c.type.size_le
      have hwithin : within e .stack (slot bottom (n + i)) w.size = true := by
        simp only [within, all_eq_true, mem_range, decide_eq_true_eq]
        exact fun j hj => hroom.within (by omega) (by omega)
      have hsettled : ((range w.size).all fun j => m.settled (byteAt (slot bottom (n + i)) j)) =
          true := by
        simp only [all_eq_true, mem_range]
        exact fun j hj => hslot.settled j (by omega)
      have haddress : byteAt (slot bottom n) (8 * i) = slot bottom (n + i) := by
        rw [slot, slot, byteAt_byteAt, Nat.mul_add]
      simp only [argument?, h.state.fetch?_stack, Option.bind_some, haddress, hwithin,
        hsettled, Bool.and_self, if_true, hslot.loadBytes_eq hw]
  · cases hc

end

end ThreeAddress.Amd64
