import ThreeAddress.Amd64.Allocate
import ThreeAddress.Amd64.Convention
import ThreeAddress.Proofs.Control.Outlines

/-!
# Stack frames at work

How code uses the stack does not depend on most of what it computes.  Here a machine runs that code
with addresses that are plain integers.  The stack pointer, copies of whole registers, pushes and
pops are followed exactly; of everything else it is only known what it may change.  Two things are
taken for granted.  Callees restore the stack pointer, the base pointer and the registers that they
have to preserve.  Nobody overwrites the words that a frame guards, that is the return address and
the saved registers, through a pointer.
-/

namespace ThreeAddress.Amd64

open List Register Amd64.Frame Amd64.Instr

variable {r : Register}

/-! ### Registers and memory -/

/-- What is in the registers, and in the word of eight bytes that starts at an address. -/
structure Contents where
  registers : Register → Int
  words : Int → Int

namespace Contents

def set (s : Contents) (r : Register) (n : Int) : Contents :=
  { s with registers := Function.update s.registers r n }

@[simp] theorem registers_set_self (s : Contents) (r : Register) (n : Int) :
    (s.set r n).registers r = n := by
  simp [set]

@[simp] theorem registers_set_of_ne (s : Contents) {r' : Register} (n : Int) (h : r' ≠ r) :
    (s.set r n).registers r' = s.registers r' := by
  simp [set, h]

end Contents

def Apart (a b : Int) : Prop := a + 8 ≤ b ∨ b + 8 ≤ a

namespace Operand

/-- The value of an operand that is not in memory. -/
def value? (s : Contents) : Operand → Option Int
  | imm n => some n
  | reg r => some (s.registers r)
  | _ => none

/-- A store to an operand leaves a word alone.  A frame is addressed through the base pointer and
the stack pointer; every other store spares guarded words. -/
def Spares (guarded : Int → Prop) (s : Contents) (a : Int) : Operand → Prop
  | memory base offset =>
    if base = .rbp ∨ base = .rsp then Apart a (s.registers base + offset) else guarded a
  | data _ => guarded a
  | _ => True

end Operand

namespace Instr

/-- The register that is set by a copy of a whole word or by moving the stack pointer, with its new
value. -/
def assigns? (s : Contents) (i : Instr) : Option (Register × Int) :=
  match i.op, i.width, i.operands with
  | .mov, .quad, [.reg r, o] => (o.value? s).map (r, ·)
  | .add, .quad, [.reg .rsp, o] => (o.value? s).map fun n => (.rsp, s.registers .rsp + n)
  | .sub, .quad, [.reg .rsp, o] => (o.value? s).map fun n => (.rsp, s.registers .rsp - n)
  | _, _, _ => none

/-- What an operation on values may do.  Beyond addresses on the stack its results may be anything,
in all the operands of the instruction. -/
def Computes (guarded : Int → Prop) (i : Instr) (s s' : Contents) : Prop :=
  match i.assigns? s with
  | some (r, n) => s' = s.set r n
  | none =>
    (∀ r ∉ i.implicitWrites, .reg r ∉ i.operands → s'.registers r = s.registers r) ∧
      ∀ a, (∀ o ∈ i.operands, o.Spares guarded s a) → s'.words a = s.words a

def Allows (guarded : Int → Prop) (i : Instr) (s s' : Contents) : Prop :=
  match i.op, i.operands with
  | .label, _ | .jmp, _ | .jcc _, _ | .ret, _ => s' = s
  | .push, [o] =>
    s'.registers = (s.set .rsp (s.registers .rsp - 8)).registers ∧
      (∀ n, o.value? s = some n → s'.words (s.registers .rsp - 8) = n) ∧
      ∀ a, Apart a (s.registers .rsp - 8) → s'.words a = s.words a
  | .pop, [.reg r] =>
    s' = (s.set .rsp (s.registers .rsp + 8)).set r (s.words (s.registers .rsp))
  | .push, _ | .pop, _ => True
  | .call, _ =>
    (∀ r ∉ Register.callerSaved, s'.registers r = s.registers r) ∧
      ∀ a, guarded a → s'.words a = s.words a
  | _, _ => i.Computes guarded s s'

end Instr

/-- One step of a run.  Control goes on, or to the target of a jump; a run ends where it returns. -/
inductive Advances (guarded : Int → Prop) (code : List Instr) :
    Nat × Contents → Nat × Contents → Prop
  | step {k k' : Nat} {i : Instr} {s s' : Contents} (hi : code[k]? = some i) (hop : i.op ≠ .ret)
      (hs : i.Allows guarded s s') (hk : k' ∈ nextPositions Instr.flow code k) :
      Advances guarded code (k, s) (k', s')

/-! ### Frames -/

namespace Frame

/-- The address at which a frame keeps a register, given the stack pointer at entry. -/
def savedAt (f : Frame) (top : Int) (n : Nat) : Int := top - 8 - f.locals - 8 * (n + 1)

/-- The words that nobody overwrites: the return address, the base pointer of the caller and the
saved registers. -/
def Guarded (f : Frame) (top a : Int) : Prop :=
  a = top ∨ a = top - 8 ∨ ∃ n < f.saved.length, a = f.savedAt top n

/-- The distance from the base pointer to the stack pointer in the body of a procedure. -/
def size (f : Frame) : Nat := f.locals + 8 * f.saved.length

end Frame

/-- A frame after `n` registers are saved, with the stack pointer some bytes below the base
pointer. -/
structure Framed (f : Frame) (entry : Contents) (n bytes : Nat) (s : Contents) : Prop where
  rbp_eq : s.registers .rbp = entry.registers .rsp - 8
  rsp_eq : s.registers .rsp = entry.registers .rsp - 8 - bytes
  returnAddress : s.words (entry.registers .rsp) = entry.words (entry.registers .rsp)
  basePointer : s.words (entry.registers .rsp - 8) = entry.registers .rbp
  stored : ∀ {j : Nat} {r : Register}, j < n → f.saved[j]? = some r →
    s.words (f.savedAt (entry.registers .rsp) j) = entry.registers r
  kept : ∀ r ∈ Register.calleeSaved, r ∉ f.saved.take n → s.registers r = entry.registers r

/-- What is known at a position of a procedure. -/
inductive Known where
  /-- Nothing was done yet. -/
  | entered
  /-- The base pointer is saved. -/
  | linked
  | framed (n bytes : Nat)
  /-- All registers are saved, and a scratch register holds the given number. -/
  | loaded (bytes : Nat) (gap : Int)
  /-- Everything is restored. -/
  | returning
  /-- Control never gets here. -/
  | nowhere

namespace Known

/-- What is known of registers and memory. -/
def Holds (f : Frame) (entry s : Contents) : Known → Prop
  | entered => s = entry
  | linked =>
    s.registers .rsp = entry.registers .rsp - 8 ∧
      s.words (entry.registers .rsp) = entry.words (entry.registers .rsp) ∧
      s.words (entry.registers .rsp - 8) = entry.registers .rbp ∧
      ∀ r ∈ Register.calleeSaved, s.registers r = entry.registers r
  | framed n bytes => Framed f entry n bytes s
  | loaded bytes gap => Framed f entry f.saved.length bytes s ∧ s.registers .r10 = gap
  | returning =>
    s.words (entry.registers .rsp) = entry.words (entry.registers .rsp) ∧
      ∀ r ∈ Register.rsp :: .rbp :: Register.calleeSaved, s.registers r = entry.registers r
  | nowhere => False

/-- In the body of a procedure, with some bytes pushed. -/
def inBody (f : Frame) (depth : Nat) : Known := framed f.saved.length (f.size + depth)

end Known

/-! ### Instructions of procedures -/

/-- Operations that neither use the stack nor change the flow of control. -/
def Opcode.computes : Opcode → Bool
  | push | pop | call | ret | jmp | jcc _ | label => false
  | _ => true

/-- An operand at the base pointer is a stack slot of the frame or an argument of the procedure. -/
def InFrame (f : Frame) (offset : Int) : Prop :=
  (∃ k : Nat, offset = -(8 * k : Int) ∧ 8 ≤ 8 * k ∧ 8 * k ≤ f.locals) ∨
    ∃ n, offset = stackArgumentOffset n

/-- Operands that a procedure may use freely. -/
def Operand.IsTame (f : Frame) : Operand → Prop
  | reg r => r ≠ .rsp ∧ r ≠ .rbp ∧ (r ∈ Register.calleeSaved → r ∈ f.saved)
  | memory base offset => base ≠ .rsp ∧ (base = .rbp → InFrame f offset)
  | _ => True

/-- Instructions that leave the frame as it is. -/
structure Instr.IsPlain (f : Frame) (i : Instr) : Prop where
  computes : i.op.computes = true
  tame : ∀ o ∈ i.operands, o.IsTame f

/-- How the instructions of a procedure change what is known.  Jumps go to the given labels. -/
inductive Known.Moves (f : Frame) (targets : Label → Prop) : Known → Instr → Known → Prop
  | link : Moves f targets entered (.bare .push [.reg .rbp]) linked
  | base : Moves f targets linked (.bare .mov [.reg .rbp, .reg .rsp]) (framed 0 0)
  | reserve : Moves f targets (framed 0 0) (.bare .sub [.reg .rsp, .imm f.locals])
      (framed 0 f.locals)
  | save {n : Nat} {r : Register} (hr : f.saved[n]? = some r) :
      Moves f targets (framed n (f.locals + 8 * n)) (.bare .push [.reg r])
        (framed (n + 1) (f.locals + 8 * (n + 1)))
  | restore {n : Nat} {r : Register} (hr : f.saved[n]? = some r) :
      Moves f targets (framed (n + 1) (f.locals + 8 * (n + 1))) (.bare .pop [.reg r])
        (framed n (f.locals + 8 * n))
  | unwind : Moves f targets (framed 0 f.locals) (.bare .mov [.reg .rsp, .reg .rbp]) (framed 0 0)
  | unlink : Moves f targets (framed 0 0) (.bare .pop [.reg .rbp]) returning
  /-- Control does not go on after a return. -/
  | ret {b : Known} : Moves f targets returning (.bare .ret []) b
  | plain {d : Nat} {i : Instr} (hi : i.IsPlain f) : Moves f targets (inBody f d) i (inBody f d)
  | load {d : Nat} {n : Int} :
      Moves f targets (inBody f d) ⟨.mov, .quad, [.reg .r10, .imm n]⟩ (loaded (f.size + d) n)
  | lower {d n : Nat} :
      Moves f targets (inBody f d) ⟨.sub, .quad, [.reg .rsp, .imm n]⟩ (inBody f (d + n))
  | raise {d n : Nat} :
      Moves f targets (inBody f (d + n)) ⟨.add, .quad, [.reg .rsp, .imm n]⟩ (inBody f d)
  | lowerLoaded {d n : Nat} :
      Moves f targets (loaded (f.size + d) n) ⟨.sub, .quad, [.reg .rsp, .reg .r10]⟩
        (inBody f (d + n))
  | raiseLoaded {d n : Nat} :
      Moves f targets (loaded (f.size + (d + n)) n) ⟨.add, .quad, [.reg .rsp, .reg .r10]⟩
        (inBody f d)
  | push {d : Nat} {o : Operand} (ho : o.IsTame f) :
      Moves f targets (inBody f d) ⟨.push, .quad, [o]⟩ (inBody f (d + 8))
  /-- A double is stored where room was made for it. -/
  | spill {d : Nat} {r : Fin 16} :
      Moves f targets (inBody f (d + 8)) ⟨.mov, .double, [.memory .rsp 0, .reg (.xmm r)]⟩
        (inBody f (d + 8))
  | call {d : Nat} {symbol : String} (hd : d % 16 = 0) :
      Moves f targets (inBody f d) ⟨.call, .quad, [.callee symbol]⟩ (inBody f d)
  | label {l : Label} : Moves f targets (inBody f 0) (.label l) (inBody f 0)
  | jump {l : Label} (hl : targets l) :
      Moves f targets (inBody f 0) ⟨.jmp, .quad, [.label l]⟩ (inBody f 0)
  | branch {c : Condition} {l : Label} (hl : targets l) :
      Moves f targets (inBody f 0) ⟨.jcc c, .quad, [.label l]⟩ (inBody f 0)

/-! ### One step -/

namespace Framed

variable {f : Frame} {entry s s' : Contents} {n bytes bytes' : Nat}

theorem update (h : Framed f entry n bytes s) (hrbp : s'.registers .rbp = s.registers .rbp)
    (hrsp : s'.registers .rsp = entry.registers .rsp - 8 - bytes')
    (hwords : ∀ a, f.Guarded (entry.registers .rsp) a → s'.words a = s.words a)
    (hkept : ∀ r ∈ Register.calleeSaved, r ∉ f.saved.take n → s'.registers r = s.registers r) :
    Framed f entry n bytes' s' where
  rbp_eq := hrbp.trans h.rbp_eq
  rsp_eq := hrsp
  returnAddress := (hwords _ (.inl rfl)).trans h.returnAddress
  basePointer := (hwords _ (.inr (.inl rfl))).trans h.basePointer
  stored := by
    intro j r hj hr
    have hlength : j < f.saved.length := (List.getElem?_eq_some_iff.mp hr).1
    exact (hwords _ (.inr (.inr ⟨j, hlength, rfl⟩))).trans (h.stored hj hr)
  kept := fun r hr hr' => (hkept r hr hr').trans (h.kept r hr hr')

theorem of_unchanged (h : Framed f entry n bytes s)
    (hregisters : ∀ r ∈ Register.rsp :: .rbp :: Register.calleeSaved,
      s'.registers r = s.registers r)
    (hwords : ∀ a, f.Guarded (entry.registers .rsp) a → s'.words a = s.words a) :
    Framed f entry n bytes s' :=
  h.update (hregisters .rbp (by decide)) ((hregisters .rsp (by decide)).trans h.rsp_eq) hwords
    fun r hr _ => hregisters r (.tail _ (.tail _ hr))

theorem apart_of_guarded {a b : Int} (ha : f.Guarded (entry.registers .rsp) a)
    (hb : b + 8 ≤ entry.registers .rsp - 8 - f.size) : Apart a b := by
  refine .inr ?_
  unfold size at hb
  rcases ha with rfl | rfl | ⟨j, hj, rfl⟩
  · omega
  · omega
  · unfold savedAt
    omega

theorem apart_of_inFrame {a offset : Int} (h : Framed f entry n bytes s)
    (ha : f.Guarded (entry.registers .rsp) a) (hoffset : InFrame f offset) :
    Apart a (s.registers .rbp + offset) := by
  rw [h.rbp_eq]
  rcases hoffset with ⟨k, rfl, hk, hle⟩ | ⟨k, rfl⟩
  · rcases ha with rfl | rfl | ⟨j, hj, rfl⟩
    · exact .inr (by omega)
    · exact .inr (by omega)
    · refine .inl ?_
      unfold savedAt
      omega
  · refine .inl ?_
    unfold stackArgumentOffset
    rcases ha with rfl | rfl | ⟨j, hj, rfl⟩
    · omega
    · omega
    · unfold savedAt
      omega

end Framed

namespace Instr

variable {guarded : Int → Prop} {i : Instr} {s s' : Contents}

theorem allows_of_computes (hop : i.op.computes = true) :
    i.Allows guarded s s' = i.Computes guarded s s' := by
  obtain ⟨op, w, operands⟩ := i
  cases op <;> first | rfl | cases hop

theorem flow_of_computes (hop : i.op.computes = true) : i.flow = .next := by
  obtain ⟨op, w, operands⟩ := i
  cases op <;> first | rfl | cases hop

theorem mem_operands_of_assigns? {n : Int} (h : i.assigns? s = some (r, n)) :
    .reg r ∈ i.operands := by
  unfold assigns? at h
  split at h
  case h_4 => cases h
  all_goals
    rename_i hoperands
    obtain ⟨m, -, heq⟩ := Option.map_eq_some_iff.mp h
    cases heq
    rw [hoperands]
    exact .head _

/-- Operations on values change only the operands of the instruction, and registers that belong to
the operation. -/
theorem Computes.unchanged (h : i.Computes guarded s s') :
    (∀ r ∉ i.implicitWrites, .reg r ∉ i.operands → s'.registers r = s.registers r) ∧
      ∀ a, (∀ o ∈ i.operands, o.Spares guarded s a) → s'.words a = s.words a := by
  unfold Computes at h
  split at h
  · rename_i r n hassigns
    rw [h]
    refine ⟨fun r' _ hr' => s.registers_set_of_ne n ?_, fun _ _ => rfl⟩
    rintro rfl
    exact hr' (mem_operands_of_assigns? hassigns)
  · exact h

theorem mem_callerSaved_of_implicitWrites (hr : r ∈ i.implicitWrites) :
    r ∈ Register.callerSaved := by
  unfold implicitWrites at hr
  split at hr
  · exact (by decide : ∀ r ∈ [.rax, .rdx], r ∈ callerSaved) r hr
  · exact (by decide : ∀ r ∈ [.rax, .rdx], r ∈ callerSaved) r hr
  · exact (by decide : ∀ r ∈ [.rdx], r ∈ callerSaved) r hr
  · exact hr
  · cases hr

end Instr

theorem Register.not_mem_callerSaved (hr : r ∈ Register.rsp :: .rbp :: Register.calleeSaved) :
    r ∉ Register.callerSaved := by
  revert r
  decide

theorem Register.ne_of_mem_calleeSaved (hr : r ∈ Register.calleeSaved) : r ≠ .rsp ∧ r ≠ .rbp := by
  revert r
  decide

namespace Known.Moves

variable {f : Frame} {targets : Label → Prop} {entry s s' : Contents} {a b : Known} {i : Instr}
  {d n bytes : Nat}

theorem framed_of_isPlain (h : Framed f entry f.saved.length bytes s) (hi : i.IsPlain f)
    (hs : i.Allows (f.Guarded (entry.registers .rsp)) s s') :
    Framed f entry f.saved.length bytes s' := by
  rw [allows_of_computes hi.computes] at hs
  obtain ⟨hregisters, hwords⟩ := hs.unchanged
  have hkept {r : Register} (hr : r ∈ .rsp :: .rbp :: calleeSaved)
      (hmem : .reg r ∉ i.operands) : s'.registers r = s.registers r :=
    hregisters r
      (fun h => not_mem_callerSaved hr (mem_callerSaved_of_implicitWrites h))
      hmem
  have hrsp := hkept (by decide) fun hmem => (hi.tame _ hmem).1 rfl
  have hrbp := hkept (by decide) fun hmem => (hi.tame _ hmem).2.1 rfl
  refine h.update hrbp (hrsp.trans h.rsp_eq) (fun a ha => hwords a fun o ho => ?_) ?_
  · cases o with
    | memory base offset =>
      obtain ⟨hbase, hframe⟩ := hi.tame _ ho
      show if base = .rbp ∨ base = .rsp then Apart a (s.registers base + offset)
        else f.Guarded (entry.registers .rsp) a
      split
      · rename_i hcases
        obtain rfl := hcases.resolve_right hbase
        exact h.apart_of_inFrame ha (hframe rfl)
      · exact ha
    | data symbol => exact ha
    | _ => trivial
  · intro r hr hsaved
    rw [take_length] at hsaved
    exact hkept (.tail _ (.tail _ hr)) fun hmem => hsaved ((hi.tame _ hmem).2.2 hr)

theorem framed_of_moveStack {bytes' : Nat} {x : Int} (h : Framed f entry n bytes s)
    (hs : s' = s.set .rsp x) (hx : x = entry.registers .rsp - 8 - bytes') :
    Framed f entry n bytes' s' := by
  subst hs hx
  refine h.update (s.registers_set_of_ne _ (by decide)) (s.registers_set_self _ _)
    (fun _ _ => rfl) ?_
  exact fun r hr _ => s.registers_set_of_ne _ (ne_of_mem_calleeSaved hr).1

theorem framed_of_push {o : Operand} (h : Framed f entry f.saved.length (f.size + d) s)
    (hs : (⟨.push, .quad, [o]⟩ : Instr).Allows (f.Guarded (entry.registers .rsp)) s s') :
    Framed f entry f.saved.length (f.size + (d + 8)) s' := by
  obtain ⟨hregisters, -, hwords⟩ := hs
  refine h.update ?_ ?_ (fun a ha => hwords a (Framed.apart_of_guarded ha ?_)) fun r hr _ => ?_
  · rw [hregisters, s.registers_set_of_ne _ (by decide)]
  · rw [hregisters, s.registers_set_self, h.rsp_eq]
    omega
  · rw [h.rsp_eq]
    omega
  · rw [hregisters, s.registers_set_of_ne _ (ne_of_mem_calleeSaved hr).1]

theorem framed_of_save (hnodup : f.saved.Nodup) (hsaved : ∀ r ∈ f.saved, r ∈ Register.calleeSaved)
    (hr : f.saved[n]? = some r) (h : Framed f entry n (f.locals + 8 * n) s)
    (hs : (Instr.bare .push [.reg r]).Allows (f.Guarded (entry.registers .rsp)) s s') :
    Framed f entry (n + 1) (f.locals + 8 * (n + 1)) s' := by
  obtain ⟨hregisters, hvalue, hwords⟩ := hs
  have hne {r : Register} (hr : r ≠ .rsp) : s'.registers r = s.registers r := by
    rw [hregisters, s.registers_set_of_ne _ hr]
  have hcalleeSaved := hsaved r (mem_of_getElem? hr)
  have haddress : s.registers .rsp - 8 = f.savedAt (entry.registers .rsp) n := by
    rw [h.rsp_eq, Frame.savedAt]
    omega
  rw [haddress] at hregisters hvalue hwords
  refine ⟨(hne (by decide)).trans h.rbp_eq, ?_, ?_, ?_, ?_, ?_⟩
  · rw [hregisters, s.registers_set_self, Frame.savedAt]
    omega
  · exact (hwords _ (.inr (by unfold Frame.savedAt; omega))).trans h.returnAddress
  · exact (hwords _ (.inr (by unfold Frame.savedAt; omega))).trans h.basePointer
  · intro j r' hj hr'
    rcases Nat.lt_succ_iff_lt_or_eq.mp hj with hj | rfl
    · exact (hwords _ (.inr (by unfold Frame.savedAt; omega))).trans (h.stored hj hr')
    · obtain rfl : r = r' := Option.some.inj (hr.symm.trans hr')
      -- The register was not saved before, so it still holds what it held at entry.
      have hnot : r ∉ f.saved.take j := by
        intro hmem
        obtain ⟨hlength, heq⟩ := List.getElem?_eq_some_iff.mp hr
        obtain ⟨k, hk, hget⟩ := mem_take_iff_getElem.mp hmem
        have := (Nodup.getElem_inj_iff hnodup).mp (hget.trans heq.symm)
        omega
      rw [hvalue _ rfl, h.kept r hcalleeSaved hnot]
  · intro r' hr' hnot
    refine (hne (ne_of_mem_calleeSaved hr').1).trans (h.kept r' hr' fun hmem => hnot ?_)
    exact take_subset_take_left _ (Nat.le_succ n) hmem

theorem framed_of_restore (hsaved : ∀ r ∈ f.saved, r ∈ Register.calleeSaved)
    (hr : f.saved[n]? = some r) (h : Framed f entry (n + 1) (f.locals + 8 * (n + 1)) s)
    (hs : (Instr.bare .pop [.reg r]).Allows (f.Guarded (entry.registers .rsp)) s s') :
    Framed f entry n (f.locals + 8 * n) s' := by
  obtain ⟨hrsp, hrbp⟩ := ne_of_mem_calleeSaved (hsaved r (mem_of_getElem? hr))
  have haddress : s.registers .rsp = f.savedAt (entry.registers .rsp) n := by
    rw [h.rsp_eq, savedAt]
    omega
  obtain rfl : s' = (s.set .rsp (s.registers .rsp + 8)).set r (s.words (s.registers .rsp)) := hs
  refine ⟨?_, ?_, h.returnAddress, h.basePointer, ?_, ?_⟩
  · rw [Contents.registers_set_of_ne _ _ hrbp.symm]
    exact h.rbp_eq
  · rw [Contents.registers_set_of_ne _ _ hrsp.symm, Contents.registers_set_self, haddress, savedAt]
    omega
  · exact fun hj hr' => h.stored (Nat.lt_succ_of_lt hj) hr'
  · intro r' hr' hnot
    by_cases heq : r' = r
    · subst heq
      rw [Contents.registers_set_self, haddress]
      exact h.stored (Nat.lt_succ_self n) hr
    · have hne := (ne_of_mem_calleeSaved hr').1
      rw [Contents.registers_set_of_ne _ _ heq, Contents.registers_set_of_ne _ _ hne]
      refine h.kept r' hr' fun hmem => ?_
      rw [take_add_one, hr] at hmem
      rcases mem_append.mp hmem with hmem | hmem
      · exact hnot hmem
      · exact heq (mem_singleton.mp hmem)

/-- One step keeps what is known, unless it returns. -/
theorem holds (hnodup : f.saved.Nodup) (hsaved : ∀ r ∈ f.saved, r ∈ Register.calleeSaved)
    (h : Moves f targets a i b) (ha : a.Holds f entry s)
    (hs : i.Allows (f.Guarded (entry.registers .rsp)) s s') (hop : i.op ≠ .ret) :
    b.Holds f entry s' := by
  cases h with
  | link =>
    obtain rfl : s = entry := ha
    obtain ⟨hregisters, hvalue, hwords⟩ := hs
    refine ⟨?_, hwords _ (.inr (by omega)), hvalue _ rfl, fun r hr => ?_⟩
    · rw [hregisters, s.registers_set_self]
    · rw [hregisters, s.registers_set_of_ne _ (ne_of_mem_calleeSaved hr).1]
  | base =>
    obtain ⟨hrsp, hreturn, hbase, hkept⟩ := ha
    obtain rfl : s' = s.set .rbp (s.registers .rsp) := hs
    refine ⟨(s.registers_set_self _ _).trans hrsp, ?_, hreturn, hbase, nofun, ?_⟩
    · rw [s.registers_set_of_ne _ (by decide), hrsp]
      simp
    · intro r hr _
      rw [s.registers_set_of_ne _ (ne_of_mem_calleeSaved hr).2]
      exact hkept r hr
  | reserve => exact framed_of_moveStack ha hs (by simp [ha.rsp_eq])
  | save hr => exact framed_of_save hnodup hsaved hr ha hs
  | restore hr => exact framed_of_restore hsaved hr ha hs
  | unwind => exact framed_of_moveStack ha hs (by simp [ha.rbp_eq])
  | unlink =>
    obtain rfl : s' = (s.set .rsp (s.registers .rsp + 8)).set .rbp
      (s.words (s.registers .rsp)) := hs
    have hrsp : s.registers .rsp = entry.registers .rsp - 8 := by
      simpa using ha.rsp_eq
    refine ⟨ha.returnAddress, fun r hr => ?_⟩
    rcases mem_cons.mp hr with rfl | hr
    · rw [Contents.registers_set_of_ne _ _ (by decide), Contents.registers_set_self]
      omega
    rcases mem_cons.mp hr with rfl | hr
    · rw [hrsp]
      exact ha.basePointer
    · obtain ⟨hrsp, hrbp⟩ := ne_of_mem_calleeSaved hr
      rw [Contents.registers_set_of_ne _ _ hrbp, Contents.registers_set_of_ne _ _ hrsp]
      exact ha.kept r hr (by simp)
  | ret => exact absurd rfl hop
  | plain hi => exact framed_of_isPlain ha hi hs
  | @load d n =>
    obtain rfl : s' = s.set .r10 n := hs
    refine ⟨.of_unchanged ha (fun r hr => s.registers_set_of_ne n ?_) fun _ _ => rfl,
      s.registers_set_self _ _⟩
    rintro rfl
    exact not_mem_callerSaved hr (by decide)
  | lower | raise => exact framed_of_moveStack ha hs (by rw [Framed.rsp_eq ha]; omega)
  | lowerLoaded | raiseLoaded =>
    exact framed_of_moveStack ha.1 hs (by rw [ha.1.rsp_eq, ha.2]; omega)
  | push => exact framed_of_push ha hs
  | @spill d r =>
    obtain ⟨hregisters, hwords⟩ := Computes.unchanged
      (i := ⟨.mov, .double, [.memory .rsp 0, .reg (.xmm r)]⟩) hs
    refine .of_unchanged ha (fun r' hr' => hregisters r' (nofun) ?_)
      fun a ha' => ?_
    · have hne : r' ≠ .xmm r := by
        rintro rfl
        simp [calleeSaved] at hr'
      simp [hne]
    · have hrsp := ha.rsp_eq
      refine hwords a (forall_mem_cons.mpr ⟨?_, forall_mem_singleton.mpr trivial⟩)
      exact Framed.apart_of_guarded ha' (by omega)
  | call hd =>
    obtain ⟨hregisters, hwords⟩ := hs
    exact .of_unchanged ha (fun r hr => hregisters r (not_mem_callerSaved hr)) hwords
  | _ =>
    obtain rfl : s' = s := hs
    exact ha

theorem eq_inBody_of_target? {l : Label} (h : Moves f targets a i b)
    (hl : i.flow.target? = some l) : targets l ∧ b = inBody f 0 := by
  cases h with
  | jump hl' | branch hl' =>
    cases hl
    exact ⟨hl', rfl⟩
  | plain hi =>
    rw [flow_of_computes hi.computes] at hl
    cases hl
  | _ => cases hl

theorem eq_inBody_of_label {l : Label} (h : Moves f targets a i b) (hl : i.flow = .label l) :
    a = inBody f 0 := by
  cases h with
  | label => rfl
  | plain hi =>
    rw [flow_of_computes hi.computes] at hl
    cases hl
  | _ => cases hl

theorem inFrame {offset : Int} (h : Moves f targets a i b)
    (hmem : .memory .rbp offset ∈ i.operands) : InFrame f offset := by
  cases h with
  | plain hi => exact (hi.tame _ hmem).2 rfl
  | push ho =>
    rw [← mem_singleton.mp hmem] at ho
    exact ho.2 rfl
  | _ => simp [Instr.bare, Instr.label] at hmem

theorem exists_of_call (h : Moves f targets a i b) (hop : i.op = .call) :
    ∃ d, d % 16 = 0 ∧ a = inBody f d := by
  cases h with
  | @call d _ hd => exact ⟨d, hd, rfl⟩
  | plain hi => cases hop ▸ hi.computes
  | _ => cases hop

theorem eq_returning_of_ret (h : Moves f targets a i b) (hop : i.op = .ret) : a = returning := by
  cases h with
  | ret => rfl
  | plain hi => cases hop ▸ hi.computes
  | _ => cases hop

end Known.Moves

/-! ### Runs -/

theorem Instr.op_of_flow_ret {i : Instr} (h : i.flow = .ret) : i.op = .ret := by
  unfold flow at h
  split at h <;> first | assumption | cases h

section

variable {f : Frame} {targets : Label → Prop} {entry : Contents} {code : List Instr}

/-- Every run keeps what is known, if jumps go to labels of the code. -/
theorem exists_known (hnodup : f.saved.Nodup) (hsaved : ∀ r ∈ f.saved, r ∈ Register.calleeSaved)
    (hcode : Leads (Known.Moves f targets) .entered code .nowhere)
    (htargets : ∀ l, targets l → .label l ∈ code)
    {k : Nat} {s : Contents}
    (hrun : Relation.ReflTransGen (Advances (f.Guarded (entry.registers .rsp)) code)
      (0, entry) (k, s)) :
    ∃ a, Leads (Known.Moves f targets) a (code.drop k) .nowhere ∧ a.Holds f entry s := by
  generalize hend : (k, s) = t at hrun
  induction hrun generalizing k s with
  | refl =>
    cases hend
    exact ⟨.entered, hcode, rfl⟩
  | tail _ hstep ih =>
    subst hend
    obtain @⟨k₀, _, i, s₀, _, hi, hop, hs, hk⟩ := hstep
    obtain ⟨a, hlead, ha⟩ := ih rfl
    rw [Outline.drop_eq_cons hi] at hlead
    cases hlead with
    | @cons _ b _ _ _ hmoves hrest =>
      have hb := hmoves.holds hnodup hsaved ha hs hop
      rcases cases_of_mem_nextPositions hi hk with rfl | ⟨l, hl, rfl⟩ | hret
      · exact ⟨b, hrest, hb⟩
      · -- The label is reached with nothing pushed, which is known after the jump, too.
        obtain ⟨htarget, rfl⟩ := hmoves.eq_inBody_of_target? hl
        obtain ⟨i', hi', hflow⟩ :=
          getElem?_targetPosition_of_mem (htargets l htarget)
            (show (label l).flow = .label l from rfl)
        obtain ⟨c, hc⟩ := hcode.drop (targetPosition flow code l)
        rw [Outline.drop_eq_cons hi'] at hc ⊢
        cases hc with
        | @cons _ c' _ _ _ hmoves' hrest' =>
          have hlabel := hmoves'.eq_inBody_of_label hflow
          subst hlabel
          exact ⟨_, .cons hmoves' hrest', hb⟩
      · exact absurd (op_of_flow_ret hret) hop

end

/-! ### Setting up and removing frames -/

namespace Frame

variable (f : Frame) (targets : Label → Prop)

theorem leads_saves (n : Nat) (hn : n ≤ f.saved.length) :
    Leads (Known.Moves f targets) (.framed n (f.locals + 8 * n))
      ((f.saved.drop n).map fun r => .bare .push [.reg r]) (.inBody f 0) := by
  induction hk : f.saved.length - n generalizing n with
  | zero =>
    obtain rfl : n = f.saved.length := by omega
    rw [drop_length]
    exact .nil _
  | succ k ih =>
    have hlt : n < f.saved.length := by omega
    rw [drop_eq_getElem_cons hlt]
    exact .cons (.save (getElem?_eq_getElem hlt)) (ih (n + 1) hlt (by omega))

/-- A frame is set up. -/
theorem leads_prologue :
    Leads (Known.Moves f targets) .entered (f.prologue.map Prod.fst) (.inBody f 0) := by
  have hsaves := f.leads_saves targets 0 (Nat.zero_le _)
  have hreserve : Leads (Known.Moves f targets) (.framed 0 0)
      (if f.locals = 0 then [] else [.bare .sub [.reg .rsp, .imm f.locals]])
        (.framed 0 f.locals) := by
    split
    · rename_i hlocals
      rw [hlocals]
      exact .nil _
    · exact .single .reserve
  have hcode : f.prologue.map Prod.fst =
      [.bare .push [.reg .rbp], .bare .mov [.reg .rbp, .reg .rsp]] ++
      (if f.locals = 0 then [] else [.bare .sub [.reg .rsp, .imm f.locals]]) ++
        f.saved.map fun r => .bare .push [.reg r] := by
    unfold prologue
    split <;> simp
  rw [hcode]
  exact (Leads.append (.cons .link (.single .base)) hreserve).append hsaves

theorem leads_restores (n : Nat) (hn : n ≤ f.saved.length) :
    Leads (Known.Moves f targets) (.framed n (f.locals + 8 * n))
      ((f.saved.take n).reverse.map fun r => .bare .pop [.reg r]) (.framed 0 f.locals) := by
  induction n with
  | zero => exact .nil _
  | succ n ih =>
    have hget := getElem?_eq_getElem hn
    rw [take_add_one, hget, reverse_append]
    exact .cons (.restore hget) (ih (Nat.le_of_succ_le hn))

/-- A frame is removed, and control goes back to the caller. -/
theorem leads_epilogue (b : Known) :
    Leads (Known.Moves f targets) (.inBody f 0) (f.epilogue.map Prod.fst) b := by
  have hrestores := f.leads_restores targets _ (Nat.le_refl _)
  rw [take_length] at hrestores
  unfold epilogue
  rw [map_append, map_map]
  exact hrestores.append (.cons .unwind (.cons .unlink (.single .ret)))

theorem rsp_eq_of_epilogue {targets : Label → Prop} (hnodup : f.saved.Nodup)
    (hsaved : ∀ r ∈ f.saved, r ∈ Register.calleeSaved) {code : List Instr} {a b : Known}
    {entry s : Contents}
    (hcode : Leads (Known.Moves f targets) a (f.epilogue.map Prod.fst ++ code) b)
    (ha : a.Holds f entry s) : s.registers .rsp = s.registers .rbp - f.size := by
  have hframed {n : Nat} (h : Framed f entry n f.size s) :
      s.registers .rsp = s.registers .rbp - f.size := by
    rw [h.rsp_eq, h.rbp_eq]
  unfold epilogue at hcode
  rcases eq_nil_or_concat f.saved with hnil | ⟨init, r, hconcat⟩
  · rw [hnil] at hcode
    cases hcode with
    | cons hmoves _ =>
      cases hmoves with
      | unwind =>
        have hsize : f.size = f.locals := by simp [size, hnil]
        exact hframed (hsize.symm ▸ ha)
      | plain hi => exact absurd rfl (hi.tame _ (.head _)).1
  · -- Only the epilogue restores the register that was saved last.
    have hlast : f.saved[init.length]? = some r := by simp [hconcat]
    rw [hconcat, concat_eq_append, reverse_append] at hcode
    cases hcode with
    | cons hmoves _ =>
      cases hmoves with
      | @restore n _ hr =>
        obtain ⟨hn, hget⟩ := List.getElem?_eq_some_iff.mp hr
        obtain ⟨hn', hget'⟩ := List.getElem?_eq_some_iff.mp hlast
        have hlength : f.saved.length = n + 1 := by
          rw [(Nodup.getElem_inj_iff hnodup).mp (hget.trans hget'.symm)]
          simp [hconcat]
        have hsize : f.size = f.locals + 8 * (n + 1) := by rw [size, hlength]
        exact hframed (hsize.symm ▸ ha)
      | unlink =>
        have hrbp := hsaved .rbp (mem_of_getElem? hlast)
        exact absurd rfl (ne_of_mem_calleeSaved hrbp).2
      | plain hi => cases hi.computes

end Frame

end ThreeAddress.Amd64
