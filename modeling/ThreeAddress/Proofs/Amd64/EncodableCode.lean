import ThreeAddress.Proofs.Amd64.AllocatedBodies
import ThreeAddress.Proofs.Amd64.EncodableParts
import ThreeAddress.Proofs.Amd64.TemporaryNames

/-!
# Encodable code

What is emitted can be encoded.  Allocation leaves no pseudo register, and keeps variables in memory
whose address is taken.  The forms that instructions are brought into have only operands that their
positions accept, and need no second treatment.
-/

namespace ThreeAddress.Amd64

open List Operand

variable {stackSize : Nat}

/-! ### Instructions that can be encoded -/

/-- An operand of a kind that a position accepts. -/
def Accepts.Allows (a : Accepts) (o : Operand) : Prop :=
  (a.imm = false → ∀ n, o ≠ .imm n) ∧ (a.memory = false → o.isMemory = false)

/-- An instruction whose operands are accepted in their positions.  Immediates fit into 32 bits but
in a copy to a register, and at most one operand is in memory.  Addresses are those of operands in
memory, and counts of shifts are immediates or in `rcx`. -/
structure Instr.IsEncodable (i : Instr) : Prop where
  first : ∀ o ∈ i.operands.head?, i.acceptsFirst.Allows o
  later : ∀ o ∈ i.operands.tail, i.acceptsLater.Allows o
  narrow : ∀ n, .imm n ∈ i.operands →
    (-2 ^ 31 ≤ n ∧ n < 2 ^ 31) ∨ i.op = .mov ∧ ∃ r, i.operands = [.reg r, .imm n]
  memory : i.operands.countP Operand.isMemory ≤ 1
  address : i.op = .lea → ∃ d s, i.operands = [d, s] ∧ s.isMemory = true
  count : i.op ∈ [.sal, .sar, .shr] →
    ∃ d s, i.operands = [d, s] ∧ (s = .reg .rcx ∨ ∃ n, s = .imm n)

/-- The count of a shift is in a register or a byte. -/
def Operand.IsCount (o : Operand) : Prop := o = .reg .rcx ∨ ∃ n : Int, o = .imm n ∧ 0 ≤ n ∧ n < 256

/-- What has to be known of an instruction so that its form can be encoded. -/
structure Instr.IsReady (i : Instr) : Prop where
  widths : i.operands.length ≤ i.operandWidths.length
  length_le : i.operands.length ≤ 2
  /-- An immediate in the first position is only compared, divided by or pushed. -/
  first : ∀ n, i.operands[0]? = some (.imm n) → i.op ≠ .mov ∧ i.width ≠ .double ∧
    ∀ d, i.directions[0]? = some d → d.writes = false
  second : ∀ n w, i.operands[1]? = some (.imm n) → i.operandWidths[1]? = some w → w ≠ .double
  address : i.op = .lea → ∃ d s, i.operands = [d, s] ∧ s.isMemory = true
  count : i.op ∈ [.sal, .sar, .shr] → ∃ d s, i.operands = [d, s] ∧ s.IsCount
  push : i.op = .push → i.width = .quad ∧ ∃ o, i.operands = [o]

namespace Instr

variable {i j : Instr} {o first second : Operand} {a : Accepts} {wideImm : Bool}

/-! ### Refused operands -/

theorem isWideImm_iff {n : Int} : (Operand.imm n).isWideImm = false ↔ -2 ^ 31 ≤ n ∧ n < 2 ^ 31 := by
  simp only [isWideImm, Bool.or_eq_false_iff, decide_eq_false_iff_not]
  omega

theorem refused_eq_false_iff : refused a wideImm o = false ↔
    a.Allows o ∧ ∀ n, o = .imm n → wideImm = true ∨ (-2 ^ 31 ≤ n ∧ n < 2 ^ 31) := by
  cases o with
  | imm n =>
    simp only [refused, Accepts.Allows, isMemory, Bool.or_eq_false_iff, Bool.not_eq_false',
      Bool.and_eq_false_iff, isWideImm_iff]
    cases a.imm <;> simp [or_comm]
  | _ => simp [refused, Accepts.Allows, isMemory]

theorem kind_of_refused (h : refused a wideImm o = true) : o.isMemory = true ∨ ∃ n, o = .imm n := by
  cases o with
  | imm n => exact .inr ⟨n, rfl⟩
  | memory | data => exact .inl rfl
  | _ => cases h

/-! ### Forms that stay -/

namespace IsEncodable

variable {rest : List Operand} (h : i.IsEncodable)

include h

theorem isFirstIllegal_eq (hoperands : i.operands = first :: rest) :
    i.isFirstIllegal first = false := by
  refine refused_eq_false_iff.mpr ⟨h.first first (by rw [hoperands]; rfl), ?_⟩
  rintro n rfl
  rcases h.narrow n (by simp [hoperands]) with hn | ⟨-, r, hr⟩
  · exact .inr hn
  · exact nomatch hoperands.symm.trans hr

theorem isSecondIllegal_eq (hoperands : i.operands = first :: second :: rest) :
    i.isSecondIllegal first second = false := by
  refine Bool.or_eq_false_iff.mpr ⟨refused_eq_false_iff.mpr ⟨?_, ?_⟩, ?_⟩
  · exact h.later second (by simp [hoperands])
  · rintro n rfl
    rcases h.narrow n (by simp [hoperands]) with hn | ⟨hop, r, hr⟩
    · exact .inr hn
    · cases hoperands.symm.trans hr
      simp [hop, isReg]
  · have hcount := h.memory
    cases hfirst : first.isMemory <;> cases hsecond : second.isMemory <;> simp_all

theorem legalise_eq (hmove : i.isSelfMove = false)
    (hpush : ∀ r, i.op = .push → i.operands = [.reg r] → r.isSse = false) : i.legalise = [i] := by
  have hoperands : i.legaliseOperands = [i] := by
    unfold legaliseOperands
    split
    · rename_i hoperands _ _
      simp [legaliseFirst, h.isFirstIllegal_eq hoperands, ← hoperands]
    · rename_i hoperands _ _
      simp [legaliseFirst, h.isFirstIllegal_eq hoperands, legaliseSecond,
        h.isSecondIllegal_eq hoperands, ← hoperands]
    · rfl
  unfold legalise
  rw [hmove, if_neg Bool.false_ne_true]
  split
  · rename_i r hop hregister
    rw [hpush r hop hregister, if_neg Bool.false_ne_true, hoperands]
  · exact hoperands

end IsEncodable

/-- What can be encoded and is left as it is. -/
def Stays (i : Instr) : Prop := i.IsEncodable ∧ i.legalise = [i]

theorem stays_pair (hoperands : i.operands = [first, second])
    (hfirst : i.isFirstIllegal first = false) (hsecond : i.isSecondIllegal first second = false)
    (haddress : i.op = .lea → second.isMemory = true)
    (hcount : i.op ∈ [.sal, .sar, .shr] → second = .reg .rcx ∨ ∃ n, second = .imm n)
    (hne : i.op = .mov → first ≠ second) : i.Stays := by
  obtain ⟨hfirst, hnarrow⟩ := refused_eq_false_iff.mp hfirst
  obtain ⟨hrefused, hboth⟩ := Bool.or_eq_false_iff.mp hsecond
  obtain ⟨hsecond, hnarrow'⟩ := refused_eq_false_iff.mp hrefused
  have hencodable : i.IsEncodable := by
    refine ⟨?_, ?_, fun n hn => ?_, ?_, fun hop => ⟨_, _, hoperands, haddress hop⟩,
      fun hop => ⟨_, _, hoperands, hcount hop⟩⟩
    · rw [hoperands]
      rintro o ⟨⟩
      exact hfirst
    · rw [hoperands]
      exact forall_mem_singleton.mpr hsecond
    · simp only [hoperands, mem_cons, not_mem_nil, or_false] at hn
      rcases hn with rfl | rfl
      · exact .inl ((hnarrow n rfl).resolve_left Bool.false_ne_true)
      · rcases hnarrow' n rfl with hwide | hn
        · obtain ⟨hop, hreg⟩ := Bool.and_eq_true_iff.mp hwide
          cases first with
          | reg r => exact .inr ⟨eq_of_beq hop, r, hoperands⟩
          | _ => cases hreg
        · exact .inl hn
    · cases hf : first.isMemory <;> cases hs : second.isMemory <;> simp_all
  refine ⟨hencodable, hencodable.legalise_eq ?_ fun r _ hr => ?_⟩
  · rw [← Bool.not_eq_true, isSelfMove_iff]
    rintro ⟨hop, o, ho⟩
    cases hoperands.symm.trans ho
    exact hne hop rfl
  · cases hoperands.symm.trans hr

theorem stays_single (hoperands : i.operands = [first])
    (hfirst : i.isFirstIllegal first = false) (hop : i.op ∉ [.lea, .sal, .sar, .shr])
    (hpush : ∀ r, i.op = .push → first = .reg r → r.isSse = false) : i.Stays := by
  obtain ⟨hfirst, hnarrow⟩ := refused_eq_false_iff.mp hfirst
  have hencodable : i.IsEncodable := by
    refine ⟨?_, ?_, fun n hn => ?_, ?_, fun h => ?_, fun h => ?_⟩
    · rw [hoperands]
      rintro o ⟨⟩
      exact hfirst
    · rw [hoperands]
      exact nofun
    · rw [hoperands, mem_singleton] at hn
      subst hn
      exact .inl ((hnarrow n rfl).resolve_left Bool.false_ne_true)
    · rw [hoperands]
      exact countP_le_length
    · exact absurd (mem_cons.mpr (.inl h)) hop
    · exact absurd (mem_cons_of_mem _ h) hop
  refine ⟨hencodable, hencodable.legalise_eq ?_ fun r hop hr => hpush r hop ?_⟩
  · rw [← Bool.not_eq_true, isSelfMove_iff]
    rintro ⟨-, o, ho⟩
    exact nomatch hoperands.symm.trans ho
  · cases hoperands.symm.trans hr
    rfl

theorem isSecondIllegal_mov (hop : i.op = .mov) (hw : ∀ n, o = .imm n → i.width ≠ .double)
    (r : Register) : i.isSecondIllegal (.reg r) o = false := by
  obtain ⟨op, w, operands⟩ := i
  subst hop
  cases o with
  | imm n =>
    cases w <;> simp_all [isSecondIllegal, refused, acceptsLater, Accepts.any, isReg, isMemory]
  | _ => cases w <;> rfl

theorem stays_load {w : Width} (r : Register) (ho : o.isMemory = true ∨ ∃ n, o = .imm n)
    (hw : ∀ n, o = .imm n → w ≠ .double) : Stays ⟨.mov, w, [.reg r, o]⟩ := by
  refine stays_pair rfl rfl (isSecondIllegal_mov rfl hw r) nofun (fun h => absurd h (by simp))
    fun _ h => ?_
  subst h
  rcases ho with ho | ⟨n, ho⟩ <;> cases ho

theorem stays_store {w : Width} (r : Register) (ho : o.isMemory = true) :
    Stays ⟨.mov, w, [o, .reg r]⟩ := by
  refine stays_pair rfl ?_ ?_ nofun (fun h => absurd h (by simp)) fun _ h => ?_
  · cases o <;> first | rfl | cases ho
  · rfl
  · subst h
    cases ho

/-! ### Encodable forms -/

variable {operands : List Operand}

theorem stays_push (hj : j ∈ legalise ⟨.push, .quad, [o]⟩) : j.Stays := by
  have hkept (hsse : ∀ r, o = .reg r → r.isSse = false)
      (hlegal : isFirstIllegal ⟨.push, .quad, [o]⟩ o = false) : Stays ⟨.push, .quad, [o]⟩ :=
    stays_single rfl hlegal (by simp) fun r _ => hsse r
  have hlone : legaliseOperands ⟨.push, .quad, [o]⟩ = _ := legaliseOperands_lone rfl rfl
  cases o with
  | reg r =>
    cases r with
    | xmm n =>
      rcases mem_cons.mp hj with rfl | hj
      · exact stays_pair rfl rfl rfl nofun (fun h => absurd h (by decide)) nofun
      · rw [mem_singleton.mp hj]
        exact stays_store _ rfl
    | _ =>
      rw [mem_singleton.mp hj]
      exact hkept (by rintro _ ⟨⟩; rfl) rfl
  | imm n =>
    have heq : legalise ⟨.push, .quad, [.imm n]⟩ = _ := hlone
    rw [heq] at hj
    split at hj
    · rcases mem_cons.mp hj with rfl | hj
      · exact stays_load _ (.inr ⟨n, rfl⟩) nofun
      · rw [mem_singleton.mp hj]
        exact stays_single rfl rfl (by simp) (by rintro _ - ⟨⟩; rfl)
    · rename_i hlegal
      rw [mem_singleton.mp hj]
      exact hkept nofun (Bool.not_eq_true _ ▸ hlegal)
  | _ =>
    rw [mem_singleton.mp hj]
    exact hkept nofun rfl

theorem isFirstIllegal_of_stands {first' : Operand}
    (hfirst : Stands (i.isFirstIllegal first) first first') : i.isFirstIllegal first' = false := by
  cases hfirst with
  | same h => exact h
  | scratch => rfl

theorem isSecondIllegal_lea (hop : i.op = .lea) (hsecond : second.isMemory = true)
    (hfirst : i.isFirstIllegal first = false) : i.isSecondIllegal first second = false := by
  obtain ⟨op, w, operands⟩ := i
  subst hop
  cases second with
  | memory | data => cases first <;> first | rfl | cases hfirst
  | _ => cases hsecond

theorem isSecondIllegal_shift (hop : i.op ∈ [.sal, .sar, .shr]) (hcount : second.IsCount) :
    i.isSecondIllegal first second = false := by
  have haccepts : i.acceptsLater = .regOrImm := by
    obtain ⟨op, w, operands⟩ := i
    fin_cases hop <;> rfl
  rcases hcount with rfl | ⟨n, rfl, hn⟩
  · rfl
  · refine Bool.or_eq_false_iff.mpr ⟨refused_eq_false_iff.mpr ⟨?_, ?_⟩, rfl⟩
    · rw [haccepts]
      exact ⟨nofun, fun _ => rfl⟩
    · rintro _ ⟨⟩
      exact .inr (by omega)

namespace IsReady

variable {first' second' : Operand} (h : i.IsReady)

include h

theorem ne_of_stands (hmove : i.isSelfMove = false) (hop : i.op = .mov)
    (hoperands : i.operands = [first, second])
    (hfirst : Stands (i.isFirstIllegal first) first first')
    (hsecond : Stands (i.isSecondIllegal first' second) second second') : first' ≠ second' := by
  -- A copy accepts anything but an immediate first, so only its source can be replaced.
  have hlegal : i.isFirstIllegal first = false := by
    have hne : ∀ n, first ≠ .imm n := by
      rintro n rfl
      exact (h.first n (by rw [hoperands]; rfl)).1 hop
    obtain ⟨op, w, operands⟩ := i
    subst hop
    cases first <;> first | rfl | exact absurd rfl (hne _)
  rw [hlegal] at hfirst
  cases hfirst with
  | scratch hillegal => cases hillegal
  | same =>
    rintro rfl
    generalize hillegal : i.isSecondIllegal first second = illegal at hsecond
    cases hsecond with
    | same => exact Bool.false_ne_true (hmove.symm.trans (isSelfMove_iff.mpr ⟨hop, _, hoperands⟩))
    | @scratch r hrefused =>
      refine Bool.false_ne_true ((isSecondIllegal_mov hop ?_ r).symm.trans
        (hillegal.trans hrefused))
      rintro n rfl
      refine h.second n i.width (by rw [hoperands]; rfl) ?_
      obtain ⟨op, w, operands⟩ := i
      cases hop
      cases hoperands
      rfl

theorem op_not_mem (hone : i.operands.length ≠ 2) : i.op ∉ [.lea, .sal, .sar, .shr] := by
  intro hop
  rcases mem_cons.mp hop with hop | hop
  · obtain ⟨d, s, hoperands, -⟩ := h.address hop
    exact hone (by rw [hoperands]; rfl)
  · obtain ⟨d, s, hoperands, -⟩ := h.count hop
    exact hone (by rw [hoperands]; rfl)

end IsReady

theorem stays_of_mem_legalise (h : i.IsReady) (hj : j ∈ i.legalise) : j.Stays := by
  have hmove : i.isSelfMove = false := by
    rw [← Bool.not_eq_true]
    intro hmove
    rw [legalise, if_pos hmove] at hj
    cases hj
  by_cases hpush : i.op = .push
  · obtain ⟨hwidth, o, ho⟩ := h.push hpush
    obtain ⟨op, w, operands⟩ := i
    cases hpush
    cases hwidth
    cases ho
    exact stays_push hj
  cases part_of_mem_legalise hj h.widths with
  | @loadFirst first r hfirst hillegal hr =>
    refine stays_load r (kind_of_refused hillegal) ?_
    rintro n rfl
    exact (h.first n hfirst).2.1
  | @storeFirst first r d hfirst hillegal hd hr =>
    refine stays_store r ((kind_of_refused hillegal).resolve_right ?_)
    rintro ⟨n, rfl⟩
    exact Bool.false_ne_true (((h.first n hfirst).2.2 d hd.1).symm.trans hd.2)
  | @loadSecond first second first' rest r w hoperands hfirst hillegal hw hr =>
    refine stays_load r ?_ ?_
    · rcases (Bool.or_eq_true _ _).mp hillegal with hrefused | hboth
      · exact kind_of_refused hrefused
      · exact Or.inl (Bool.and_eq_true_iff.mp hboth).1
    · rintro n rfl
      exact h.second n w (by rw [hoperands]; rfl) hw
  | none hoperands =>
    have hop := h.op_not_mem (by simp [hoperands])
    have henc : i.IsEncodable := ⟨by simp [hoperands], by simp [hoperands], by simp [hoperands],
      by simp [hoperands], fun h => absurd (mem_cons.mpr (Or.inl h)) hop,
      fun h => absurd (mem_cons_of_mem _ h) hop⟩
    exact ⟨henc, henc.legalise_eq hmove fun r hop => absurd hop hpush⟩
  | @one first first' hoperands hfirst =>
    exact stays_single rfl (isFirstIllegal_of_stands hfirst)
      (h.op_not_mem (by simp [hoperands])) fun _ hop => absurd hop hpush
  | @two first second first' second' rest hoperands hfirst hsecond =>
    obtain rfl : rest = [] := by
      have hlength := h.length_le
      rw [hoperands] at hlength
      exact eq_nil_of_length_eq_zero (Nat.le_zero.mp (by simpa using hlength))
    have hfirst' := isFirstIllegal_of_stands hfirst
    -- Addresses and counts are never refused, so no scratch register stands for them.
    have hkept (hlegal : i.isSecondIllegal first' second = false) : second' = second := by
      rw [hlegal] at hsecond
      cases hsecond with
      | same => rfl
      | scratch h => cases h
    have hlegal : i.isSecondIllegal first' second' = false := by
      cases hsecond with
      | same h => exact h
      | scratch => rfl
    refine stays_pair rfl hfirst' hlegal (fun hop => ?_)
      (fun hop => ?_) fun hop => h.ne_of_stands hmove hop hoperands hfirst hsecond
    · obtain ⟨d, s, heq, hs⟩ := h.address hop
      cases hoperands.symm.trans heq
      rw [hkept (isSecondIllegal_lea hop hs hfirst')]
      exact hs
    · obtain ⟨d, s, heq, hs⟩ := h.count hop
      cases hoperands.symm.trans heq
      rw [hkept (isSecondIllegal_shift hop hs)]
      exact hs.imp_right fun ⟨n, hn, _⟩ => ⟨n, hn⟩
  | pushSse hop => exact absurd hop hpush

/-! ### Allocated code -/

section

variable {k : Instr} {F : Forms} {aliased : NameSet} {targets : Label → Prop} {n : Int}

theorem HasForm.first_imm (h : k.HasForm F targets) (hn : k.operands[0]? = some (.imm n)) :
    k.op ∈ [.cmp, .comisd, .idiv, .div, .push] ∧
      (k.width = .quad ∨ k.operandWidths[0]? = some k.width) := by
  cases h with
  | compare | compareDoubles => exact ⟨by simp, .inr rfl⟩
  | divide _ hop => fin_cases hop <;> exact ⟨by simp, .inr rfl⟩
  | push => exact ⟨by simp, .inl rfl⟩
  | copy hd | truncate _ hd | ofRegister _ hd | ofStack hd | load _ hd | combine _ hd | modify _ hd
  | shift _ _ hd | shiftByRegister _ _ hd | setByte _ hd | extend _ hd | toDouble hd | toInteger hd
  | address hd =>
    cases hn
    cases hd.1
  | _ => cases hn

/-- No immediate is accessed as a double. -/
theorem HasForm.width_ne_double (h : k.HasForm (.tracked aliased) targets) :
    ∀ x ∈ k.operands.zip k.operandWidths, x.2 = .double → ∀ n, x.1 ≠ .imm n := by
  have hpair {op : Opcode} {w v v' : Width} {d s : Operand}
      (hwidths : (⟨op, w, [d, s]⟩ : Instr).operandWidths = [v, v'])
      (hd : v = .double → ∀ n, d ≠ .imm n) (hs : v' = .double → ∀ n, s ≠ .imm n) :
      ∀ x ∈ [d, s].zip (⟨op, w, [d, s]⟩ : Instr).operandWidths,
        x.2 = .double → ∀ n, x.1 ≠ .imm n := by
    rw [hwidths]
    exact forall_mem_cons.mpr ⟨hd, forall_mem_singleton.mpr hs⟩
  cases h with
  | copy hd hs | compare hd hs | compareDoubles hd hs | toDouble hd hs | toInteger hd hs =>
    exact hpair rfl hd.2 hs.2
  | @truncate _ _ _ t _ hd _ _ hsize =>
    refine hpair rfl hd.2 ?_
    rintro rfl
    cases t <;> exact absurd hsize (by decide)
  | toRegister _ _ hs | store _ hs => exact hpair rfl (fun _ => nofun) hs.2
  | ofRegister _ hd | ofStack hd | load _ hd => exact hpair rfl hd.2 fun _ => nofun
  | combine hop hd hs =>
    simp only [mem_cons, not_mem_nil, or_false] at hop
    rcases hop with (rfl | rfl | rfl | rfl | rfl | rfl) | ⟨rfl, -⟩ <;> exact hpair rfl hd.2 hs.2
  | modify hop hd => fin_cases hop <;> exact forall_mem_singleton.mpr hd.2
  | divide _ hop _ hs => fin_cases hop <;> exact forall_mem_singleton.mpr hs.2
  | shift hop _ hd | shiftByRegister _ hop hd => fin_cases hop <;> exact hpair rfl hd.2 nofun
  | moveStack hop => fin_cases hop <;> exact hpair rfl nofun nofun
  | @extend _ v _ _ _ hop hd hs =>
    rcases hop with rfl | rfl
    · exact hpair rfl hd.2 hs.2
    · cases v with
      | long => exact hpair rfl nofun nofun
      | _ => exact hpair rfl hd.2 hs.2
  | clearUpper | address => exact hpair rfl nofun nofun
  | signUpper | ret => exact nofun
  | label => exact forall_mem_singleton.mpr fun _ => nofun
  | _ => exact forall_mem_singleton.mpr nofun

theorem HasForm.addressable_of_op (h : k.HasForm F targets) (hop : k.op = .lea) :
    ∃ d s, k.operands = [d, s] ∧ F.addressable s := by
  cases h with
  | address _ hs => exact ⟨_, _, rfl, hs⟩
  | combine hop' | modify hop' | divide _ hop' | moveStack hop' | extend hop' | shift hop'
  | shiftByRegister _ hop' => simp_all
  | _ => cases hop

theorem HasForm.isCount_of_op (h : k.HasForm F targets) (hop : k.op ∈ [.sal, .sar, .shr]) :
    ∃ d s, k.operands = [d, s] ∧ s.IsCount := by
  cases h with
  | shift _ hn => exact ⟨_, _, rfl, .inr ⟨_, rfl, hn⟩⟩
  | shiftByRegister => exact ⟨_, _, rfl, .inl rfl⟩
  | combine hop' | modify hop' | divide _ hop' | moveStack hop' | extend hop' => aesop
  | _ => simp [Instr.label, bare] at hop

theorem HasForm.operand_of_op (h : k.HasForm F targets) (hop : k.op = .push) :
    k.width = .quad ∧ ∃ o, k.operands = [o] := by
  cases h with
  | push | pushRegister => exact ⟨rfl, _, rfl⟩
  | combine hop' | modify hop' | divide _ hop' | moveStack hop' | extend hop' | shift hop'
  | shiftByRegister _ hop' => simp_all
  | _ => cases hop

theorem writes_of_mem_directions {d : Direction} (hop : i.op ∈ [.cmp, .comisd, .idiv, .div, .push])
    (hd : d ∈ i.directions) : d.writes = false := by
  have hread : i.positions = i.operands.map fun _ => .read := by
    obtain ⟨op, w, operands⟩ := i
    fin_cases hop <;> rfl
  have hmem := mem_of_mem_take hd
  rw [hread] at hmem
  obtain ⟨_, -, rfl⟩ := mem_map.mp hmem
  rfl

theorem eq_imm_of_settled {g : Operand → Operand} (hg : Settled g stackSize) (ho : g o = .imm n) :
    o = .imm n := by
  rcases hg.cases_on o with ⟨heq, -⟩ | hhome
  · exact heq.symm.trans ho
  · rw [ho] at hhome
    cases hhome

theorem HasForm.isReady {g : Operand → Operand} (h : k.HasForm (.tracked aliased) targets)
    (hg : Settled g stackSize)
    (hmemory : ∀ x ∈ aliased, .pseudo x ∈ k.operands → (g (.pseudo x)).isMemory = true) :
    (k.mapOperands g).IsReady := by
  have hwidths : (k.mapOperands g).operandWidths = k.operandWidths := operandWidths_mapOperands k g
  have himm {n : Int} {m : Nat} (hn : (k.mapOperands g).operands[m]? = some (.imm n)) :
      k.operands[m]? = some (.imm n) := by
    rw [mapOperands, getElem?_map, Option.map_eq_some_iff] at hn
    obtain ⟨o, ho, hgo⟩ := hn
    rw [ho, eq_imm_of_settled hg hgo]
  have hdouble {n : Int} {m : Nat} {w : Width} (hn : k.operands[m]? = some (.imm n))
      (hw : k.operandWidths[m]? = some w) : w ≠ .double := by
    rintro rfl
    refine h.width_ne_double (.imm n, .double) (mem_of_getElem? (i := m) ?_) rfl n rfl
    rw [getElem?_zip_eq_some]
    exact ⟨hn, hw⟩
  refine ⟨?_, ?_, fun n hn => ?_, fun n w hn hw => hdouble (himm hn) (hwidths ▸ hw), fun hop => ?_,
    fun hop => ?_, fun hop => ?_⟩
  · rw [hwidths, mapOperands, length_map]
    exact h.operandWidths_length
  · rw [mapOperands, length_map]
    cases h <;> exact Nat.le_of_ble_eq_true rfl
  · obtain ⟨hop, hwidth⟩ := h.first_imm (himm hn)
    refine ⟨?_, ?_, fun d hd => writes_of_mem_directions (i := k.mapOperands g) hop
      (mem_of_getElem? hd)⟩
    · intro hmov
      rw [show k.op = .mov from hmov] at hop
      exact absurd hop (by decide)
    · rcases hwidth with hwidth | hwidth
      · rw [show (k.mapOperands g).width = .quad from hwidth]
        rintro ⟨⟩
      · exact hdouble (himm hn) hwidth
  · obtain ⟨d, s, hoperands, hs⟩ := h.addressable_of_op hop
    refine ⟨g d, g s, by rw [mapOperands, hoperands]; rfl, ?_⟩
    rcases hs with ⟨symbol, rfl⟩ | ⟨x, hx, rfl⟩
    · rw [hg.fixed rfl]
      rfl
    · exact hmemory x hx (by simp [hoperands])
  · obtain ⟨d, s, hoperands, hcount⟩ := h.isCount_of_op hop
    refine ⟨g d, g s, by rw [mapOperands, hoperands]; rfl, ?_⟩
    rwa [hg.fixed (by rcases hcount with rfl | ⟨n, rfl, -⟩ <;> rfl)]
  · obtain ⟨hwidth, o, hoperands⟩ := h.operand_of_op hop
    exact ⟨hwidth, g o, by rw [mapOperands, hoperands]; rfl⟩

end

end Instr

/-! ### Functions -/

section

variable {p : Program} {c : Config} {platform : Platform} {f : Function}
  {constants constants' : ConstantPool} {q : Procedure}

theorem classOf_of_mem_addressTaken {x : String} {st : LoweringState} {entries : List Entry}
    (h : Recorded p platform f constants q st entries)
    (hnames : ∀ v ∈ f.variables, ¬"%t".toList <+: v.name.toList) (hx : x ∈ addressTaken f.body) :
    q.classOf (.pseudo x) = none := by
  have hname : ∀ k, x ≠ NameSupply.temporary k := by
    rintro k rfl
    rw [addressTaken, Std.ExtTreeSet.mem_ofList, contains_iff_mem, mem_filterMap] at hx
    obtain ⟨i, hi, hx⟩ := hx
    obtain ⟨v, hv, hname⟩ := Option.map_eq_some_iff.mp hx
    refine hnames v (mem_append_right _ (mem_flatMap.mpr ⟨i, hi, ?_⟩))
      (hname ▸ NameSupply.isPrefix_temporary k)
    exact mem_append_right _ (Option.mem_toList.mpr hv)
  simp only [Procedure.classOf]
  split
  · rfl
  · rename_i info hinfo
    rw [h.pseudos_eq, show st.pseudos = _ from (congrArg Table.pseudos h.table_eq).symm] at hinfo
    obtain ⟨v, -, -, rfl⟩ := Table.exists_of_getElem?_ofEntries hinfo fun k _ _ => hname k
    exact if_pos hx

/-- The code of a function of a verified program whose variables are not named like temporaries can
be encoded.  Allocation leaves no pseudo registers, the forms that it is brought into have only
operands that their positions accept, and they are not changed by doing that again. -/
theorem encodable_of_lowerFunction (hverify : p.verify c = .ok ()) (hf : f ∈ p.functions)
    (hnames : ∀ v ∈ f.variables, ¬"%t".toList <+: v.name.toList)
    (hq : lowerFunction p platform f constants = .ok (q, constants')) :
    (∀ i ∈ q.assignRegisters.procedure.body, ∀ x, .pseudo x ∉ i.operands) ∧
      (finish c q).emitted.procedure.body = legaliseAll q.assignRegisters.procedure.body ∧
      (∀ i ∈ (finish c q).emitted.procedure.body, i.IsEncodable) ∧
      legaliseAll (finish c q).emitted.procedure.body = (finish c q).emitted.procedure.body := by
  obtain ⟨_, -, haccepted, -, -⟩ := p.accepted_of_verify hverify hf
  have htype := haccepted.typeDefect?_eq
  obtain ⟨⟨st, entries, hrecorded⟩, hforms⟩ := exists_recorded htype hq
  obtain ⟨g, hg, -, hbody⟩ := q.settled_assignRegisters
  -- Legalisation needs that variables whose address is taken are in memory after allocation.
  have hstays : ∀ i ∈ (finish c q).emitted.procedure.body, i.Stays := by
    intro i hi
    obtain ⟨j, hj, hi⟩ := List.mem_flatMap.mp hi
    obtain ⟨k, hk, rfl, hmemory⟩ := hbody j hj
    refine Instr.stays_of_mem_legalise ?_ hi
    exact (hforms k hk).isReady hg fun x hx hmem =>
      hmemory x hmem (classOf_of_mem_addressTaken hrecorded hnames hx)
  refine ⟨fun i hi x hx => ?_, rfl, fun i hi => (hstays i hi).1, ?_⟩
  · obtain ⟨k, hk, rfl, -⟩ := hbody i hi
    obtain ⟨o, ho, heq⟩ := List.mem_map.mp hx
    rcases hg.cases_on o with ⟨hsame, hpseudo⟩ | hhome
    · rw [← hsame, heq] at hpseudo
      cases hpseudo
    · rw [heq] at hhome
      cases hhome
  · rw [legaliseAll, List.flatMap_congr fun i hi => (hstays i hi).2, List.flatMap_singleton']

end

/-- A variable whose address is taken gets a constant that needs 64 bits. -/
def pointingFunction : Function where
  name := "f"
  isGlobal := true
  params := []
  returnType := none
  body := [.addressOf ⟨"p", .pointer⟩ (.var ⟨"x", .ulong⟩),
    .copy ⟨"x", .ulong⟩ (.const (.ofInt .ulong (2 ^ 40))), .ret none]

theorem pointing_encodable : ∃ q constants,
    lowerFunction ⟨[pointingFunction], []⟩ .linux pointingFunction (.empty .linux) =
      .ok (q, constants) ∧
    (⟨.mov, .quad, [.memory .rbp (-8), .imm (2 ^ 40)]⟩ : Instr) ∈
      q.assignRegisters.procedure.body ∧
    (∀ i ∈ (finish {} q).emitted.procedure.body, i.IsEncodable) ∧
    legaliseAll (finish {} q).emitted.procedure.body = (finish {} q).emitted.procedure.body := by
  obtain ⟨q, constants, hq, hi⟩ : ∃ q constants,
      lowerFunction ⟨[pointingFunction], []⟩ .linux pointingFunction (.empty .linux) =
        .ok (q, constants) ∧ (⟨.mov, .quad, [.memory .rbp (-8), .imm (2 ^ 40)]⟩ : Instr) ∈
          q.assignRegisters.procedure.body := ⟨_, _, rfl, by decide +kernel⟩
  obtain ⟨-, -, hencodable, hagain⟩ := encodable_of_lowerFunction (c := {}) (by decide)
    (List.mem_singleton_self _) (by decide) hq
  exact ⟨q, constants, hq, hi, hencodable, hagain⟩

end ThreeAddress.Amd64
