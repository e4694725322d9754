import ThreeAddress.Proofs.Amd64.AllocatedBodies
import ThreeAddress.Proofs.Amd64.AllocatedFunctions
import ThreeAddress.Proofs.Amd64.RoutedOperands

/-!
# Encodable forms have the same effect

The encodable form of an instruction of an allocated function does what the instruction would do if
all operands could be encoded.  There is one exception.  The division of doubles is believed not to
write to its first operand, so its result is lost if that operand is in memory.
-/

namespace ThreeAddress.Amd64

open Procedure Operand Storage Operation Option

variable {t : Operation} {op : Opcode}

/-! ### The same effect -/

namespace Instr

/-- Storages after an instruction and after its encodable form.  Scratch registers differ unless the
instruction names them.  A copy of a register to itself is left out, which only keeps bits above the
width.  A push of a double changes the flags. -/
structure Matches (i : Instr) (m m' : Storage) : Prop where
  registers : ∀ r, r ∉ scratchRegisters ∨ .reg r ∈ i.operands →
    m.cells (.reg r) = m'.cells (.reg r) ∨ i.isSelfMove = true ∧ .reg r ∈ i.operands ∧
      low i.width.bits (m.cells (.reg r)) = low i.width.bits (m'.cells (.reg r))
  bytes : m.bytes = m'.bytes
  trace : m.trace = m'.trace
  flags : i.op ≠ .push → m.flags = m'.flags

/-- What an instruction and its encodable form lead to.  Nothing is said of a push outside the
stack. -/
inductive SameEffect (i : Instr) : Procedure.Step → Procedure.Step → Prop
  | same (outcome : Procedure.Step) : SameEffect i outcome outcome
  | next {m m' : Storage} (h : i.Matches m m') : SameEffect i (.next m) (.next m')
  | undefined (m m' : Storage) : SameEffect i (.stop m .undefined) (.stop m' .undefined)
  | push (hop : i.op = .push) (m : Storage) (outcome : Procedure.Step) :
      SameEffect i (.stop m .undefined) outcome

/-- The encodable form of an instruction has its effect. -/
def Legalises (p : Procedure) (e : Setting) (m : Storage) (i : Instr) : Prop :=
  i.SameEffect (p.execute e .none m i) (p.runAll e .none m i.legalise)

section

variable {p : Procedure} {e : Setting} {m m' : Storage} {i : Instr} {a b d o s : Operand}
  {w : Width} {op : Opcode}

theorem matches_of_agrees {rs : List Register} (h : m.Agrees rs m') (hsub : rs ⊆ scratchRegisters)
    (ho : ∀ o ∈ i.operands, o.avoids rs = true) : i.Matches m m' where
  registers := by
    intro r hr
    refine .inl (h.register ?_)
    rcases hr with hr | hr
    · exact fun h => hr (hsub h)
    · simpa [avoids] using ho _ hr
  bytes := h.bytes
  trace := h.trace
  flags := fun _ => h.flags

theorem legalises_of_legalise_eq (h : i.legalise = [i]) : i.Legalises p e m := by
  rw [Legalises, h, runAll_singleton]
  exact .same _

theorem legalises_selfMove (ho : o.isPlace = true) : Legalises p e m ⟨.mov, w, [o, o]⟩ := by
  have hself : (⟨.mov, w, [o, o]⟩ : Instr).isSelfMove = true := isSelfMove_iff.mpr ⟨rfl, o, rfl⟩
  have hlegal : legalise ⟨.mov, w, [o, o]⟩ = [] := if_pos hself
  rw [Legalises, hlegal, ← runAll_singleton, runAll_copy ho (isPlain_of_isPlace ho) w]
  refine .next ⟨fun r _ => ?_, ?_, ?_, fun _ => ?_⟩
  · cases o with
    | reg r' =>
      by_cases hr : r = r'
      · subst hr
        refine .inr ⟨hself, .head _, ?_⟩
        simp [place, write, valueAt, low_overwritten]
      · exact .inl (by simp [place, write, hr])
    | memory | data => exact .inl rfl
    | _ => cases ho
  · cases o with
    | memory | data =>
      exact storeBytes_loadBytes m.bytes _ (by cases w <;> decide)
    | reg => rfl
    | _ => cases ho
  all_goals cases o <;> rfl

theorem legalises_of_isPerformed (ht : t.IsPerformed e.hardware op w a b)
    (hsource : a.avoids sourceRegisters = true ∧ b.avoids sourceRegisters = true)
    (hscratch : (⟨op, w, [a, b]⟩ : Instr).isFirstIllegal a = true → op ≠ .div ∧
      a.avoids scratchRegisters = true ∧ b.avoids scratchRegisters = true) :
    Legalises p e m ⟨op, w, [a, b]⟩ := by
  cases hself : (⟨op, w, [a, b]⟩ : Instr).isSelfMove with
  | true =>
    obtain ⟨hop, o, ho⟩ := isSelfMove_iff.mp hself
    cases hop
    cases ho
    exact legalises_selfMove (ht.place (by cases ht.operation; rfl))
  | false =>
    have hlegal : legalise ⟨op, w, [a, b]⟩ = legaliseOperands ⟨op, w, [a, b]⟩ := by
      simp [legalise, hself]
    rw [Legalises, hlegal, ht.execute]
    cases hillegal : (⟨op, w, [a, b]⟩ : Instr).isFirstIllegal a with
    | false =>
      obtain ⟨m', hrun, hagrees⟩ := runAll_legaliseOperands_of_legal ht hsource.1 hillegal
      rw [hrun]
      refine .next (matches_of_agrees hagrees sourceRegisters_subset ?_)
      simpa using hsource
    | true =>
      obtain ⟨hdiv, hscratch⟩ := hscratch hillegal
      obtain ⟨m', hrun, hagrees⟩ := runAll_legaliseOperands_of_illegal
        ht hdiv hscratch.1 hscratch.2 hillegal
      rw [hrun]
      refine .next (matches_of_agrees hagrees (List.Subset.refl _) ?_)
      simpa using hscratch

theorem compute?_clear (ha : a.isPlace = true) :
    p.compute? e .none m (.clear a w) = some { m.write .computed w 0 (a.place e m) with
      flags := if w = .double then m.flags else .ofBitwise 0#w.bits } := by
  simp [compute?, Computation.clear, place?_of_isPlain (isPlain_of_isPlace ha),
    putAll?, put?_of_isPlace ha]

theorem legalises_clear (ha : a.isPlace = true) (hsource : a.avoids sourceRegisters = true)
    (hdouble : w = .double → a.isMemory = false) :
    Legalises p e m ⟨.xor, w, [a, a]⟩ := by
  have hfirst : (⟨.xor, w, [a, a]⟩ : Instr).isFirstIllegal a = false := by
    cases hw : w <;> cases a <;>
      simp_all [isFirstIllegal, acceptsFirst, refused, Accepts.regOrMemory, isMemory, isPlace]
  let second := legaliseSecond ⟨.xor, w, [a, a]⟩ w a a
  have hlegal : legalise ⟨.xor, w, [a, a]⟩ = second.2 ++ [⟨.xor, w, [a, second.1]⟩] :=
    legaliseOperands_of_legal (d := .write) (by simp [directions, positions]; rfl) rfl hfirst
  rcases legaliseSecond_cases ⟨.xor, w, [a, a]⟩ w a a with ⟨heq, -⟩ | ⟨-, heq⟩
  · exact legalises_of_legalise_eq (by rw [hlegal, show second = _ from heq]; rfl)
  · have hplain := isPlain_of_isPlace ha
    have hne : a ≠ .reg (sourceScratch w) := by
      rintro rfl
      simp [avoids, sourceScratch_mem_sourceRegisters] at hsource
    have hc : (⟨.xor, w, [a, a]⟩ : Instr).computation? e.hardware = some (.clear a w) := if_pos rfl
    have hxor : (combine w w (e.hardware.combine .xor w)).IsPerformed e.hardware .xor w a
        (.reg (sourceScratch w)) := ⟨rfl, by simp, fun _ => hne, hplain, rfl, fun _ => ha⟩
    obtain ⟨m', hload, hagrees, hvalue⟩ :=
      runAll_load hplain w
    rw [Legalises, hlegal, show second = _ from heq, execute_of_computation? hc, compute?_clear ha,
      runAll_append hload, runAll_singleton, hxor.execute]
    have hresult : (combine w w (e.hardware.combine .xor w)).result m' (a.place e m')
        (.cell (.reg (sourceScratch w))) =
          (0, if w = .double then m.flags else .ofBitwise 0#w.bits) := by
      show e.hardware.combine .xor w (m'.valueAt w (a.place e m'))
        (m'.valueAt w (.cell (.reg (sourceScratch w)))) m'.flags = _
      rw [← hagrees.valueAt_eq hsource, hvalue, Replacement.Related.combine_xor_self, hagrees.flags]
      rfl
    have hcleared :=
      (hagrees.write .computed .computed (w := w) (v := 0) rfl (a.place e m)).withFlags
      (if w = .double then m.flags else .ofBitwise 0#w.bits)
    refine .next (matches_of_agrees (hcleared.trans ?_) sourceRegisters_subset
      (by simpa using hsource))
    rw [apply, place, hresult, ← hagrees.place_eq hsource]
    exact .refl _ _

theorem compute?_divide (hs : s.isPlain = true) (signed : Bool) :
    p.compute? e .none m (.divide e.hardware op signed w s) =
      (quotients signed (w.ofWord (m.valueAt w (.cell (.reg .rdx))))
        (w.ofWord (m.valueAt w (.cell (.reg .rax)))) (w.ofWord (m.valueAt w (s.place e m)))).map
          fun (q, r) =>
            { (m.write .computed w (q.setWidth 64) (.cell (.reg .rax))).write .computed w
              (r.setWidth 64) (.cell (.reg .rdx)) with
            flags := e.hardware.flags op w [m.valueAt w (.cell (.reg .rdx)),
              m.valueAt w (.cell (.reg .rax)), m.valueAt w (s.place e m)] m.flags } := by
  have hreg (r : Register) : p.read? e .none m (.reg r) w = some (m.valueAt w (.cell (.reg r))) :=
    read?_of_isPlain rfl w
  simp only [compute?, Computation.divide, List.mapM_cons, List.mapM_nil, hreg, read?_of_isPlain hs,
    place?, bind_eq_bind, bind_some, pure_def, map_some]
  cases quotients signed (w.ofWord (m.valueAt w (.cell (.reg .rdx))))
    (w.ofWord (m.valueAt w (.cell (.reg .rax)))) (w.ofWord (m.valueAt w (s.place e m))) <;> rfl

theorem execute_divide_agrees {s' : Operand} (hop : op = .idiv ∨ op = .div) (hs : s.isPlain = true)
    (hs' : s'.isPlain = true) (h : m.Agrees sourceRegisters m')
    (hvalue : m'.valueAt w (s'.place e m') = m.valueAt w (s.place e m)) :
    (∃ m₁ m₁', p.execute e .none m ⟨op, w, [s]⟩ = .next m₁ ∧
      p.execute e .none m' ⟨op, w, [s']⟩ = .next m₁' ∧ m₁.Agrees sourceRegisters m₁') ∨
    p.execute e .none m ⟨op, w, [s]⟩ = .stop m .undefined ∧
      p.execute e .none m' ⟨op, w, [s']⟩ = .stop m' .undefined := by
  obtain ⟨signed, hc, hc'⟩ : ∃ signed, (⟨op, w, [s]⟩ : Instr).computation? e.hardware =
        (if w.divides then some (.divide e.hardware op signed w s) else none) ∧
      (⟨op, w, [s']⟩ : Instr).computation? e.hardware =
        (if w.divides then some (.divide e.hardware op signed w s') else none) := by
    rcases hop with rfl | rfl
    · exact ⟨true, rfl, rfl⟩
    · exact ⟨false, rfl, rfl⟩
  have hexecute (m : Storage) (s : Operand) : p.execute e .none m ⟨op, w, [s]⟩ =
      goOn m (((⟨op, w, [s]⟩ : Instr).computation? e.hardware).bind
        (p.compute? e .none m)) := by
    rcases hop with rfl | rfl <;> rfl
  rw [hexecute, hexecute, hc, hc']
  cases w.divides with
  | false => exact .inr ⟨rfl, rfl⟩
  | true =>
    have hrdx : m.valueAt w (.cell (.reg .rdx)) = m'.valueAt w (.cell (.reg .rdx)) :=
      h.valueAt_eq (e := e) (o := .reg .rdx) (by decide) w
    have hrax : m.valueAt w (.cell (.reg .rax)) = m'.valueAt w (.cell (.reg .rax)) :=
      h.valueAt_eq (e := e) (o := .reg .rax) (by decide) w
    rw [if_pos rfl, if_pos rfl, bind_some, bind_some, compute?_divide hs,
      compute?_divide hs', hvalue, hrdx, hrax, h.flags]
    cases quotients signed (w.ofWord (m'.valueAt w (.cell (.reg .rdx))))
      (w.ofWord (m'.valueAt w (.cell (.reg .rax)))) (w.ofWord (m.valueAt w (s.place e m))) with
    | none => exact .inr ⟨rfl, rfl⟩
    | some results =>
      exact .inl ⟨_, _, rfl, rfl, ((h.write _ _ rfl _).write _ _ rfl _).withFlags _⟩

theorem legalises_divide (hop : op = .idiv ∨ op = .div)
    (hs : s.isPlain = true ∧ s.avoids sourceRegisters = true) : Legalises p e m ⟨op, w, [s]⟩ := by
  obtain ⟨hs, hsource⟩ := hs
  have hlegal : legalise ⟨op, w, [s]⟩ = if (⟨op, w, [s]⟩ : Instr).isFirstIllegal s = true then
      [⟨.mov, w, [.reg (sourceScratch w), s]⟩, ⟨op, w, [.reg (sourceScratch w)]⟩]
      else [⟨op, w, [s]⟩] := by
    rcases hop with rfl | rfl <;>
      exact .trans (b := legaliseOperands ⟨_, w, [s]⟩) rfl (legaliseOperands_lone rfl rfl)
  cases hillegal : (⟨op, w, [s]⟩ : Instr).isFirstIllegal s with
  | false => exact legalises_of_legalise_eq (by rw [hlegal, hillegal]; rfl)
  | true =>
    obtain ⟨m', hload, hagrees, hvalue⟩ :=
      runAll_load hs w
    rw [runAll_singleton] at hload
    rw [Legalises, hlegal, hillegal, if_pos rfl, runAll_cons hload, runAll_singleton]
    have hscratch : (reg (sourceScratch w)).isPlain = true := rfl
    rcases execute_divide_agrees hop hs hscratch hagrees hvalue with
      ⟨m₁, m₁', hm₁, hm₁', hagrees₁⟩ | ⟨hm₁, hm₁'⟩
    · rw [hm₁, hm₁']
      exact .next (matches_of_agrees hagrees₁ sourceRegisters_subset (by simpa using hsource))
    · rw [hm₁, hm₁']
      exact .undefined _ _

theorem runAll_pushSse {r : Register} (hr : r.isSse = true) : ∃ m',
    p.runAll e .none m (pushSse r) = .next m' ∧
      (∀ r', m'.cells (.reg r') =
        if r' = .rsp then m.cells (.reg .rsp) - 8 else m.cells (.reg r')) ∧
      m'.bytes = storeBytes m.bytes (m.cells (.reg .rsp) - 8) 8 (m.cells (.reg r)) ∧
      m'.trace = m.trace := by
  have hne : r ≠ .rsp := by
    rintro rfl
    cases hr
  have hsub : (combine .quad .quad (e.hardware.combine .sub .quad)).IsPerformed e.hardware
      .sub .quad (.reg .rsp) (.imm 8) := ⟨rfl, nofun, nofun, rfl, rfl, fun _ => rfl⟩
  have hrun : p.runAll e .none m (pushSse r) = _ :=
    (runAll_cons hsub.execute).trans (runAll_copy rfl rfl .double)
  generalize hm₁ : (combine .quad .quad (e.hardware.combine .sub .quad)).apply m
    (place e m (.reg .rsp)) (place e m (.imm 8)) = m₁ at hrun
  have hcells : ∀ r', m₁.cells (.reg r') =
      if r' = .rsp then m.cells (.reg .rsp) - 8 else m.cells (.reg r') := by
    intro r'
    subst hm₁
    by_cases heq : r' = .rsp
    · subst heq
      rfl
    · simp [apply, combine, place, write, heq]
  refine ⟨_, hrun, hcells, ?_, ?_⟩
  · have hbytes : m₁.bytes = m.bytes := by
      subst hm₁
      rfl
    simp [place, write, valueAt, hcells, hne, hbytes, Width.size, Width.bits, low]
  · subst hm₁
    rfl

theorem legalises_push : Legalises p e m ⟨.push, .quad, [s]⟩ := by
  have hexecute (m : Storage) (s : Operand) : p.execute e .none m ⟨.push, .quad, [s]⟩ =
      goOn m (p.push? e .none m s) := rfl
  have htop (m : Storage) : m.fetch? .none .quad (.cell (.reg .rsp)) = some (m.cells (.reg .rsp)) :=
    congrArg some (low_of_le (Nat.le_refl 64) _)
  rcases legalise_push_cases s with hform | hform
  · exact legalises_of_legalise_eq hform
  rw [Legalises, hexecute]
  cases hpush : p.push? e .none m s with
  | none => exact .push rfl _ _
  | some m₁ =>
    obtain ⟨x, top, hx, htop', hwithin, rfl⟩ := push?_eq_some_iff.mp hpush
    cases (htop m).symm.trans htop'
    rcases hform with ⟨n, rfl, hform⟩ | ⟨r, rfl, hform⟩
    · obtain ⟨m', hload, hagrees, hvalue⟩ := runAll_load (a := .imm n) (v := .quad) rfl .quad
      rw [runAll_singleton] at hload
      have hloaded : m'.cells (.reg .r10) = x.1 := by
        cases hx
        exact (low_of_le (Nat.le_refl 64) _).symm.trans hvalue
      have hrsp : m.cells (.reg .rsp) = m'.cells (.reg .rsp) := hagrees.register (by decide)
      have hpush' : p.push? e .none m' (.reg .r10) = some _ :=
        push?_eq_some_iff.mpr ⟨_, _, rfl, htop m', hrsp ▸ hwithin, rfl⟩
      have hrun : p.runAll e .none m [⟨.mov, .quad, [.reg .r10, .imm n]⟩,
          ⟨.push, .quad, [.reg .r10]⟩] = _ :=
        (runAll_cons hload).trans (runAll_singleton ..)
      rw [hform, hrun, hexecute, hpush', hloaded, ← hrsp]
      refine .next (matches_of_agrees (hagrees.pushed _ _ _ _) sourceRegisters_subset ?_)
      simp [avoids]
    · cases hx
      obtain ⟨m', hrun, hcells, hbytes, htrace⟩ :=
        runAll_pushSse (r := .xmm r) rfl
      rw [hform, hrun]
      refine .next ⟨fun r' _ => .inl ?_, hbytes.symm, htrace.symm, fun h => absurd rfl h⟩
      rw [hcells]
      by_cases heq : r' = .rsp <;> simp [pushed, heq]

theorem execute_lea (hd : d.isPlace = true) (hs : s.isPlain = true) :
    p.execute e .none m ⟨.lea, .quad, [d, s]⟩ =
      match s.place e m with
      | .address a => .next (m.write .computed .quad a (d.place e m))
      | _ => .stop m .undefined := by
  show goOn m (p.lea? e .none m d s) = _
  rw [lea?, place?_of_isPlain hs]
  cases s.place e m with
  | address a =>
    simp only [place?_of_isPlain (isPlain_of_isPlace hd), bind_some, put?_of_isPlace hd]
    rfl
  | _ => rfl

theorem legalises_address (hd : d.isPlace = true ∧ d.avoids scratchRegisters = true)
    (hs : s.isPlain = true ∧ s.avoids scratchRegisters = true) :
    Legalises p e m ⟨.lea, .quad, [d, s]⟩ := by
  obtain ⟨hd, hdscratch⟩ := hd
  obtain ⟨hs, hsscratch⟩ := hs
  obtain ⟨s', load, d', after, hlegal, hd', hload, hafter⟩ : ∃ s' load d' after,
      legalise ⟨.lea, .quad, [d, s]⟩ = load ++ ⟨.lea, .quad, [d', s']⟩ :: after ∧
        d'.isPlace = true ∧ (s' = s ∧ load = [] ∨ (∀ a, s.place e m ≠ .address a) ∧
          s' = .reg .r10 ∧ load = [⟨.mov, .quad, [.reg .r10, s]⟩]) ∧
        (d' = d ∧ after = [] ∨ d' = .reg .r11 ∧ after = [⟨.mov, .quad, [d, .reg .r11]⟩]) := by
    cases s with
    | memory | data | reg =>
      cases d with
      | reg => exact ⟨_, [], _, [], rfl, rfl, .inl ⟨rfl, rfl⟩, .inl ⟨rfl, rfl⟩⟩
      | memory | data => exact ⟨_, [], _, _, rfl, rfl, .inl ⟨rfl, rfl⟩, .inr ⟨rfl, rfl⟩⟩
      | _ => cases hd
    | imm n =>
      cases d with
      | reg => exact ⟨_, _, _, [], rfl, rfl, .inr ⟨nofun, rfl, rfl⟩, .inl ⟨rfl, rfl⟩⟩
      | memory | data => exact ⟨_, _, _, _, rfl, rfl, .inr ⟨nofun, rfl, rfl⟩, .inr ⟨rfl, rfl⟩⟩
      | _ => cases hd
    | _ => cases hs
  rw [Legalises, hlegal, execute_lea hd hs]
  rcases hload with ⟨rfl, rfl⟩ | ⟨hnone, rfl, rfl⟩
  · rw [List.nil_append]
    cases hplace : s'.place e m with
    | address x =>
      have hmain : p.execute e .none m ⟨.lea, .quad, [d', s']⟩ =
          .next (m.write .computed .quad x (d'.place e m)) := by
        rw [execute_lea hd' hs, hplace]
      rw [runAll_cons hmain]
      rcases hafter with ⟨rfl, rfl⟩ | ⟨rfl, rfl⟩
      · exact .same _
      · rw [runAll_copy hd rfl]
        have hflags (a : Place) : m.write .computed .quad x a =
            { m.write .computed .quad x a with flags := m.flags } := by
          cases a <;> rfl
        have hagrees := (Agrees.refl scratchRegisters m).writeThrough (e := e) (r := .r11)
          (by decide) hdscratch (hflags _)
        rw [← hflags] at hagrees
        exact .next
          (matches_of_agrees hagrees (List.Subset.refl _) (by simpa using ⟨hdscratch, hsscratch⟩))
    | _ =>
      have hmain : p.execute e .none m ⟨.lea, .quad, [d', s']⟩ = .stop m .undefined := by
        rw [execute_lea hd' hs, hplace]
      rw [runAll, hmain]
      exact .undefined _ _
  · have hloaded := runAll_copy (p := p) (e := e) (m := m) (d := .reg .r10) rfl hs .quad
    rw [runAll_append hloaded]
    cases hplace : s.place e m with
    | address x => exact absurd hplace (hnone x)
    | _ => exact .undefined _ _

end

/-- Whether the result of an instruction is lost when its first operand is routed through a scratch
register.  A division of doubles does not store it back.  An exclusive or of a double in memory with
itself does not load the operand, as if it were a register that is cleared. -/
def misroutes (i : Instr) : Bool :=
  match i.op, i.width, i.operands with
  | .div, .double, [a, _] => a.isMemory
  | .xor, .double, [a, b] => a.isMemory && a == b
  | _, _, _ => false

end Instr

/-! ### Operands of allocated code -/

section

variable {g : Operand → Operand} {stackSize : Nat} {o d s : Operand} {w : Width}

theorem not_mem_scratchRegisters_of_mem_colours {c : RegisterClass} {r : Register}
    (hr : r ∈ c.colours) : r ∉ Instr.scratchRegisters := by
  revert r
  cases c <;> decide

theorem Operand.IsHome.isPlace (h : o.IsHome stackSize) :
    o.isPlace = true ∧ o.avoids Instr.scratchRegisters = true := by
  cases h with
  | register hr => exact ⟨rfl, by simpa [avoids] using not_mem_scratchRegisters_of_mem_colours hr⟩
  | slot => exact ⟨rfl, show decide (.rbp ∉ Instr.scratchRegisters) = true by decide⟩

theorem Settled.place_of_isVariable (hg : Settled g stackSize) (ho : o.isVariable = true) :
    (g o).isPlace = true ∧ (g o).avoids Instr.scratchRegisters = true := by
  cases o with
  | pseudo x => exact (hg.home x).isPlace
  | data symbol =>
    rw [hg.fixed rfl]
    exact ⟨rfl, rfl⟩
  | _ => cases ho

theorem Settled.plain_of_isValue (hg : Settled g stackSize) (ho : o.isValue = true) :
    (g o).isPlain = true ∧ (g o).avoids Instr.scratchRegisters = true := by
  cases o with
  | pseudo x => exact ⟨isPlain_of_isPlace (hg.home x).isPlace.1, (hg.home x).isPlace.2⟩
  | data | imm =>
    rw [hg.fixed rfl]
    exact ⟨rfl, rfl⟩
  | _ => cases ho

namespace Instr

variable {p : Procedure} {e : Setting} {m : Storage}

theorem refused_of_isPlace (ho : o.isPlace = true) (wideImm : Bool) :
    refused .regOrMemory wideImm o = false := by
  cases o <;> first | rfl | cases ho

theorem legalises_mov (hd : d.isPlace = true ∧ d.avoids sourceRegisters = true)
    (hs : s.isPlain = true ∧ s.avoids sourceRegisters = true) :
    Legalises p e m ⟨.mov, w, [d, s]⟩ := by
  refine legalises_of_isPerformed
    ⟨rfl, nofun, nofun, isPlain_of_isPlace hd.1, hs.1, fun _ => hd.1⟩ ⟨hd.2, hs.2⟩
    fun hillegal => ?_
  rw [isFirstIllegal, acceptsFirst, refused_of_isPlace hd.1] at hillegal
  cases hillegal

theorem legalise_lone {r : Direction} {v : Width} (hd : d.isPlace = true)
    (hself : (⟨op, w, [d]⟩ : Instr).legalise = legaliseOperands ⟨op, w, [d]⟩)
    (hdirections : (⟨op, w, [d]⟩ : Instr).directions = [r])
    (hwidths : (⟨op, w, [d]⟩ : Instr).operandWidths = [v])
    (haccepts : (⟨op, w, [d]⟩ : Instr).acceptsFirst = .regOrMemory) :
    (⟨op, w, [d]⟩ : Instr).legalise = [⟨op, w, [d]⟩] := by
  rw [hself]
  simp [legaliseOperands, hdirections, hwidths, legaliseFirst, isFirstIllegal, haccepts,
    refused_of_isPlace hd]

theorem legalises_values {a b : Operand} (ht : t.IsPerformed e.hardware op w a b)
    (ha : a.avoids scratchRegisters = true) (hb : b.avoids scratchRegisters = true)
    (hdiv : (⟨op, w, [a, b]⟩ : Instr).isFirstIllegal a = true → op ≠ .div) :
    Legalises p e m ⟨op, w, [a, b]⟩ :=
  legalises_of_isPerformed ht ⟨avoids_of_subset sourceRegisters_subset ha,
    avoids_of_subset sourceRegisters_subset hb⟩ fun h => ⟨hdiv h, ha, hb⟩

theorem legalises_writing (ht : operation? e.hardware op w = some t)
    (hw : op = .comisd ∨ (∃ v, op = .cvtsi2sd v) → w = .double) (hxor : op = .xor → d ≠ s)
    (hd : d.isPlace = true ∧ d.avoids scratchRegisters = true)
    (hs : s.isPlain = true ∧ s.avoids scratchRegisters = true)
    (hdiv : (⟨op, w, [d, s]⟩ : Instr).isFirstIllegal d = true → op ≠ .div) :
    Legalises p e m ⟨op, w, [d, s]⟩ :=
  legalises_values ⟨ht, hw, hxor, isPlain_of_isPlace hd.1, hs.1, fun _ => hd.1⟩ hd.2 hs.2
    hdiv

theorem legalises_combine (hop : op ∈ [.add, .sub, .imul, .and, .or, .xor] ∨
      op = .div ∧ w = .double) (hd : d.isPlace = true ∧ d.avoids scratchRegisters = true)
    (hs : s.isPlain = true ∧ s.avoids scratchRegisters = true)
    (hroutes : misroutes ⟨op, w, [d, s]⟩ = false) : Legalises p e m ⟨op, w, [d, s]⟩ := by
  simp only [List.mem_cons, List.not_mem_nil, or_false] at hop
  rcases hop with (rfl | rfl | rfl | rfl | rfl | rfl) | ⟨rfl, rfl⟩
  case inl.inr.inr.inr.inr.inr =>
    by_cases heq : d = s
    · subst heq
      refine legalises_clear hd.1 (avoids_of_subset sourceRegisters_subset hd.2) ?_
      rintro rfl
      simpa [misroutes] using hroutes
    · exact legalises_writing rfl nofun (fun _ => heq) hd hs fun _ => nofun
  case inr =>
    refine legalises_writing rfl nofun nofun hd hs fun hillegal => ?_
    -- A register is never routed.
    cases d with
    | reg => cases hillegal
    | memory | data => cases hroutes
    | _ => cases hd.1
  all_goals exact legalises_writing rfl nofun nofun hd hs fun _ => nofun

/-- The encodable form of an instruction of allocated code. -/
theorem IsLowered.legalises {k : Instr} {doubles stack : Bool} {targets : Label → Prop}
    (h : k.IsLowered doubles stack targets) (hg : Settled g stackSize)
    (hroutes : (k.mapOperands g).misroutes = false) : (k.mapOperands g).Legalises p e m := by
  have hsource {o : Operand} (ho : o.avoids scratchRegisters = true) :
      o.avoids sourceRegisters = true := avoids_of_subset sourceRegisters_subset ho
  have hnamed {r : Register} (hr : r ∈ namedRegisters) : (reg r).avoids sourceRegisters = true := by
    have hnone : ∀ r ∈ namedRegisters, r ∉ sourceRegisters := by decide
    simpa [avoids] using hnone r hr
  have hvariable {o : Operand} (ho : o.isVariable = true) :=
    (hg.place_of_isVariable ho).imp_right hsource
  have hvalue {o : Operand} (ho : o.isValue = true) :=
    (hg.plain_of_isValue ho).imp_right hsource
  have hfixed {o : Operand} (ho : o.pseudo? = none) (hplace : o.isPlace = true)
      (havoids : o.avoids sourceRegisters = true) :
      (g o).isPlace = true ∧ (g o).avoids sourceRegisters = true := by
    rw [hg.fixed ho]
    exact ⟨hplace, havoids⟩
  cases h with
  | copy hd hs | truncate _ hd hs => exact legalises_mov (hvariable hd.1) (hvalue hs.1)
  | toRegister hr _ hs => exact legalises_mov (hfixed rfl rfl (hnamed hr)) (hvalue hs.1)
  | ofRegister _ hd hr =>
    exact legalises_mov (hvariable hd.1) ((hfixed rfl rfl (hnamed hr)).imp_left isPlain_of_isPlace)
  | ofStack hd | load _ hd =>
    exact legalises_mov (hvariable hd.1) ((hfixed rfl rfl rfl).imp_left isPlain_of_isPlace)
  | store _ hs => exact legalises_mov (hfixed rfl rfl rfl) (hvalue hs.1)
  | combine hop hd hs =>
    exact legalises_combine hop (hg.place_of_isVariable hd.1) (hg.plain_of_isValue hs.1) hroutes
  | @moveStack op n hop =>
    rw [hg.mapOperands_eq (by simp [pseudo?])] at hroutes ⊢
    refine legalises_combine (.inl ?_) ⟨rfl, rfl⟩ ⟨rfl, rfl⟩ hroutes
    exact List.Subset.trans (by decide : [.add, .sub] ⊆ [.add, .sub]) (by decide) hop
  | shift hop _ hd | shiftByRegister _ hop hd =>
    have hcount {o : Operand} (h : o.pseudo? = none) (ho : o.isPlain = true)
        (havoids : o.avoids scratchRegisters = true) :
        (g o).isPlain = true ∧ (g o).avoids scratchRegisters = true := by
      rw [hg.fixed h]
      exact ⟨ho, havoids⟩
    fin_cases hop <;>
      exact legalises_writing rfl (by simp) (by simp) (hg.place_of_isVariable hd.1)
        (hcount rfl rfl rfl) fun _ => by simp
  | compare ha hb | compareDoubles ha hb =>
    obtain ⟨hap, haa⟩ := hg.plain_of_isValue ha.1
    obtain ⟨hbp, hba⟩ := hg.plain_of_isValue hb.1
    exact legalises_values ⟨rfl, by simp, by simp, hap, hbp, by rintro ⟨⟩⟩ haa hba fun _ => by simp
  | extend hop hd hs =>
    rcases hop with rfl | rfl <;>
      exact legalises_writing rfl (by simp) (by simp) (hg.place_of_isVariable hd.1)
        (hg.plain_of_isValue hs.1) fun _ => by simp
  | toDouble hd hs | toInteger hd hs =>
    exact legalises_writing rfl (by simp) (by simp) (hg.place_of_isVariable hd.1)
      (hg.plain_of_isValue hs.1) fun _ => by simp
  | address hd hs => exact legalises_address (hg.place_of_isVariable hd.1) (hg.plain_of_isValue hs)
  | divide _ hop _ hs => exact legalises_divide (by simpa using hop) (hvalue hs.1)
  | push | pushRegister => exact legalises_push
  | modify hop hd =>
    refine legalises_of_legalise_eq ?_
    fin_cases hop <;> exact legalise_lone (hvariable hd.1).1 rfl rfl rfl rfl
  | setByte _ hd =>
    exact legalises_of_legalise_eq (legalise_lone (hvariable hd.1).1 rfl rfl rfl rfl)
  | clearUpper | jump | branch | label | call =>
    rw [hg.mapOperands_eq (by simp [pseudo?, Instr.label, bare])]
    exact legalises_of_legalise_eq rfl
  | _ => exact legalises_of_legalise_eq rfl

end Instr

end

/-! ### Functions -/

/-- The encodable form of every instruction in an allocated function of an accepted program has the
effect that the instruction has when its operands are taken as they are, unless it is an operation
on doubles whose result is lost. -/
theorem legalise_sameEffect {p : Program} {c : Config} {platform : Platform} {f : Function}
    {constants constants' : ConstantPool} {q : Procedure} (hverify : p.verify c = .ok ())
    (hf : f ∈ p.functions) (hq : lowerFunction p platform f constants = .ok (q, constants'))
    {i : Instr} (hi : i ∈ q.assignRegisters.procedure.body) (hroutes : i.misroutes = false)
    (e : Setting) (m : Storage) :
    i.SameEffect (q.assignRegisters.procedure.execute e .none m i)
      (q.assignRegisters.procedure.runAll e .none m i.legalise) := by
  obtain ⟨_, -, haccepted, -, -⟩ := p.accepted_of_verify hverify hf
  obtain ⟨g, hg, hreplaced⟩ := q.replaced_assignRegisters
  obtain ⟨k, hk, rfl⟩ := hreplaced.exists_of_mem hi
  exact (isLowered_of_lowerFunction hq haccepted.typeDefect?_eq k hk).legalises hg hroutes

/-- A static variable is added to another. -/
def addingFunction : Function where
  name := "f"
  isGlobal := true
  params := []
  returnType := none
  body := [.binary ⟨"x", .int⟩ .add (.var ⟨"x", .int⟩) (.var ⟨"y", .int⟩), .ret none]

def addingProgram : Program :=
  ⟨[addingFunction], [⟨"x", false, .ofInt .int 0⟩, ⟨"y", false, .ofInt .int 0⟩]⟩

theorem adding_sameEffect : ∃ q constants,
    lowerFunction addingProgram .linux addingFunction (.empty .linux) = .ok (q, constants) ∧
      (⟨.add, .long, [.data "x", .data "y"]⟩ : Instr) ∈ q.assignRegisters.procedure.body ∧
      (⟨.add, .long, [.data "x", .data "y"]⟩ : Instr).SameEffect
        (q.assignRegisters.procedure.execute sharingSetting .none sharingStorage
          ⟨.add, .long, [.data "x", .data "y"]⟩)
        (q.assignRegisters.procedure.runAll sharingSetting .none sharingStorage
          [⟨.mov, .long, [.reg .r10, .data "y"]⟩, ⟨.add, .long, [.data "x", .reg .r10]⟩]) := by
  obtain ⟨q, constants, hq, hi⟩ : ∃ q constants,
      lowerFunction addingProgram .linux addingFunction (.empty .linux) = .ok (q, constants) ∧
        (⟨.add, .long, [.data "x", .data "y"]⟩ : Instr) ∈ q.assignRegisters.procedure.body :=
    ⟨_, _, rfl, by decide +kernel⟩
  exact ⟨q, constants, hq, hi, legalise_sameEffect (c := {}) (by decide) (List.mem_singleton_self _)
    hq hi rfl sharingSetting sharingStorage⟩

/-- A quotient is assigned to a static variable. -/
def dividingFunction : Function where
  name := "f"
  isGlobal := true
  params := [⟨"a", .double⟩, ⟨"b", .double⟩]
  returnType := none
  body := [.binary ⟨"d", .double⟩ .divide (.var ⟨"a", .double⟩) (.var ⟨"b", .double⟩), .ret none]

def dividingProgram : Program := ⟨[dividingFunction], [⟨"d", false, .zero .double⟩]⟩

/-- The encodable form of a division of doubles does not store the quotient. -/
theorem dividing_losesQuotient : dividingProgram.verify {} = .ok () ∧ ∃ q constants,
    lowerFunction dividingProgram .linux dividingFunction (.empty .linux) = .ok (q, constants) ∧
      (⟨.div, .double, [.data "d", .reg (.xmm 1)]⟩ : Instr) ∈ q.assignRegisters.procedure.body ∧
      ∃ m m', q.assignRegisters.procedure.execute sharingSetting .none quotientStorage
          ⟨.div, .double, [.data "d", .reg (.xmm 1)]⟩ = .next m ∧
        q.assignRegisters.procedure.runAll sharingSetting .none quotientStorage
          (Instr.legalise ⟨.div, .double, [.data "d", .reg (.xmm 1)]⟩) = .next m' ∧
        m.bytes 0x2000 ≠ m'.bytes 0x2000 :=
  ⟨by decide, _, _, rfl, by decide +kernel, _, _, rfl, rfl, by decide⟩

end ThreeAddress.Amd64
