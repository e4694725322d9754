import ThreeAddress.Proofs.Amd64.DistinctLabels
import ThreeAddress.Proofs.Amd64.StackFrames

/-!
# The discipline of the stack

Only calls push anything, and what they push is gone after them.  So in the body of a procedure the
stack is as deep at a position as the code before it says, whatever path led there.  Allocating
registers and making instructions encodable do not change that.
-/

namespace ThreeAddress.Amd64

open List Amd64.Instr LoweringContext Operand

variable {arity? : String → Option Nat} {returns : Option ScalarType}
variable {constants constants' : ConstantPool}

/-! ### Lowered code -/

/-- How many bytes are pushed before and after an instruction of lowered code. -/
inductive Depth (targets : Label → Prop) : Nat → Instr → Nat → Prop
  | steady {d : Nat} {i : Instr} (hi : i.IsLowered true false targets) (hd : i.op ≠ .mov → d = 0) :
      Depth targets d i d
  | push {d : Nat} {s : Operand} (hs : s.isValue = true ∨ s = .reg .rax) :
      Depth targets d ⟨.push, .quad, [s]⟩ (d + 8)
  | lower {d n : Nat} : Depth targets d ⟨.sub, .quad, [.reg .rsp, .imm n]⟩ (d + n)
  | raise {d n : Nat} : Depth targets (d + n) ⟨.add, .quad, [.reg .rsp, .imm n]⟩ d
  | call {d : Nat} {symbol : String} (hd : d % 16 = 0) :
      Depth targets d ⟨.call, .quad, [.callee symbol]⟩ d

section

variable {targets : Label → Prop} {code : List Instr} {d : Nat}

theorem leads_of_forall_isLowered (h : ∀ i ∈ code, i.IsLowered true false targets) :
    Leads (Depth targets) 0 code 0 :=
  .of_forall_mem fun i hi => .steady (h i hi) fun _ => rfl

/-- A push makes the stack deeper by a word. -/
theorem IsPush.leads (h : IsPush (.lowered true false true) code) :
    Leads (Depth targets) d code (d + 8) := by
  cases h with
  | direct hs => exact .single (.push (.inl hs.1))
  | throughRegister hs =>
    refine .cons (.steady ?_ fun h => absurd rfl h) (.single (.push (.inr rfl)))
    exact .toRegister (by decide) nofun hs

theorem leads_pushes {pushes : List (List Instr)}
    (h : ∀ code ∈ pushes, IsPush (.lowered true false true) code) :
    Leads (Depth targets) d pushes.flatten (d + 8 * pushes.length) := by
  induction pushes generalizing d with
  | nil => exact .nil d
  | cons code rest ih =>
    obtain ⟨hcode, hrest⟩ := forall_mem_cons.mp h
    have hlength : d + 8 * (code :: rest).length = d + 8 + 8 * rest.length := by
      rw [length_cons]
      omega
    rw [hlength]
    exact hcode.leads.append (ih hrest)

/-- A call leaves the stack as it was, and makes it a multiple of sixteen bytes deep in between. -/
theorem IsCall.leads (h : IsCall (.lowered true false true) code) :
    Leads (Depth targets) 0 code 0 := by
  obtain @⟨n, pushes, moves, result, symbol, rfl, hpushes, hmoves, hresult⟩ := h
  have hgap : Leads (Depth targets) 0 (gapCode pushes.length) (padding pushes.length) := by
    unfold gapCode
    split
    · rename_i hzero
      rw [hzero]
      exact .nil 0
    · have hlower : Depth targets 0 _ (0 + padding pushes.length) := .lower
      rw [Nat.zero_add] at hlower
      exact .single hlower
  have hback : Leads (Depth targets) (padding pushes.length + 8 * pushes.length)
      (releaseCode pushes.length) 0 := by
    unfold releaseCode
    rw [Nat.add_comm]
    split
    · rename_i hzero
      rw [hzero]
      exact .nil 0
    · have hraise : Depth targets (0 + (8 * pushes.length + padding pushes.length)) _ 0 := .raise
      rw [Nat.zero_add] at hraise
      exact .single hraise
  have haligned : (padding pushes.length + 8 * pushes.length) % 16 = 0 := by
    rw [padding_eq]
    omega
  refine ((((hgap.append (leads_pushes hpushes)).append ?_).append
    (.single (.call haligned))).append
    hback).append ?_
  · refine .of_forall_mem fun i hi => ?_
    obtain ⟨w, r, s, rfl, hnamed, hr, hs⟩ := hmoves i hi
    exact .steady (.toRegister hnamed hr hs) fun h => absurd rfl h
  · refine .of_forall_mem fun i hi => ?_
    obtain ⟨w, e, r, rfl, he, hnamed, hr⟩ := hresult i hi
    exact .steady (.ofRegister rfl he hnamed hr) fun h => absurd rfl h

end

/-- What the code of an instruction does with the stack: all it pushes is gone afterwards, and a
return is at its end. -/
structure Balanced (qualified : Label → Label) (i : ThreeAddress.Instr) (code : List Instr) :
    Prop where
  leads : ∀ ⦃targets : Label → Prop⦄, (∀ l, Instr.label l ∈ code → targets l) →
    (∀ l, i.target? = some l → targets (qualified l)) → Leads (Depth targets) 0 code 0
  label_mem : ∀ l, i.label? = some l → .label (qualified l) ∈ code
  ret_last : ∀ value, i = .ret value → ∃ front, code = front ++ [.bare .ret []]

theorem LoweringContext.balanced_instr {ctx : LoweringContext} {i : ThreeAddress.Instr}
    (htype : i.typeDefect? returns arity? = none) :
    Lower.Yields (ctx.instr i) (Balanced ctx.qualified i) := by
  have hstays (hlabel : i.label? = none)
      (hcall : ∀ dst callee args, i = .call dst callee args → false = true)
      (hret : ∀ value, i ≠ .ret value) : Lower.Yields (ctx.instr i) (Balanced ctx.qualified i) := by
    refine (lowers_instr true false (fun _ => rfl) (fun _ => rfl) hcall htype).mono fun code
      hcode => ?_
    refine ⟨fun targets hl ht => leads_of_forall_isLowered (hcode hl ht), ?_, ?_⟩
    · intro l hl
      rw [hlabel] at hl
      cases hl
    · exact fun value hvalue => absurd hvalue (hret value)
  cases i with
  | label l =>
    refine .pure ⟨fun targets _ _ => .single (.steady (.label fun _ => rfl) fun _ => rfl), ?_,
      nofun⟩
    rintro _ ⟨⟩
    exact .head _
  | call dst callee args =>
    refine (FormRules.keeps_call (R := .lowered ctx true false true) (fun _ _ _ => rfl)
      fun _ _ _ => rfl).mono fun code hcode => ?_
    exact ⟨fun targets _ _ => hcode.leads, nofun, nofun⟩
  | ret value =>
    have hforms : Lower.Yields (ctx.instr (.ret value)) _ :=
      lowers_instr true false (fun _ => rfl) (fun _ => rfl) nofun htype
    have hlast : Lower.Yields (ctx.instr (.ret value))
        fun code => ∃ front, code = front ++ [.bare .ret []] := by
      cases value with
      | none => exact .pure ⟨[], rfl⟩
      | some v => exact .bind (yields_operand v) fun _ _ => .pure ⟨[_], rfl⟩
    refine fun st code st' _ hrun => ⟨trivial, fun targets hl ht => ?_, nofun, fun _ _ => ?_⟩
    · exact leads_of_forall_isLowered (hforms.of_run hrun hl ht)
    · exact hlast.of_run hrun
  | _ => exact hstays rfl nofun nofun

theorem exists_completed_eq (body : Listing ThreeAddress.Instr) :
    ∃ front value, completed body = front ++ [.ret value] := by
  unfold completed
  split
  · rename_i value hlast
    obtain ⟨front, rfl⟩ := getLast?_eq_some_iff.mp hlast
    exact ⟨front, value, rfl⟩
  · exact ⟨body, none, rfl⟩

theorem mem_completed_iff {body : Listing ThreeAddress.Instr} {i : ThreeAddress.Instr}
    (hi : ∀ value, i ≠ .ret value) : i ∈ completed body ↔ i ∈ body := by
  unfold completed
  split
  · rfl
  · simp [hi none]

theorem depth_lowerFunction {p : Program} {platform : Platform} {f : Function} {q : Procedure}
    (hq : lowerFunction p platform f constants = .ok (q, constants'))
    (htype : ∀ i ∈ f.body, i.typeDefect? returns arity? = none)
    (hdefined : ∀ i ∈ f.body, ∀ l, i.target? = some l →
      l ∈ f.body.filterMap ThreeAddress.Instr.label?) :
    ∃ front, q.body = front ++ [.bare .ret []] ∧
      Leads (Depth fun l => .label l ∈ q.body) 0 front 0 := by
  obtain ⟨params, body, st₁, st₂, hparams, hbody, rfl⟩ := exists_of_lowerFunction hq
  have hret : Balanced (of p platform f).qualified (.ret none) [.bare .ret []] :=
    ⟨fun _ _ _ => .single (.steady .ret fun _ => rfl), nofun, fun _ _ => ⟨[], rfl⟩⟩
  obtain ⟨blocks, rfl, hblocks⟩ := (keeps_body
    (fun i hi => balanced_instr (htype i hi)) hret).of_run hbody
  have hfront : Leads (Depth fun l => .label l ∈ params ++ blocks.flatten) 0 params 0 := by
    refine leads_of_forall_isLowered ?_
    exact fun i hi => (lowers_params true false fun _ _ _ => rfl).of_run hparams i hi _
  have hwhole : Leads (Depth fun l => .label l ∈ params ++ blocks.flatten) 0
      (params ++ blocks.flatten) 0 := by
    refine hfront.append (.flatten fun block hblock => ?_)
    obtain ⟨i, hi, hbalanced⟩ := exists_of_forall₂_of_mem hblocks hblock
    refine hbalanced.leads (fun l hl => mem_append_right _ (mem_flatten_of_mem hblock hl)) ?_
    -- The target of a jump is a label of the function, and this label has a block of its own.
    intro l hl
    have hi : i ∈ f.body := by
      refine (mem_completed_iff ?_).mp hi
      rintro value rfl
      cases hl
    obtain ⟨i', hi', hlabel⟩ := mem_filterMap.mp (hdefined i hi l hl)
    have hi' : i' ∈ completed f.body := by
      refine (mem_completed_iff ?_).mpr hi'
      rintro value rfl
      cases hlabel
    obtain ⟨block', hblock', hbalanced'⟩ := exists_of_forall₂_of_mem hblocks.flip hi'
    exact mem_append_right _ (mem_flatten_of_mem hblock' (hbalanced'.label_mem l hlabel))
  obtain ⟨front, hlast⟩ : ∃ front, params ++ blocks.flatten = front ++ [.bare .ret []] := by
    obtain ⟨first, value, hcompleted⟩ := exists_completed_eq f.body
    rw [hcompleted, ← forall₂_reverse_iff, reverse_concat] at hblocks
    generalize hreverse : blocks.reverse = reversed at hblocks
    cases hblocks with
    | @cons _ block _ rest hbalanced _ =>
      obtain ⟨front, rfl⟩ := hbalanced.ret_last value rfl
      have hblocks : blocks = rest.reverse ++ [front ++ [.bare .ret []]] := by
        rw [← reverse_reverse blocks, hreverse, reverse_cons]
      refine ⟨params ++ rest.reverse.flatten ++ front, ?_⟩
      simp [hblocks]
  refine ⟨front, hlast, ?_⟩
  rw [hlast] at hwhole
  obtain ⟨d, hlead, hend⟩ := hwhole.exists_of_append
  cases hend with
  | cons hi hnil =>
    cases hi with
    | steady _ hd =>
      obtain rfl := hd nofun
      rw [hlast]
      exact hlead

/-! ### Operands -/

theorem Register.ne_of_mem_colours {r : Register} {c : RegisterClass} (hr : r ∈ c.colours) :
    r ≠ .rsp ∧ r ≠ .rbp := by
  cases c <;> revert r <;> decide

/-- A lowered instruction that does not use the stack computes something, or it is concerned with
the flow of control. -/
theorem Instr.IsLowered.computes_or {i : Instr} {doubles : Bool} {targets : Label → Prop}
    (h : i.IsLowered doubles false targets) : i.op.computes = true ∨ i = .bare .ret [] ∨
      ∃ l, i = .label l ∨ targets l ∧ (i = ⟨.jmp, .quad, [.label l]⟩ ∨
        ∃ c, i = ⟨.jcc c, .quad, [.label l]⟩) := by
  have hcomputes (ops : List Opcode) (hops : ∀ op ∈ ops, op.computes = true) {op : Opcode}
      (hop : op ∈ ops) : op.computes = true := hops op hop
  cases h with
  | @jump l hl => exact .inr (.inr ⟨l, .inr ⟨hl, .inl rfl⟩⟩)
  | @branch c l hl => exact .inr (.inr ⟨l, .inr ⟨hl, .inr ⟨c, rfl⟩⟩⟩)
  | @label l => exact .inr (.inr ⟨l, .inl rfl⟩)
  | ret => exact .inr (.inl rfl)
  | combine hop =>
    refine .inl (hop.elim (hcomputes _ (by decide)) ?_)
    rintro ⟨rfl, -⟩
    rfl
  | modify hop | divide _ hop | shift hop | shiftByRegister _ hop =>
    exact .inl (hcomputes _ (by decide) hop)
  | extend hop =>
    refine .inl ?_
    rcases hop with rfl | rfl <;> rfl
  | push h | pushRegister h | call h | moveStack _ h => cases h
  | _ => exact .inl rfl

theorem Operand.IsLowered.isTame {o : Operand} {doubles : Bool} (h : o.IsLowered doubles false)
    {g : Operand → Operand} {stackSize : Nat} (hg : Settled g stackSize) {f : Frame}
    (hlocals : stackSize ≤ f.locals)
    (hnamed : ∀ r, g o = .reg r → r ∈ Register.calleeSaved → r ∈ f.saved) : (g o).IsTame f := by
  have hregister {r : Register} (hr : g o = .reg r) (hne : r ≠ .rsp ∧ r ≠ .rbp) :
      (g o).IsTame f := by
    have hcallee := hnamed r hr
    rw [hr]
    exact ⟨hne.1, hne.2, hcallee⟩
  rcases hg.cases_on o with ⟨hfixed, hpseudo⟩ | hhome
  · cases h with
    | value ho =>
      rw [hfixed]
      cases o <;> trivial
    | @register r hr =>
      refine hregister hfixed ?_
      have hframe : ∀ r ∈ namedRegisters, r ≠ .rsp ∧ r ≠ .rbp := by decide
      exact hframe r hr
    | argument =>
      rw [hfixed]
      exact ⟨by decide, fun _ => .inr ⟨_, rfl⟩⟩
    | pointer =>
      rw [hfixed]
      exact ⟨by decide, nofun⟩
    | label =>
      rw [hfixed]
      trivial
    | stackPointer h | callee h => cases h
  · generalize ho : g o = home at *
    cases hhome with
    | @register r hr =>
      exact hregister rfl (Register.ne_of_mem_colours hr)
    | @slot n hn hpos hle =>
      obtain ⟨k, rfl⟩ := hn
      refine ⟨by decide, fun _ => .inl ⟨k, ?_, by omega, by omega⟩⟩
      unfold slotDisplacement
      omega

/-! ### Encodable code -/

namespace Frame

/-- The code of an instruction of a procedure with a frame: returns remove the frame. -/
def expanded (f : Frame) (i : Instr) : List Instr :=
  if i.op = .ret then f.epilogue.map Prod.fst else [i]

end Frame

section

variable {f : Frame} {targets : Label → Prop} {g : Operand → Operand} {stackSize d d' : Nat}
  {i : Instr} {code code' : List Instr}

theorem Instr.leads_legalise_of_computes (hop : i.op.computes = true)
    (htame : ∀ o ∈ i.operands, o.IsTame f) (hwidths : i.operands.length ≤ i.operandWidths.length) :
    Leads (Known.Moves f targets) (.inBody f d) (i.legalise.flatMap f.expanded) (.inBody f d) := by
  have hpush : i.op ≠ .push := by
    intro h
    rw [h] at hop
    cases hop
  have hplain : ∀ j ∈ i.legalise, j.IsPlain f := by
    intro j hj
    have hpart := part_of_mem_legalise hj hwidths
    refine ⟨?_, fun o ho => ?_⟩
    · rcases hpart.op_cases with h | h | h <;> rw [h]
      · exact hop
      · rfl
      · rfl
    · rcases hpart.operand_cases hpush ho with ho | ⟨r, hr, rfl⟩
      · exact htame o ho
      · refine (by decide : ∀ r ∈ scratchRegisters, r ≠ .rsp ∧ r ≠ .rbp ∧ r ∉ Register.calleeSaved)
          r hr |>.imp_right fun h => h.imp_right fun h h' => absurd h' h
  have hleads : Leads (Known.Moves f targets) (.inBody f d) i.legalise (.inBody f d) :=
    .of_forall_mem fun j hj => .plain (hplain j hj)
  refine hleads.flatMap fun j hj _ _ hmoves => ?_
  rw [Frame.expanded, if_neg fun h => nomatch h ▸ (hplain j hj).computes]
  exact .single hmoves

/-- A lowered instruction changes the depth of the stack by as much after allocation, in an
encodable form. -/
theorem Depth.leads (h : Depth targets d i d') (hg : Settled g stackSize)
    (hlocals : stackSize ≤ f.locals)
    (hnamed : ∀ r, .reg r ∈ (i.mapOperands g).operands → r ∈ Register.calleeSaved → r ∈ f.saved) :
    Leads (Known.Moves f targets) (.inBody f d) ((i.mapOperands g).legalise.flatMap f.expanded)
      (.inBody f d') := by
  have hr10 : IsTame f (.reg .r10) := ⟨by decide, by decide, fun h => absurd h (by decide)⟩
  have hstack {op : Opcode} {n : Int} : mapOperands g ⟨op, .quad, [.reg .rsp, .imm n]⟩ =
      ⟨op, .quad, [.reg .rsp, .imm n]⟩ := hg.mapOperands_eq (by simp [pseudo?])
  cases h with
  | steady hi hd =>
    rcases hi.computes_or with hop | rfl | ⟨l, hl⟩
    · refine leads_legalise_of_computes hop ?_ ?_
      · intro o ho
        obtain ⟨o, ho', rfl⟩ := mem_map.mp ho
        exact (hi.operands o ho').isTame hg hlocals fun r hr hcallee => hnamed r (hr ▸ ho) hcallee
      · rw [operandWidths_mapOperands, mapOperands, length_map]
        exact hi.operandWidths_length
    · obtain rfl := hd (by rintro ⟨⟩)
      have hexpanded : (mapOperands g (.bare .ret [])).legalise.flatMap f.expanded =
          f.epilogue.map Prod.fst := append_nil _
      rw [hexpanded]
      exact f.leads_epilogue targets _
    · rcases hl with rfl | ⟨hl, rfl | ⟨c, rfl⟩⟩ <;> obtain rfl := hd (by rintro ⟨⟩) <;>
        rw [hg.mapOperands_eq (by simp [pseudo?, Instr.label, bare])]
      · exact .single .label
      · exact .single (.jump hl)
      · exact .single (.branch hl)
  | @push _ o ho =>
    have htame : (g o).IsTame f := by
      have hlowered : o.IsLowered true false := by
        rcases ho with ho | rfl
        · exact .value ho
        · exact .register (by decide) (by simp)
      exact hlowered.isTame hg hlocals fun r hr hcallee =>
        hnamed r (hr ▸ mem_map_of_mem (.head _)) hcallee
    show Leads _ _ ((legalise ⟨.push, .quad, [g o]⟩).flatMap f.expanded) _
    rcases legalise_push_cases (g o) with hform | ⟨n, hn, hform⟩ | ⟨r, hr, hform⟩ <;>
      rw [hform]
    · exact .single (.push htame)
    · refine .cons (.plain ⟨rfl, ?_⟩) (.single (.push hr10))
      exact forall_mem_cons.mpr ⟨hr10, forall_mem_singleton.mpr trivial⟩
    · exact .cons .lower (.single .spill)
  | @lower _ n =>
    rw [hstack]
    rcases legalise_moveStack_cases (by decide : Opcode.sub ∈ [.add, .sub]) n with
      hform | hform <;>
      rw [hform]
    · exact .single .lower
    · exact .cons .load (.single .lowerLoaded)
  | @raise _ n =>
    rw [hstack]
    rcases legalise_moveStack_cases (by decide : Opcode.add ∈ [.add, .sub]) n with
      hform | hform <;>
      rw [hform]
    · exact .single .raise
    · exact .cons .load (.single .raiseLoaded)
  | @call _ symbol hd =>
    rw [hg.mapOperands_eq (by simp [pseudo?])]
    exact .single (.call hd)

/-- The encodable form of allocated code leads where the lowered code leads. -/
theorem Replaced.leads (h : Replaced g code code') (hdepth : Leads (Depth targets) d code d')
    (hg : Settled g stackSize) (hlocals : stackSize ≤ f.locals)
    (hnamed : ∀ i ∈ code', ∀ r, .reg r ∈ i.operands → r ∈ Register.calleeSaved → r ∈ f.saved) :
    Leads (Known.Moves f targets) (.inBody f d) ((legaliseAll code').flatMap f.expanded)
      (.inBody f d') := by
  induction h generalizing d with
  | nil =>
    cases hdepth
    exact .nil _
  | keep i _ ih =>
    cases hdepth with
    | cons hi hrest =>
      obtain ⟨hnamedi, hnamed⟩ := forall_mem_cons.mp hnamed
      rw [legaliseAll, flatMap_cons, flatMap_append]
      exact (hi.leads hg hlocals hnamedi).append (ih hrest hnamed)
  | drop hself _ ih =>
    cases hdepth with
    | cons hi hrest =>
      -- Only copies are dropped, and they leave the stack as it is.
      have hop := (isSelfMove_iff.mp hself).1
      cases hi with
      | steady => exact ih hrest hnamed
      | _ => cases hop

/-- Code that returns at its end keeps the discipline of the stack between a prologue and the
epilogues. -/
theorem Replaced.leads_code {front : List Instr} (h : Replaced g (front ++ [.bare .ret []]) code')
    (hdepth : Leads (Depth targets) 0 front 0) (hg : Settled g stackSize)
    (hlocals : stackSize ≤ f.locals)
    (hnamed : ∀ i ∈ code', ∀ r, .reg r ∈ i.operands → r ∈ Register.calleeSaved → r ∈ f.saved) :
    Leads (Known.Moves f targets) .entered
      (f.prologue.map Prod.fst ++ (legaliseAll code').flatMap f.expanded) .nowhere := by
  obtain ⟨front', last', rfl, hfront, hlast⟩ := h.exists_of_append
  have hlast : last' = [.bare .ret []] := by
    cases hlast with
    | keep _ hrest =>
      cases hrest
      rfl
    | drop hself => cases (isSelfMove_iff.mp hself).1
  -- The last instruction returns, so control does not go on after it.
  have hreturn : (legaliseAll last').flatMap f.expanded = f.epilogue.map Prod.fst := by
    rw [hlast]
    exact append_nil _
  rw [legaliseAll, flatMap_append, flatMap_append]
  refine (f.leads_prologue targets).append (.append ?_ (hreturn ▸ f.leads_epilogue targets _))
  exact hfront.leads hdepth hg hlocals fun i hi => hnamed i (mem_append_left _ hi)

theorem Replaced.label_mem (h : Replaced g code code') (hg : Settled g stackSize) {l : Label}
    (hl : .label l ∈ code) : .label l ∈ (legaliseAll code').flatMap f.expanded := by
  have hmapped : (Instr.label l).mapOperands g = .label l :=
    hg.mapOperands_eq (by simp [pseudo?, Instr.label, bare])
  have hmem := h.mem_of_mem hl (by rfl)
  rw [hmapped] at hmem
  refine mem_flatMap.mpr ⟨.label l, mem_flatMap.mpr ⟨.label l, hmem, .head _⟩, ?_⟩
  exact .head _

end

/-! ### Procedures -/

namespace Procedure

theorem mem_savedRegisters_iff {p : Procedure} {r : Register} : r ∈ p.savedRegisters ↔
    r ∈ Register.calleeSaved ∧ ∃ i ∈ p.body, .reg r ∈ i.operands := by
  have hreg {o : Operand} : o.reg? = some r ↔ o = .reg r := by
    cases o <;> simp [reg?]
  unfold savedRegisters
  rw [Std.ExtTreeSet.mem_toList, Std.ExtTreeSet.mem_ofList, contains_iff_mem, mem_filter,
    contains_iff_mem, and_comm]
  simp only [mem_filterMap, mem_flatMap, hreg, exists_eq_right]

theorem nodup_savedRegisters (p : Procedure) : p.savedRegisters.Nodup := by
  refine Std.ExtTreeSet.distinct_toList.imp fun h heq => h ?_
  exact Std.LawfulEqOrd.compare_eq_iff_eq.mpr heq

theorem frame_assignRegisters (p : Procedure) : p.assignRegisters.frame =
    .ofSlots p.allocation.stackSize p.assignRegisters.procedure.savedRegisters := rfl

end Procedure

section

variable (n : Nat) (saved : List Register)

theorem Frame.saved_ofSlots : (ofSlots n saved).saved = saved := rfl

theorem Frame.le_locals_ofSlots : n ≤ (ofSlots n saved).locals := by
  unfold ofSlots roundUp16
  simp only
  omega

theorem Frame.size_ofSlots_mod : (ofSlots n saved).size % 16 = 0 := by
  unfold size ofSlots roundUp16
  simp only
  omega

end

namespace EmittedProcedure

/-- The instructions of a procedure with its frame, and the remarks behind them. -/
def remarkedCode (e : EmittedProcedure) : List (Instr × Option String) :=
  e.frame.prologue.map (Prod.map id some) ++ e.procedure.body.flatMap fun i =>
    if i.op = .ret then e.frame.epilogue.map (Prod.map id some) else [(i, none)]

def code (e : EmittedProcedure) : List Instr := e.remarkedCode.map Prod.fst

/-- These are the instructions that are emitted. -/
theorem lines_eq (platform : Platform) (e : EmittedProcedure) : e.lines platform =
    globalLines e.procedure.isGlobal (platform.symbol e.procedure.name) ++
      [Directive.text.line, (Directive.label (platform.symbol e.procedure.name)).line] ++
      e.remarkedCode.map (fun x => x.2.elim x.1.text x.1.remarked) ++ [""] := by
  have hremarked (code : List (Instr × String)) : remarkedLines code =
      (code.map (Prod.map id some)).map fun x => x.2.elim x.1.text x.1.remarked := by
    rw [map_map]
    rfl
  unfold lines remarkedCode
  rw [map_append, map_flatMap, ← hremarked]
  simp only [← append_assoc]
  congr 3
  funext i
  split
  · exact hremarked _
  · rfl

theorem code_eq (e : EmittedProcedure) : e.code =
    e.frame.prologue.map Prod.fst ++ e.procedure.body.flatMap e.frame.expanded := by
  have hcode (code : List (Instr × String)) :
      (code.map (.map id some)).map Prod.fst = code.map Prod.fst := by
    rw [map_map]
    rfl
  unfold code remarkedCode
  rw [map_append, map_flatMap, hcode]
  congr 2
  funext i
  unfold Frame.expanded
  split
  · exact hcode _
  · rfl

end EmittedProcedure

/-- The code of a finished function keeps the discipline of the stack, and has the labels of the
lowered function. -/
theorem leads_finish {p : Program} {c : Config} {f : Function} {q : Procedure}
    (hq : lowerFunction p c.platform f constants = .ok (q, constants'))
    (htype : ∀ i ∈ f.body, i.typeDefect? returns arity? = none)
    (hdefined : ∀ i ∈ f.body, ∀ l, i.target? = some l →
      l ∈ f.body.filterMap ThreeAddress.Instr.label?) :
    Leads (Known.Moves (finish c q).emitted.frame fun l => .label l ∈ q.body) .entered
      (finish c q).emitted.code .nowhere ∧
      ∀ l, .label l ∈ q.body → .label l ∈ (finish c q).emitted.code := by
  obtain ⟨front, hbody, hdepth⟩ := depth_lowerFunction hq htype hdefined
  obtain ⟨g, hg, hreplaced⟩ := q.replaced_assignRegisters
  have hnamed : ∀ i ∈ q.assignRegisters.procedure.body, ∀ r, .reg r ∈ i.operands →
      r ∈ Register.calleeSaved → r ∈ q.assignRegisters.procedure.savedRegisters :=
    fun i hi r hr hcallee => Procedure.mem_savedRegisters_iff.mpr ⟨hcallee, i, hi, hr⟩
  have hframe : (finish c q).emitted.frame =
      .ofSlots q.allocation.stackSize q.assignRegisters.procedure.savedRegisters :=
    q.frame_assignRegisters
  have hfinal : (finish c q).emitted.procedure.body =
      legaliseAll q.assignRegisters.procedure.body := rfl
  rw [EmittedProcedure.code_eq, hframe, hfinal]
  generalize q.assignRegisters.procedure.savedRegisters = saved at hnamed ⊢
  exact ⟨(hbody ▸ hreplaced).leads_code hdepth hg (Frame.le_locals_ofSlots _ _) hnamed,
    fun l hl => mem_append_right _ (hreplaced.label_mem hg hl)⟩

/-- Along every run of a procedure of an accepted program, the stack pointer is a multiple of
sixteen at every call, and an epilogue starts with nothing pushed.  At a return, the return address
and the registers that belong to the caller are what they were at entry.  Control does not leave the
code, and what is addressed through the base pointer lies in the frame. -/
theorem stack_discipline {p : Program} {c : Config} {a : Assembly} {e : EmittedProcedure}
    (hverify : p.verify c = .ok ()) (ha : assembly? p c = .ok a) (he : e ∈ a.procedures) :
    (∀ i ∈ e.code, ∀ offset, .memory .rbp offset ∈ i.operands →
      (∃ k : Nat, offset = -(8 * k : Int) ∧ 8 ≤ 8 * k ∧ 8 * k ≤ e.frame.locals) ∨
        ∃ n, offset = stackArgumentOffset n) ∧
      ∀ (entry : Contents), entry.registers .rsp % 16 = 8 → ∀ (k : Nat) (s : Contents),
        Relation.ReflTransGen (Advances (e.frame.Guarded (entry.registers .rsp)) e.code)
          (0, entry) (k, s) →
        (∃ i, e.code[k]? = some i ∧
          (i.op = .call → s.registers .rsp % 16 = 0) ∧
          (i.op = .ret → s.words (s.registers .rsp) = entry.words (entry.registers .rsp) ∧
            ∀ r ∈ [Register.rbx, .r12, .r13, .r14, .r15, .rbp, .rsp],
              s.registers r = entry.registers r)) ∧
        (e.frame.epilogue.map Prod.fst <+: e.code.drop k → s.registers .rsp =
          s.registers .rbp - e.frame.locals - 8 * e.frame.saved.length) := by
  obtain ⟨-, hprocedures⟩ := forall₂_of_assembly? hverify ha
    (P := fun f e => ∃ constants q constants',
      lowerFunction p c.platform f constants = .ok (q, constants') ∧ e = (finish c q).emitted)
    fun f _ _ constants q constants' _ hq => ⟨constants, q, constants', hq, rfl⟩
  obtain ⟨f, hf, constants, q, constants', hq, rfl⟩ := exists_of_forall₂_of_mem hprocedures he
  obtain ⟨_, -, haccepted, -, -⟩ := p.accepted_of_verify hverify hf
  obtain ⟨hcode, hlabels⟩ := leads_finish hq haccepted.typeDefect?_eq haccepted.target_defined
  have hframe : (finish c q).emitted.frame =
      .ofSlots q.allocation.stackSize q.assignRegisters.procedure.savedRegisters :=
    q.frame_assignRegisters
  have hsize : (finish c q).emitted.frame.size % 16 = 0 := hframe ▸ Frame.size_ofSlots_mod _ _
  have hsaved : (finish c q).emitted.frame.saved = q.assignRegisters.procedure.savedRegisters := by
    rw [hframe, Frame.saved_ofSlots]
  have hcallee : ∀ r ∈ (finish c q).emitted.frame.saved, r ∈ Register.calleeSaved := by
    exact fun r hr => (Procedure.mem_savedRegisters_iff.mp hr).1
  have hnodup : (finish c q).emitted.frame.saved.Nodup := by
    exact Procedure.nodup_savedRegisters _
  generalize (finish c q).emitted = e at *
  constructor
  · intro i hi offset hoffset
    obtain ⟨_, _, hmoves⟩ := hcode.exists_of_mem hi
    exact hmoves.inFrame hoffset
  · intro entry hentry k s hrun
    -- What is known of the stack before an instruction holds whenever it is reached.
    obtain ⟨known, hlead, hknown⟩ := exists_known hnodup hcallee hcode hlabels hrun
    constructor
    · cases hi : e.code[k]? with
      | none =>
        -- Nothing is known past the end of the code, as it is not reached.
        rw [drop_eq_nil_of_le (getElem?_eq_none_iff.mp hi)] at hlead
        cases hlead
        exact hknown.elim
      | some i =>
        rw [Outline.drop_eq_cons hi] at hlead
        cases hlead with
        | cons hmoves _ =>
          refine ⟨i, rfl, fun hop => ?_, fun hop => ?_⟩
          · obtain ⟨d, hd, rfl⟩ := hmoves.exists_of_call hop
            have hrsp := Framed.rsp_eq hknown
            omega
          · obtain rfl := hmoves.eq_returning_of_ret hop
            obtain ⟨haddress, hregisters⟩ := hknown
            rw [hregisters .rsp (by decide)]
            exact ⟨haddress, fun r hr => hregisters r (by revert r; decide)⟩
    · rintro ⟨rest, hrest⟩
      rw [← hrest] at hlead
      have hrsp := e.frame.rsp_eq_of_epilogue hnodup hcallee hlead hknown
      rw [hrsp, Frame.size]
      omega

/-- A parameter is needed after a call. -/
def preservingFunction : Function where
  name := "f"
  isGlobal := true
  params := [⟨"x", .int⟩]
  returnType := none
  body := [.call none "g" [.var ⟨"x", .int⟩], .call none "g" [.var ⟨"x", .int⟩], .ret none]

def preservingCode : List Instr :=
  [.bare .push [.reg .rbp], .bare .mov [.reg .rbp, .reg .rsp], .bare .sub [.reg .rsp, .imm 8],
    .bare .push [.reg .rbx], ⟨.mov, .long, [.reg .rbx, .reg .rdi]⟩,
    ⟨.mov, .long, [.reg .rdi, .reg .rbx]⟩, .bare .call [.callee "g@PLT"],
    ⟨.mov, .long, [.reg .rdi, .reg .rbx]⟩, .bare .call [.callee "g@PLT"],
    .bare .pop [.reg .rbx], .bare .mov [.reg .rsp, .reg .rbp], .bare .pop [.reg .rbp],
    .bare .ret []]

def preservingEntry : Contents := ⟨fun r => if r = .rsp then 1000 else 0, fun _ => 0⟩

/-- What the registers hold at the first call. -/
def preservingContents : Contents :=
  (((preservingEntry.set .rsp 992).set .rbp 992).set .rsp 984).set .rsp 976

theorem preservingCode_reaches_call (guarded : Int → Prop) : Relation.ReflTransGen
    (Advances guarded preservingCode) (0, preservingEntry) (6, preservingContents) := by
  have hlink : (bare .push [.reg .rbp]).Allows guarded preservingEntry
      (preservingEntry.set .rsp 992) := ⟨rfl, fun n h => Option.some.inj h, fun _ _ => rfl⟩
  have hsave : (bare .push [.reg .rbx]).Allows guarded
      (((preservingEntry.set .rsp 992).set .rbp 992).set .rsp 984) preservingContents :=
    ⟨rfl, fun n h => Option.some.inj h, fun _ _ => rfl⟩
  refine .head (.step rfl nofun hlink (by decide : 1 ∈ _)) ?_
  refine .head (.step rfl nofun rfl (by decide : 2 ∈ _)) ?_
  refine .head (.step rfl nofun rfl (by decide : 3 ∈ _)) ?_
  refine .head (.step rfl nofun hsave (by decide : 4 ∈ _)) ?_
  refine .head (.step rfl nofun ⟨fun _ _ _ => rfl, fun _ _ => rfl⟩ (by decide : 5 ∈ _)) ?_
  exact .single (.step rfl nofun ⟨fun _ _ _ => rfl, fun _ _ => rfl⟩ (by decide))

theorem preserving_stack_discipline : ∃ a e, assembly? ⟨[preservingFunction], []⟩ {} = .ok a ∧
    e ∈ a.procedures ∧ e.code = preservingCode ∧
      Relation.ReflTransGen (Advances (e.frame.Guarded (preservingEntry.registers .rsp)) e.code)
        (0, preservingEntry) (6, preservingContents) ∧
      preservingContents.registers .rsp % 16 = 0 := by
  obtain ⟨a, e, ha, he, hcode⟩ : ∃ a e, assembly? ⟨[preservingFunction], []⟩ {} = .ok a ∧
      e ∈ a.procedures ∧ e.code = preservingCode := ⟨_, _, rfl, .head _, by decide +kernel⟩
  have hrun := preservingCode_reaches_call (e.frame.Guarded (preservingEntry.registers .rsp))
  rw [← hcode] at hrun
  obtain ⟨⟨i, hi, hcall, -⟩, -⟩ :=
    (stack_discipline (by decide) ha he).2 preservingEntry rfl _ _ hrun
  rw [hcode] at hi
  cases hi
  exact ⟨a, e, ha, he, hcode, hrun, hcall rfl⟩

end ThreeAddress.Amd64
