import ThreeAddress.Amd64.Encodable
import ThreeAddress.Proofs.Amd64.LoweredForms

/-!
# What an encodable form consists of

Making an instruction encodable gives the instruction itself, with scratch registers in place of
some operands, between copies that bring these operands to the scratch registers and back.  A push
of a double has no such form, and a copy of a place to itself needs none.
-/

namespace ThreeAddress.Amd64

open List

variable {op : Opcode}

namespace Instr

/-- The registers that are kept free for encodable forms. -/
def scratchRegisters : List Register := [.r10, .r11, .xmm 14, .xmm 15]

theorem destinationScratch_mem (w : Width) : destinationScratch w ∈ scratchRegisters := by
  unfold destinationScratch
  split <;> decide

theorem sourceScratch_mem (w : Width) : sourceScratch w ∈ scratchRegisters := by
  unfold sourceScratch
  split <;> decide

/-! ### Widths and directions -/

theorem operandWidths_of_length {i : Instr} {operands : List Operand}
    (h : operands.length = i.operands.length) :
    ({ i with operands := operands } : Instr).operandWidths = i.operandWidths := by
  obtain ⟨op, w, operands'⟩ := i
  have hmap : operands.map (fun _ => w) = operands'.map fun _ => w := by
    rw [map_const', map_const', h]
  cases op with
  | movzx source => cases source <;> rfl
  | movsx | cvtsi2sd | cvttsd2si | sal | sar | shr | setcc | push | pop => rfl
  | _ => exact hmap

theorem operandWidths_mapOperands (i : Instr) (g : Operand → Operand) :
    (i.mapOperands g).operandWidths = i.operandWidths :=
  operandWidths_of_length (length_map g)

theorem directions_ne_nil {i : Instr} (h : i.operands ≠ []) : i.directions ≠ [] := by
  obtain ⟨op, w, operands⟩ := i
  obtain ⟨first, rest, rfl⟩ := exists_cons_of_ne_nil h
  unfold directions positions
  cases op with
  | xor =>
    cases rest with
    | nil => simp
    | cons second rest =>
      cases rest with
      | nil =>
        simp only
        split <;> simp
      | cons third rest => simp
  | _ => simp

/-! ### Parts -/

/-- An operand in an encodable form: it stays, or a scratch register takes its place. -/
inductive Stands (refused : Bool) (o : Operand) : Operand → Prop
  | same (h : refused = false) : Stands refused o o
  | scratch {r : Register} (h : refused = true) (hr : r ∈ scratchRegisters) :
      Stands refused o (.reg r)

/-- The instructions of the encodable form of an instruction. -/
inductive Part (i : Instr) : Instr → Prop
  /-- The first operand is brought to a scratch register. -/
  | loadFirst {first : Operand} {r : Register} (hfirst : i.operands[0]? = some first)
      (hillegal : i.isFirstIllegal first = true) (hr : r ∈ scratchRegisters) :
      Part i ⟨.mov, i.width, [.reg r, first]⟩
  /-- The second operand is brought to a scratch register, with its own width. -/
  | loadSecond {first second first' : Operand} {rest : List Operand} {r : Register} {w : Width}
      (hoperands : i.operands = first :: second :: rest)
      (hfirst : Stands (i.isFirstIllegal first) first first')
      (hillegal : i.isSecondIllegal first' second = true) (hw : i.operandWidths[1]? = some w)
      (hr : r ∈ scratchRegisters) : Part i ⟨.mov, w, [.reg r, second]⟩
  /-- The result is brought from a scratch register to the first operand. -/
  | storeFirst {first : Operand} {r : Register} {d : Direction}
      (hfirst : i.operands[0]? = some first) (hillegal : i.isFirstIllegal first = true)
      (hd : i.directions[0]? = some d ∧ d.writes = true) (hr : r ∈ scratchRegisters) :
      Part i ⟨.mov, i.width, [first, .reg r]⟩
  /-- The instruction itself. -/
  | none (hoperands : i.operands = []) : Part i i
  | one {first first' : Operand} (hoperands : i.operands = [first])
      (hfirst : Stands (i.isFirstIllegal first) first first') :
      Part i { i with operands := [first'] }
  | two {first second first' second' : Operand} {rest : List Operand}
      (hoperands : i.operands = first :: second :: rest)
      (hfirst : Stands (i.isFirstIllegal first) first first')
      (hsecond : Stands (i.isSecondIllegal first' second) second second') :
      Part i { i with operands := first' :: second' :: rest }
  | pushSse {r : Register} {j : Instr} (hop : i.op = .push) (hoperands : i.operands = [.reg r])
      (hr : r.isSse = true) (hj : j ∈ pushSse r) : Part i j

variable {i j : Instr} {first second : Operand} {rest : List Operand} {d : Direction} {w v : Width}

theorem legaliseFirst_cases (i : Instr) (d : Direction) (w : Width) (isLone : Bool)
    (first : Operand) :
    i.legaliseFirst d w isLone first = (first, [], []) ∧ i.isFirstIllegal first = false ∨
      ∃ r ∈ scratchRegisters, i.isFirstIllegal first = true ∧
        i.legaliseFirst d w isLone first = (.reg r, i.aroundScratch d first (.reg r)) := by
  unfold legaliseFirst
  cases hillegal : i.isFirstIllegal first with
  | false => exact .inl ⟨rfl, rfl⟩
  | true =>
    refine .inr ⟨_, ?_, rfl, rfl⟩
    split
    · exact sourceScratch_mem w
    · exact destinationScratch_mem w

theorem legaliseSecond_cases (i : Instr) (w : Width) (first second : Operand) :
    i.legaliseSecond w first second = (second, []) ∧ i.isSecondIllegal first second = false ∨
      i.isSecondIllegal first second = true ∧ i.legaliseSecond w first second =
        (.reg (sourceScratch w), [⟨.mov, w, [.reg (sourceScratch w), second]⟩]) := by
  unfold legaliseSecond
  cases i.isSecondIllegal first second with
  | false => exact .inl ⟨rfl, rfl⟩
  | true => exact .inr ⟨rfl, rfl⟩

theorem legaliseOperands_lone {s : Operand}
    (hdirections : (⟨op, w, [s]⟩ : Instr).directions = [.read])
    (hwidths : (⟨op, w, [s]⟩ : Instr).operandWidths = [v]) :
    legaliseOperands ⟨op, w, [s]⟩ =
      if (⟨op, w, [s]⟩ : Instr).isFirstIllegal s = true then
        [⟨.mov, w, [.reg (sourceScratch v), s]⟩, ⟨op, w, [.reg (sourceScratch v)]⟩]
      else [⟨op, w, [s]⟩] := by
  simp only [legaliseOperands, hdirections, hwidths, legaliseFirst]
  split <;> simp [aroundScratch, Direction.reads, Direction.writes]

theorem legaliseOperands_of_legal {u : Width} {a b : Operand} {ds : List Direction}
    (hdirections : (⟨op, w, [a, b]⟩ : Instr).directions = d :: ds)
    (hwidths : (⟨op, w, [a, b]⟩ : Instr).operandWidths = [u, v])
    (hlegal : (⟨op, w, [a, b]⟩ : Instr).isFirstIllegal a = false) :
    legaliseOperands ⟨op, w, [a, b]⟩ = (legaliseSecond ⟨op, w, [a, b]⟩ v a b).2 ++
      [⟨op, w, [a, (legaliseSecond ⟨op, w, [a, b]⟩ v a b).1]⟩] := by
  simp [legaliseOperands, hdirections, hwidths, legaliseFirst, hlegal]

theorem legalise_push_cases (o : Operand) : legalise ⟨.push, .quad, [o]⟩ = [⟨.push, .quad, [o]⟩] ∨
      (∃ n, o = .imm n ∧ legalise ⟨.push, .quad, [o]⟩ =
        [⟨.mov, .quad, [.reg .r10, .imm n]⟩, ⟨.push, .quad, [.reg .r10]⟩]) ∨
      ∃ r, o = .reg (.xmm r) ∧ legalise ⟨.push, .quad, [o]⟩ = pushSse (.xmm r) := by
  cases o with
  | imm n =>
    have hlone : legaliseOperands ⟨.push, .quad, [.imm n]⟩ = _ := legaliseOperands_lone rfl rfl
    split at hlone
    · exact .inr (.inl ⟨n, rfl, hlone⟩)
    · exact .inl hlone
  | reg r =>
    cases r with
    | xmm r => exact .inr (.inr ⟨r, rfl, rfl⟩)
    | _ => exact .inl rfl
  | _ => exact Or.inl rfl

theorem legalise_moveStack_cases (hop : op ∈ [.add, .sub]) (n : Int) :
    legalise ⟨op, .quad, [.reg .rsp, .imm n]⟩ = [⟨op, .quad, [.reg .rsp, .imm n]⟩] ∨
      legalise ⟨op, .quad, [.reg .rsp, .imm n]⟩ =
        [⟨.mov, .quad, [.reg .r10, .imm n]⟩, ⟨op, .quad, [.reg .rsp, .reg .r10]⟩] := by
  let second := legaliseSecond ⟨op, .quad, [.reg .rsp, .imm n]⟩ .quad (.reg .rsp) (.imm n)
  have hlegal : legalise ⟨op, .quad, [.reg .rsp, .imm n]⟩ =
      second.2 ++ [⟨op, .quad, [.reg .rsp, second.1]⟩] := by
    fin_cases hop <;>
      exact Eq.trans (b := legaliseOperands ⟨_, .quad, [.reg .rsp, .imm n]⟩) rfl
        (legaliseOperands_of_legal rfl rfl rfl)
  rcases legaliseSecond_cases ⟨op, .quad, [.reg .rsp, .imm n]⟩ .quad (.reg .rsp) (.imm n) with
    ⟨heq, -⟩ | ⟨-, heq⟩ <;> rw [hlegal, show second = _ from heq]
  · exact .inl rfl
  · exact .inr rfl

theorem stands_legaliseFirst (isLone : Bool) :
    Stands (i.isFirstIllegal first) first (i.legaliseFirst d w isLone first).1 := by
  rcases legaliseFirst_cases i d w isLone first with ⟨heq, hlegal⟩ | ⟨r, hr, hillegal, heq⟩
  · rw [heq]
    exact .same hlegal
  · rw [heq]
    exact .scratch hillegal hr

theorem stands_legaliseSecond :
    Stands (i.isSecondIllegal first second) second (i.legaliseSecond w first second).1 := by
  rcases legaliseSecond_cases i w first second with ⟨heq, hlegal⟩ | ⟨hillegal, heq⟩
  · rw [heq]
    exact .same hlegal
  · rw [heq]
    exact .scratch hillegal (sourceScratch_mem w)

theorem part_of_mem_around (hfirst : i.operands[0]? = some first)
    (hd : i.directions[0]? = some d) {isLone : Bool}
    (hj : j ∈ (i.legaliseFirst d w isLone first).2.1 ∨ j ∈ (i.legaliseFirst d w isLone first).2.2) :
    Part i j := by
  rcases legaliseFirst_cases i d w isLone first with ⟨heq, -⟩ | ⟨r, hr, hillegal, heq⟩
  · rw [heq] at hj
    rcases hj with hj | hj <;> cases hj
  · simp only [heq, aroundScratch] at hj
    rcases hj with hj | hj
    · split at hj
      · rw [mem_singleton.mp hj]
        exact .loadFirst hfirst hillegal hr
      · cases hj
    · split at hj
      · rename_i hwrites
        rw [mem_singleton.mp hj]
        exact .storeFirst hfirst hillegal ⟨hd, hwrites⟩ hr
      · cases hj

theorem part_of_mem_legaliseOperands (hj : j ∈ i.legaliseOperands)
    (hwidths : i.operands.length ≤ i.operandWidths.length) :
    Part i j := by
  unfold legaliseOperands at hj
  split at hj
  · rename_i first d _ w _ hoperands hds _
    simp only [mem_append, mem_singleton] at hj
    rcases hj with (hj | rfl) | hj
    · exact part_of_mem_around (by rw [hoperands]; rfl) (by rw [hds]; rfl) (.inl hj)
    · exact .one hoperands (stands_legaliseFirst true)
    · exact part_of_mem_around (by rw [hoperands]; rfl) (by rw [hds]; rfl) (.inr hj)
  · rename_i first second rest d _ w₁ w₂ _ hoperands hds hws
    simp only [mem_append, mem_singleton] at hj
    rcases hj with ((hj | hj) | rfl) | hj
    · exact part_of_mem_around (by rw [hoperands]; rfl) (by rw [hds]; rfl) (Or.inl hj)
    · rcases legaliseSecond_cases i w₂ (i.legaliseFirst d w₁ false first).1 second with
        ⟨heq, -⟩ | ⟨hillegal, heq⟩
      · rw [heq] at hj
        cases hj
      · rw [heq] at hj
        rw [mem_singleton.mp hj]
        exact .loadSecond hoperands (stands_legaliseFirst false) hillegal (by rw [hws]; rfl)
          (sourceScratch_mem w₂)
    · exact .two hoperands (stands_legaliseFirst false) stands_legaliseSecond
    · exact part_of_mem_around (by rw [hoperands]; rfl) (by rw [hds]; rfl) (Or.inr hj)
  · rename_i hone htwo
    rw [mem_singleton.mp hj]
    cases hoperands : i.operands with
    | nil => exact .none hoperands
    | cons first rest =>
      -- There are directions and widths, so one of the other cases applies.
      exfalso
      have hdirections : i.directions ≠ [] := directions_ne_nil (by simp [hoperands])
      obtain ⟨d, ds, hds⟩ := exists_cons_of_ne_nil hdirections
      rw [hoperands] at hwidths
      cases rest with
      | nil =>
        cases hws : i.operandWidths with
        | nil => simp [hws] at hwidths
        | cons w ws => exact hone first d ds w ws hoperands hds hws
      | cons second rest =>
        cases hws : i.operandWidths with
        | nil => simp [hws] at hwidths
        | cons w ws =>
          cases ws with
          | nil => simp [hws] at hwidths
          | cons w' ws => exact htwo first second rest d ds w w' ws hoperands hds hws

/-- The encodable form of an instruction has no other parts, if all its operands have a width. -/
theorem part_of_mem_legalise (hj : j ∈ i.legalise)
    (hwidths : i.operands.length ≤ i.operandWidths.length) : Part i j := by
  unfold legalise at hj
  split at hj
  · cases hj
  · split at hj
    · rename_i r hop hoperands
      split at hj
      · rename_i hsse
        exact .pushSse hop hoperands hsse hj
      · exact part_of_mem_legaliseOperands hj hwidths
    · exact part_of_mem_legaliseOperands hj hwidths

theorem Part.op_cases (h : Part i j) : j.op = i.op ∨ j.op = .mov ∨ j.op = .sub := by
  cases h with
  | loadFirst | loadSecond | storeFirst => exact .inr (.inl rfl)
  | none | one | two => exact .inl rfl
  | pushSse hop hoperands hr hj =>
    rcases mem_cons.mp hj with rfl | hj
    · exact .inr (.inr rfl)
    · rw [mem_singleton.mp hj]
      exact .inr (.inl rfl)

theorem Part.operand_cases (h : Part i j) (hop : i.op ≠ .push) {o : Operand}
    (ho : o ∈ j.operands) : o ∈ i.operands ∨ ∃ r ∈ scratchRegisters, o = .reg r := by
  have hstands {refused : Bool} {first first' : Operand} (hfirst : Stands refused first first')
      (hmem : first ∈ i.operands) :
      first' ∈ i.operands ∨ ∃ r ∈ scratchRegisters, first' = .reg r := by
    cases hfirst with
    | same => exact .inl hmem
    | scratch _ hr => exact .inr ⟨_, hr, rfl⟩
  cases h with
  | @loadFirst first r hfirst _ hr =>
    rcases mem_cons.mp ho with rfl | ho
    · exact .inr ⟨r, hr, rfl⟩
    · rw [mem_singleton.mp ho]
      exact .inl (mem_of_getElem? hfirst)
  | @loadSecond first second _ rest r _ hoperands _ _ _ hr =>
    rcases mem_cons.mp ho with rfl | ho
    · exact .inr ⟨r, hr, rfl⟩
    · rw [mem_singleton.mp ho, hoperands]
      exact .inl (.tail _ (.head _))
  | @storeFirst first r _ hfirst _ _ hr =>
    rcases mem_cons.mp ho with rfl | ho
    · exact .inl (mem_of_getElem? hfirst)
    · rw [mem_singleton.mp ho]
      exact .inr ⟨r, hr, rfl⟩
  | none => exact .inl ho
  | one hoperands hfirst =>
    rw [mem_singleton.mp ho]
    exact hstands hfirst (by rw [hoperands]; exact .head _)
  | two hoperands hfirst hsecond =>
    rcases mem_cons.mp ho with rfl | ho
    · exact hstands hfirst (by rw [hoperands]; exact .head _)
    rcases mem_cons.mp ho with rfl | ho
    · exact hstands hsecond (by rw [hoperands]; exact .tail _ (.head _))
    · rw [hoperands]
      exact .inl (.tail _ (.tail _ ho))
  | pushSse hpush => exact absurd hpush hop

theorem HasForm.operandWidths_length {F : Forms} {targets : Label → Prop}
    (h : i.HasForm F targets) : i.operands.length ≤ i.operandWidths.length := by
  cases h with
  | combine hop =>
    simp only [mem_cons, not_mem_nil, or_false] at hop
    rcases hop with (rfl | rfl | rfl | rfl | rfl | rfl) | ⟨rfl, -⟩ <;> exact Nat.le_refl 2
  | modify hop | divide _ hop =>
    fin_cases hop <;> exact Nat.le_refl 1
  | shift hop | shiftByRegister _ hop =>
    fin_cases hop <;> exact Nat.le_refl 2
  | @extend _ v _ _ _ hop =>
    rcases hop with rfl | rfl
    · exact Nat.le_refl 2
    · cases v <;> exact Nat.le_refl 2
  | moveStack hop =>
    fin_cases hop <;> exact Nat.le_refl 2
  | _ => exact Nat.le_refl _

end Instr

end ThreeAddress.Amd64
