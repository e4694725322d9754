import ThreeAddress.Proofs.Control.Lockstep
import ThreeAddress.Proofs.Optimise.KnownCopies
import ThreeAddress.Proofs.Optimise.UnreachableCode

/-!
# Correctness of copy propagation

The old body and the new one have equal memories at every position.  Two sets of copies hold there:
those that the search found, and those that are known when the block is rewritten.  The second set
differs from the first, since it is computed from instructions whose operands are already replaced.
-/

namespace ThreeAddress

open Instr Copies

/-! ### Edits -/

/-- The instruction with its operands replaced, unless it is a copy that is already known. -/
def copyEdit (known : Copies) (i : Instr) : Option Instr :=
  if known.makesRedundant (i.mapReads known.substitute) then none
  else some (i.mapReads known.substitute)

/-- What is known after an instruction whose operands are replaced. -/
def Copies.afterReplaced (aliased : NameSet) (known : Copies) (i : Instr) : Copies :=
  known.after aliased (i.mapReads known.substitute)

/-- What becomes of the instructions of a block, given what is known at its start. -/
def copyBlockEdits (aliased : NameSet) : Copies → Listing Instr → List (Option Instr)
  | _, [] => []
  | known, i :: rest =>
    copyEdit known i :: copyBlockEdits aliased (known.afterReplaced aliased i) rest

theorem reduceOption_copyBlockEdits (aliased : NameSet) (known : Copies) (block : Listing Instr) :
    (copyBlockEdits aliased known block).reduceOption = propagateBlock aliased known block := by
  induction block generalizing known with
  | nil => rfl
  | cons i rest ih =>
    have hpropagate : propagateBlock aliased known (i :: rest) =
        if known.makesRedundant (i.mapReads known.substitute) then propagateBlock aliased known rest
        else i.mapReads known.substitute ::
          propagateBlock aliased (known.transfer aliased (i.mapReads known.substitute)) rest := rfl
    rw [copyBlockEdits, hpropagate, copyEdit, afterReplaced, Copies.after]
    by_cases hredundant : known.makesRedundant (i.mapReads known.substitute) = true
    · rw [if_pos hredundant, if_pos hredundant, if_pos hredundant,
        List.reduceOption_cons_of_none, ih]
    · rw [if_neg hredundant, if_neg hredundant, if_neg hredundant,
        List.reduceOption_cons_of_some, ih]

@[simp] theorem length_copyBlockEdits (aliased : NameSet) (known : Copies)
    (block : Listing Instr) : (copyBlockEdits aliased known block).length = block.length := by
  induction block generalizing known with
  | nil => rfl
  | cons i rest ih => simp [copyBlockEdits, ih]

theorem getElem?_copyBlockEdits (aliased : NameSet) (known : Copies) (block : Listing Instr)
    (j : Nat) :
    (copyBlockEdits aliased known block)[j]? =
      block[j]?.map (copyEdit ((block.take j).foldl (Copies.afterReplaced aliased) known)) := by
  induction block generalizing known j with
  | nil => simp [copyBlockEdits]
  | cons i rest ih =>
    cases j with
    | zero => rfl
    | succ j => simpa [copyBlockEdits] using ih (known.afterReplaced aliased i) j

/-- What becomes of every instruction, given what is known at the start of every block. -/
def copyEdits (aliased : NameSet) (body : Listing Instr) (start : Nat → Copies) :
    List (Option Instr) :=
  (blocksOf Instr.flow body).zipIdx.flatMap fun (block, n) => copyBlockEdits aliased (start n) block

/-- What is known before the `j`-th instruction of a block when it is rewritten. -/
def replacedAt (aliased : NameSet) (start : Nat → Copies) (n : Nat) (b : Listing Instr) (j : Nat) :
    Copies :=
  (b.take j).foldl (Copies.afterReplaced aliased) (start n)

section

variable {aliased : NameSet} {body : Listing Instr} {start : Nat → Copies}

theorem length_copyEdits : (copyEdits aliased body start).length = body.length := by
  rw [copyEdits, length_flatMap_zipIdx fun b n => length_copyBlockEdits aliased _ b,
    flatten_blocksOf]

/-- What becomes of an instruction depends on what is known before it in its block. -/
theorem getElem?_copyEdits {k : Nat} {i : Instr} (hi : body[k]? = some i) :
    ∃ n j b, InBlock (blocksOf Instr.flow body) k n j ∧
      (blocksOf Instr.flow body)[n]? = some b ∧ b[j]? = some i ∧
      (copyEdits aliased body start)[k]? = some (copyEdit (replacedAt aliased start n b j) i) := by
  obtain ⟨n, j, b, hin, hb, hj⟩ := exists_inBlock_of_getElem? flow hi
  refine ⟨n, j, b, hin, hb, hj, ?_⟩
  rw [copyEdits, getElem?_flatMap_zipIdx (fun b n => length_copyBlockEdits aliased _ b) hin hb,
    getElem?_copyBlockEdits, hj]
  rfl

theorem propagateCopies?_eq_some {visits : Nat} {result : Listing Instr}
    (h : propagateCopies? visits aliased body = some result) {types : String → ScalarType}
    (hbody : ∀ i ∈ body, Copies.TypedInstr types i) :
    ∃ start, CopiesSettled types aliased body start ∧
      (copyEdits aliased body start).reduceOption = result := by
  obtain ⟨starts, hstarts, rfl⟩ := Option.map_eq_some_iff.mp h
  obtain ⟨hsettled, hsize⟩ := copiesSettled_of_knownCopies? hbody hstarts
  refine ⟨_, hsettled, ?_⟩
  have hlength : starts.toList.length = (blocksOf flow body).length := by simpa using hsize
  rw [copyEdits, reduceOption_flatMap, flatMap_zip hlength none fun block known =>
    propagateBlock aliased (known.getD []) block]
  refine List.flatMap_congr fun x _ => ?_
  rw [reduceOption_copyBlockEdits]
  simp

end

/-! ### Copies known at a position -/

section

variable {types : String → ScalarType} {aliased : NameSet} {body b : Listing Instr}
  {start : Nat → Copies} {e : Environment} {m m' : Memory} {k j n : Nat} {i : Instr}

/-- What the search found to be known in a block before its `j`-th instruction. -/
def foundAt (aliased : NameSet) (start : Nat → Copies) (n : Nat) (b : Listing Instr) (j : Nat) :
    Copies :=
  (b.take j).foldl (Copies.after aliased) (start n)

/-- All that is known at a position holds. -/
def KnownAt (aliased : NameSet) (body : Listing Instr) (start : Nat → Copies) (k : Nat)
    (m : Memory) : Prop :=
  ∀ n j b, InBlock (blocksOf Instr.flow body) k n j → (blocksOf Instr.flow body)[n]? = some b →
    (foundAt aliased start n b j).HoldIn m ∧ (replacedAt aliased start n b j).HoldIn m

theorem foundAt_succ (hj : b[j]? = some i) :
    foundAt aliased start n b (j + 1) = (foundAt aliased start n b j).after aliased i := by
  simp [foundAt, List.take_add_one, hj]

theorem replacedAt_succ (hj : b[j]? = some i) : replacedAt aliased start n b (j + 1) =
      (replacedAt aliased start n b j).afterReplaced aliased i := by
  simp [replacedAt, List.take_add_one, hj]

theorem mem_body_of_mem_take (hb : (blocksOf Instr.flow body)[n]? = some b) (hi : i ∈ b.take j) :
    i ∈ body := by
  rw [← flatten_blocksOf flow body]
  exact List.mem_flatten.mpr ⟨b, List.mem_of_getElem? hb, List.mem_of_mem_take hi⟩

section

variable (h : CopiesSettled types aliased body start)
  (hbody : ∀ i ∈ body, Copies.TypedInstr types i) (hb : (blocksOf Instr.flow body)[n]? = some b)
  (j : Nat)

include h hbody hb

theorem typed_foundAt : (foundAt aliased start n b j).Typed types :=
  (h.typed n).through fun i hi => hbody i (mem_body_of_mem_take hb hi)

theorem typed_replacedAt : (replacedAt aliased start n b j).Typed types :=
  List.foldlRecOn _ _ (h.typed n) fun _ hknown i hi =>
    hknown.after ((hbody i (mem_body_of_mem_take hb hi)).mapReads hknown)

end

theorem knownAt_next (h : CopiesSettled types aliased body start) {t : Nat}
    (hin : InBlock (blocksOf Instr.flow body) k n j) (hb : (blocksOf Instr.flow body)[n]? = some b)
    (hfound : (foundAt aliased start n b (j + 1)).HoldIn m)
    (hreplaced : (replacedAt aliased start n b (j + 1)).HoldIn m)
    (ht : t ∈ nextPositions Instr.flow body k) : KnownAt aliased body start t m := by
  intro n' j' b' hin' hb'
  rcases next_cases hin hb ht with ⟨-, hnext⟩ | ⟨hj, n'', hedge, hnext⟩ | ⟨-, -, rfl⟩
  · -- Control moves on in the block.
    obtain ⟨rfl, rfl⟩ := hin'.unique hnext
    obtain rfl : b = b' := Option.some.inj (hb.symm.trans hb')
    exact ⟨hfound, hreplaced⟩
  · -- What is known at the start of the next block is known at the end of this one.
    obtain ⟨rfl, rfl⟩ := hin'.unique hnext
    have hstart : (start n').HoldIn m := by
      intro c hc
      refine hfound c ?_
      rw [foundAt, hj, List.take_length]
      exact h.edge hb hedge c hc
    exact ⟨hstart, hstart⟩
  · have := hin'.lt_length
    rw [flatten_blocksOf] at this
    omega

theorem after_of_target? {known : Copies} {l : Label} (hl : i.target? = some l) :
    known.after aliased i = known := by
  cases i <;> cases hl <;> rfl

theorem mayChangeAliased_mapReads (f : Value → Value) (i : Instr) :
    (i.mapReads f).mayChangeAliased = i.mayChangeAliased := by
  cases i <;> rfl

/-! ### Correctness -/

/-- Variables have their types, and what is known at a position holds. -/
structure CopiesHold (types : String → ScalarType) (aliased : NameSet) (body : Listing Instr)
    (start : Nat → Copies) (k : Nat) (m : Memory) : Prop where
  types : HoldsTypes types m
  known : KnownAt aliased body start k m

theorem CopiesHold.execute_eq (h : CopiesHold types aliased body start k m) {i' : Instr}
    (hi : body[k]? = some i) (hi' : (copyEdits aliased body start)[k]? = some (some i')) :
    ∃ f : Value → Value, i' = i.mapReads f ∧ (∀ v, m.eval (f v) = m.eval v) ∧
      execute e m i' = execute e m i := by
  obtain ⟨n, j, b, hin, hb, -, hedit⟩ := getElem?_copyEdits hi
  rw [hedit, copyEdit] at hi'
  obtain ⟨-, rfl⟩ := by simpa using hi'
  have heval := (h.known n j b hin hb).2.eval_substitute
  exact ⟨_, rfl, heval, execute_mapReads heval i⟩

theorem CopiesHold.execute_removed (h : CopiesHold types aliased body start k m)
    (hbody : ∀ i ∈ body, Copies.TypedInstr types i) (hi : body[k]? = some i)
    (hi' : (copyEdits aliased body start)[k]? = some none) :
    (∃ dst src, i = .copy dst src) ∧ execute e m i = .next m := by
  obtain ⟨n, j, b, hin, hb, -, hedit⟩ := getElem?_copyEdits hi
  have hreplaced := (h.known n j b hin hb).2
  rw [hedit, copyEdit] at hi'
  have hredundant : (replacedAt aliased start n b j).makesRedundant
      (i.mapReads (replacedAt aliased start n b j).substitute) = true := by
    simpa using hi'
  rw [← execute_mapReads hreplaced.eval_substitute]
  cases i with
  | copy dst src =>
    have hdst := (hbody _ (List.mem_of_getElem? hi)).written (v := dst) rfl
    have hsame := assign_of_knows hreplaced h.types hdst hredundant
    refine ⟨⟨dst, src, rfl⟩, ?_⟩
    show (Outcome.next (m.assign dst (m.eval _)) : Effect) = .next m
    rw [hsame]
  | _ => cases hredundant

theorem targetPosition_copyEdits (l : Label) :
    targetPosition Instr.flow (copyEdits aliased body start).reduceOption l =
      newPosition (copyEdits aliased body start) (targetPosition Instr.flow body l) := by
  refine targetPosition_reduceOption length_copyEdits (fun j b hb hbl => ?_) (fun a ha => ?_)
  · have hlt : j < body.length := by
      rw [← @length_copyEdits aliased body start]
      exact (List.getElem?_eq_some_iff.mp hb).1
    have hj : body[j]? = some body[j] := List.getElem?_eq_getElem hlt
    obtain ⟨_, _, _, -, -, -, hedit⟩ := getElem?_copyEdits hj
    rw [hedit, copyEdit] at hb
    obtain ⟨-, rfl⟩ := by simpa using hb
    refine ⟨_, hj, ?_⟩
    rwa [flow_eq_label_iff, label?_mapReads, ← flow_eq_label_iff] at hbl
  · have hlabel := flow_of_getElem?_targetPosition ha
    obtain ⟨_, _, _, -, -, -, hedit⟩ := getElem?_copyEdits ha
    refine ⟨a, ?_, hlabel⟩
    rw [hedit]
    cases a <;> cases hlabel
    rfl

/-- Every instruction keeps the memories equal where what is known holds. -/
theorem lockstep_copies (hbody : ∀ i ∈ body, Copies.TypedInstr types i) :
    Lockstep e.machine body (copyEdits aliased body start) (CopiesHold types aliased body start)
      (fun _ m m' => m = m') where
  length_eq := length_copyEdits
  leave_eq := fun _ heq => congrArg _ heq
  kept := by
    rintro k m _ i i' hhold rfl hi hi'
    obtain ⟨-, -, -, hsame⟩ := hhold.execute_eq (e := e) hi hi'
    rw [Environment.machine_execute, hsame]
    exact outcomesInStep_refl e.machine body k _
  removed := by
    rintro k m _ i hhold rfl hi hi'
    exact ⟨m, (hhold.execute_removed hbody hi hi').2, rfl⟩
  target_eq := fun {_ _ l} _ _ => targetPosition_copyEdits l

/-- The calls and stores that a run executes change aliased variables only, apart from the
destinations of calls. -/
def ModifiesWithin (e : Environment) (aliased : NameSet) (body : Listing Instr) (m : Memory) :
    Prop :=
  ∀ n i m₁, (e.machine.stateAt body m n).ending = none →
    body[(e.machine.stateAt body m n).position]? = some i →
    execute e (e.machine.stateAt body m n).memory i = .next m₁ →
    ChangesWithin {x | x ∈ aliased} i (e.machine.stateAt body m n).memory m₁

theorem AddressesWithin.modifiesWithin (haddressed : AddressesWithin aliased body)
    (hstatics : e.statics ⊆ {x | x ∈ aliased}) (hm : Confined {x | x ∈ aliased} m) :
    ModifiesWithin e aliased body m := fun n _ _ _ _ hnext =>
  (haddressed.confined_stateAt hstatics hm n).changesWithin hstatics hnext

variable (hsettled : CopiesSettled types aliased body start)

include hsettled

theorem copiesHold_zero (hm : HoldsTypes types m) : CopiesHold types aliased body start 0 m := by
  refine ⟨hm, fun n j b hin hb => ?_⟩
  obtain ⟨c, hc⟩ : ∃ c, (blocksOf flow body)[0]? = some c := by
    have := (List.getElem?_eq_some_iff.mp hb).1
    exact ⟨_, List.getElem?_eq_getElem (by omega)⟩
  obtain ⟨rfl, rfl⟩ := hin.unique (inBlock_blockStart hc)
  constructor <;> simp [foundAt, replacedAt, hsettled.entry, HoldIn]

/-- What is known holds after an instruction that goes on, if no call or store changes variables
that are not aliased. -/
theorem CopiesHold.next (hbody : ∀ i ∈ body, Copies.TypedInstr types i) {m₁ : Memory}
    (h : CopiesHold types aliased body start k m) (hi : body[k]? = some i)
    (hnext : execute e m i = .next m₁) (hchanges : ChangesWithin {x | x ∈ aliased} i m m₁) :
    CopiesHold types aliased body start (k + 1) m₁ := by
  have htyped := hbody i (List.mem_of_getElem? hi)
  refine ⟨h.types.execute (fun v hv => htyped.written hv) hnext, ?_⟩
  obtain ⟨n, j, b, hin, hb, hj⟩ := exists_inBlock_of_getElem? flow hi
  obtain ⟨hfound, hreplaced⟩ := h.known n j b hin hb
  refine knownAt_next hsettled hin hb ?_ ?_
    (Machine.mem_nextPositions_of_next (M := e.machine) hi hnext)
  · rw [foundAt_succ hj]
    exact hfound.after (typed_foundAt hsettled hbody hb j) h.types hchanges htyped hnext
  · -- The instruction with its operands replaced has the same outcome.
    have hreplacedTyped := typed_replacedAt hsettled hbody hb j
    rw [replacedAt_succ hj]
    refine hreplaced.after (e := e) hreplacedTyped h.types ?_ (htyped.mapReads hreplacedTyped) ?_
    · rwa [ChangesWithin, mayChangeAliased_mapReads, written?_mapReads]
    · rw [execute_mapReads hreplaced.eval_substitute, hnext]

theorem CopiesHold.jump {l : Label} (h : CopiesHold types aliased body start k m)
    (hi : body[k]? = some i) (hl : i.target? = some l) :
    CopiesHold types aliased body start (targetPosition Instr.flow body l) m := by
  obtain ⟨n, j, b, hin, hb, hj⟩ := exists_inBlock_of_getElem? flow hi
  obtain ⟨hfound, hreplaced⟩ := h.known n j b hin hb
  refine ⟨h.types, knownAt_next hsettled hin hb ?_ ?_
    (mem_nextPositions_of_target? hi ((target?_flow i).trans hl))⟩
  · rwa [foundAt_succ hj, after_of_target? hl]
  · rw [replacedAt_succ hj, afterReplaced, after_of_target? (by simpa using hl)]
    exact hreplaced

theorem copiesHold_stateAt (hbody : ∀ i ∈ body, Copies.TypedInstr types i)
    (hm : HoldsTypes types m) (hmodifies : ModifiesWithin e aliased body m) (n : Nat)
    (hending : (e.machine.stateAt body m n).ending = none) :
    CopiesHold types aliased body start (e.machine.stateAt body m n).position
      (e.machine.stateAt body m n).memory := by
  induction n with
  | zero => exact copiesHold_zero hsettled hm
  | succ n ih =>
    have hchanges := hmodifies n
    rw [Machine.stateAt_succ] at hending ⊢
    generalize e.machine.stateAt body m n = s at ih hchanges hending
    -- The run can only have got here by an instruction that went on or jumped.
    cases hs : s.ending with
    | some ending =>
      rw [Machine.step_of_ending hs, hs] at hending
      cases hending
    | none =>
      cases hi : body[s.position]? with
      | none =>
        rw [Machine.step_at_end hs hi] at hending
        cases hending
      | some i =>
        rw [Machine.step_at hs hi, Environment.machine_execute] at hending ⊢
        cases ho : execute e s.memory i with
        | next m₁ => exact (ih hs).next hsettled hbody hi ho (hchanges i m₁ hs hi ho)
        | jump l m₁ =>
          obtain ⟨htarget, rfl⟩ := execute_jump_cases ho
          exact (ih hs).jump hsettled hi htarget
        | stop m₁ ending =>
          rw [ho] at hending
          cases hending

end

/-! ### Whole bodies -/

section

variable {returns : Option ScalarType} {arity? : String → Option Nat}
  {types : String → ScalarType} {aliased : NameSet} {body result : Listing Instr} {visits : Nat}

theorem typeDefect?_mapReads {f : Value → Value} (hf : ∀ v, (f v).type = v.type) (i : Instr) :
    (i.mapReads f).typeDefect? returns arity? = i.typeDefect? returns arity? := by
  cases i with
  | ret value => cases value <;> simp [mapReads, typeDefect?, hf]
  | unary dst op src => cases op <;> simp [mapReads, typeDefect?, hf]
  | call dst callee args => simp [mapReads, typeDefect?]
  | _ => simp [mapReads, typeDefect?, hf]

theorem exists_of_copyEdits {start : Nat → Copies}
    (hsettled : CopiesSettled types aliased body start)
    (hbody : ∀ i ∈ body, Copies.TypedInstr types i) {k : Nat} {i i' : Instr}
    (hi : body[k]? = some i) (hi' : (copyEdits aliased body start)[k]? = some (some i')) :
    ∃ known : Copies, known.Typed types ∧ i' = i.mapReads known.substitute := by
  obtain ⟨_, j, b, -, hb, -, hedit⟩ := getElem?_copyEdits hi
  rw [hedit, copyEdit] at hi'
  obtain ⟨-, rfl⟩ := by simpa using hi'
  exact ⟨_, typed_replacedAt hsettled hbody hb j, rfl⟩

theorem WellFormed.propagateCopies (h : WellFormed returns arity? types body)
    (hresult : propagateCopies? visits aliased body = some result) :
    WellFormed returns arity? types result := by
  obtain ⟨start, hsettled, rfl⟩ := propagateCopies?_eq_some hresult h.variable_type
  refine h.edit length_copyEdits fun k i i' hi hi' => ?_
  obtain ⟨known, hknown, rfl⟩ := exists_of_copyEdits hsettled h.variable_type hi hi'
  have hmem := List.mem_of_getElem? hi
  refine ⟨TypedInstr.mapReads (h.variable_type i hmem) hknown, ?_, i.label?_mapReads _⟩
  rw [typeDefect?_mapReads hknown.type_substitute]
  exact h.typeDefect?_eq i hmem

theorem AddressesWithin.propagateCopies (h : AddressesWithin aliased body)
    (hbody : WellFormed returns arity? types body)
    (hresult : propagateCopies? visits aliased body = some result) :
    AddressesWithin aliased result := by
  obtain ⟨start, hsettled, rfl⟩ := propagateCopies?_eq_some hresult hbody.variable_type
  refine h.edit length_copyEdits fun k i i' hi hi' => .inl ?_
  obtain ⟨known, -, rfl⟩ := exists_of_copyEdits hsettled hbody.variable_type hi hi'
  cases i <;> rfl

/-- Propagating copies keeps the behaviour of a body. -/
theorem preserves_propagateCopies {e : Environment} (h : WellFormed returns arity? types body)
    (hstatics : e.statics ⊆ {x | x ∈ aliased})
    (haddressed : AddressesWithin aliased body) {m : Memory}
    (hconfined : Confined {x | x ∈ aliased} m) (hm : HoldsTypes types m)
    (hresult : propagateCopies? visits aliased body = some result) :
    Preserves e.machine body m e.machine result m := by
  obtain ⟨start, hsettled, rfl⟩ := propagateCopies?_eq_some hresult h.variable_type
  have hhold := copiesHold_stateAt hsettled h.variable_type hm
    (haddressed.modifiesWithin hstatics hconfined)
  exact (lockstep_copies h.variable_type).preserves rfl (fun heq => congrArg _ heq)
    fun {j _} _ _ => hhold j

end

end ThreeAddress
