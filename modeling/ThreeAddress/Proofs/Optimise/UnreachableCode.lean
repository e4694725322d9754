import ThreeAddress.Optimise.Unreachable
import ThreeAddress.Proofs.Control.Reachability
import ThreeAddress.Proofs.Optimise.EditedBody

/-!
# Correctness of the removal of unreachable code

Three removals are made one after the other.  Control never enters a block that the search does not
find.  A jump to one of the labels right after it goes where control goes anyway, since labels are
defined once.  A label that no jump names is passed without effect.
-/

namespace ThreeAddress

open Instr FlowGraph Option List

variable {e : Environment} {body : Listing Instr} {k : Nat} {i : Instr} {l : Label}

theorem reduceOption_flatMap {α β : Type} (f : α → List (Option β)) (xs : List α) :
    (xs.flatMap f).reduceOption = xs.flatMap fun x => (f x).reduceOption := by
  induction xs with
  | nil => rfl
  | cons x rest ih => simp [reduceOption_append, ih]

/-! ### Removals -/

/-- What remains when instructions are removed.  The other ones stay as they are, and so do the
labels that they jump to. -/
structure IsRemoval (body : Listing Instr) (edits : List (Option Instr)) : Prop where
  length_eq : edits.length = body.length
  keep : ∀ {k : Nat} {i i'}, body[k]? = some i → edits[k]? = some (some i') → i' = i
  target : ∀ {k : Nat} {i l a}, edits[k]? = some (some i) → i.target? = some l →
    body[targetPosition Instr.flow body l]? = some a →
      edits[targetPosition Instr.flow body l]? = some (some a)

/-- Every jump names a label of the body. -/
def TargetsDefined (body : Listing Instr) : Prop :=
  ∀ i ∈ body, ∀ l, i.target? = some l → .label l ∈ body

namespace IsRemoval

variable {edits : List (Option Instr)}

section

variable (h : IsRemoval body edits)

include h

theorem getElem?_of_kept (hi : edits[k]? = some (some i)) : body[k]? = some i := by
  have hlt : k < body.length := by
    rw [← h.length_eq]
    exact (List.getElem?_eq_some_iff.mp hi).1
  have hk : body[k]? = some body[k] := getElem?_eq_getElem hlt
  rw [hk, h.keep hk hi]

theorem sublist : edits.reduceOption.Sublist body := by
  simpa using filterMap_reduceOption_sublist h.length_eq
    fun _ _ _ hi hi' => congrArg some (h.keep hi hi')

theorem targetPosition_reduceOption (hi : edits[k]? = some (some i)) (hl : i.flow.target? = some l)
    :
    targetPosition Instr.flow edits.reduceOption l =
      newPosition edits (targetPosition Instr.flow body l) := by
  refine ThreeAddress.targetPosition_reduceOption h.length_eq (fun j b hb hbl => ?_) fun a ha => ?_
  · exact ⟨b, h.getElem?_of_kept hb, hbl⟩
  · rw [target?_flow] at hl
    exact ⟨a, h.target hi hl ha, flow_of_getElem?_targetPosition ha⟩

theorem targetsDefined (hbody : TargetsDefined body) : TargetsDefined edits.reduceOption := by
  intro i hi l hl
  obtain ⟨k, -, -, hk⟩ := exists_of_mem_reduceOption h.length_eq hi
  have hdefined := hbody i (mem_of_getElem? (h.getElem?_of_kept hk)) l hl
  obtain ⟨a, ha, hlabel⟩ := getElem?_targetPosition_of_mem hdefined
    (show (label l).flow = .label l from rfl)
  have hmem := mem_of_getElem? (getElem?_newPosition (h.target hk hl ha))
  cases a <;> cases hlabel
  exact hmem

end

end IsRemoval

/-- A machine for three-address code, on which labels and jumps do nothing but say where control
goes. -/
structure RunsInstr {σ ρ τ : Type} (M : Machine Instr Label σ ρ τ) : Prop where
  flow_eq : M.flow = Instr.flow
  passes : ∀ {m i}, i.flow.passesOn = true →
    M.execute m i = .next m ∨ ∃ l, M.execute m i = .jump l m

theorem runsInstr_machine (e : Environment) : RunsInstr e.machine where
  flow_eq := rfl
  passes := by
    intro m i hi
    rw [Environment.machine_execute]
    cases i with
    | label l => exact .inl rfl
    | jump l | jumpIfZero _ l | jumpIfNotZero _ l =>
      exact (execute_of_target? e m rfl).symm.imp_right fun h => ⟨l, h⟩
    | _ => cases hi

/-- A removal of instructions that only move on, wherever control can be, and leave nothing but
labels on their way. -/
structure IsShortcut (body : Listing Instr) (edits : List (Option Instr)) (entered : Nat → Prop) :
    Prop extends IsRemoval body edits where
  start : entered 0
  next : ∀ {k t}, entered k → t ∈ nextPositions Instr.flow body k → entered t
  passes : ∀ {k i}, entered k → body[k]? = some i → edits[k]? = some none → i.flow.passesOn = true
  forward : ∀ {k t}, entered k → edits[k]? = some none → t ∈ nextPositions Instr.flow body k →
    k < t ∧ ∀ j, k < j → j < t → edits[j]? = some none ∨ ∃ l, edits[j]? = some (some (.label l))

namespace IsShortcut

variable {edits : List (Option Instr)} {entered : Nat → Prop} {t : Nat}

section

variable {σ ρ τ : Type} {M : Machine Instr Label σ ρ τ} (hM : RunsInstr M)
  (h : IsShortcut body edits entered)

include hM h

theorem editCorrect :
    EditCorrect M M body edits (fun k m m' => m = m' ∧ entered k) where
  length_eq := h.length_eq
  seen_eq := fun hrel => hrel.1 ▸ rfl
  leave_eq := fun hrel => hrel.1 ▸ rfl
  kept := by
    rintro k m m' i i' ⟨rfl, hk⟩ hi hi' -
    obtain rfl := h.keep hi hi'
    have hnext {t : Nat} (ht : t ∈ nextPositions M.flow body k) : entered t :=
      h.next hk (by rwa [hM.flow_eq] at ht)
    cases ho : M.execute m i' with
    | next m₁ => exact .next ⟨rfl, hnext (Machine.mem_nextPositions_of_next hi ho)⟩
    | jump l m₁ => exact .jump ⟨rfl, hnext (Machine.mem_nextPositions_of_jump hi ho)⟩
    | stop m₁ ending => exact .stop rfl
  removed := by
    rintro k m m' i ⟨rfl, hk⟩ hi hi' -
    obtain ⟨t, happly, ht⟩ : ∃ t, M.apply body ⟨k, m, none⟩ (M.execute m i) = ⟨t, m, none⟩ ∧
        t ∈ nextPositions M.flow body k := by
      rcases hM.passes (h.passes hk hi hi') with hnext | ⟨l, hjump⟩
      · exact ⟨k + 1, by rw [hnext]; rfl, Machine.mem_nextPositions_of_next hi hnext⟩
      · exact ⟨_, by rw [hjump]; rfl, Machine.mem_nextPositions_of_jump hi hjump⟩
    rw [hM.flow_eq] at ht
    obtain ⟨hlt, hbetween⟩ := h.forward hk hi' ht
    refine ⟨t, m, happly, hlt, le_length_of_mem_nextPositions ht, rfl, ⟨rfl, h.next hk ht⟩,
      fun j hkj hjt => (hbetween j hkj hjt).imp_right fun ⟨l, hl⟩ => ⟨_, l, hl, ?_⟩⟩
    rw [hM.flow_eq]
    rfl
  target_eq := by
    rw [hM.flow_eq]
    exact h.targetPosition_reduceOption

theorem preserves (m : σ) : Preserves M body m M edits.reduceOption m :=
  (h.editCorrect hM).preserves ⟨rfl, h.start⟩

end

theorem reflTransGen_next (h : IsShortcut body edits entered) (hk : entered k)
    (ht : t ∈ nextPositions Instr.flow body k) :
    Relation.ReflTransGen (fun a b => b ∈ nextPositions Instr.flow edits.reduceOption a)
      (newPosition edits k) (newPosition edits t) := by
  obtain ⟨i, hi⟩ := exists_of_mem_nextPositions ht
  have hlength : k < edits.length := h.length_eq ▸ (List.getElem?_eq_some_iff.mp hi).1
  cases hi' : edits[k] with
  | some i' =>
    have hkept : edits[k]? = some (some i') := by rw [getElem?_eq_getElem hlength, hi']
    obtain rfl := h.keep hi hkept
    refine .single ?_
    rw [nextPositions_newPosition h.length_eq hi hkept rfl fun l hl =>
      h.targetPosition_reduceOption hkept hl]
    exact mem_map_of_mem ht
  | none =>
    have hremoved : edits[k]? = some none := by rw [getElem?_eq_getElem hlength, hi']
    obtain ⟨hkt, hbetween⟩ := h.forward hk hremoved ht
    have hle := newPosition_le_newPosition edits hkt.le
    rw [← Nat.add_sub_cancel' hle]
    refine reflTransGen_labels fun j hj => ?_
    obtain ⟨q, b, hkq, hqt, hq, hget⟩ := exists_kept_between hj
    rcases Nat.eq_or_lt_of_le hkq with rfl | hlt
    · cases hq.symm.trans hremoved
    · rcases hbetween q hlt hqt with hnone | ⟨l, hl⟩
      · cases hq.symm.trans hnone
      · cases hq.symm.trans hl
        exact ⟨_, l, hget, rfl⟩

theorem isVisited (h : IsShortcut body edits entered) (hk : IsVisited Instr.flow body k) :
    entered k ∧ IsVisited Instr.flow edits.reduceOption (newPosition edits k) := by
  induction hk with
  | refl => exact ⟨h.start, .refl⟩
  | tail _ hnext ih => exact ⟨h.next ih.1 hnext, ih.2.trans (h.reflTransGen_next ih.1 hnext)⟩

theorem isVisited_of_kept (h : IsShortcut body edits entered)
    (hkept : ∀ {k i}, edits[k]? = some (some i) → IsVisited Instr.flow body k) {q : Nat}
    (hq : q < edits.reduceOption.length) : IsVisited Instr.flow edits.reduceOption q := by
  obtain ⟨k, hk, rfl⟩ := exists_of_getElem?_reduceOption (getElem?_eq_getElem hq)
  exact (h.isVisited (hkept hk)).2

end IsShortcut

/-! ### Blocks that are not reached -/

/-- What becomes of the instructions of a block. -/
def reachableEdits (found : List Nat) (block : Listing Instr) (n : Nat) : List (Option Instr) :=
  block.map fun i => if found.contains n then some i else none

/-- What becomes of every instruction when the blocks that are not reached are removed. -/
def keepReachableEdits (body : Listing Instr) : List (Option Instr) :=
  (blocksOf Instr.flow body).zipIdx.flatMap fun (block, n) =>
    reachableEdits (FlowGraph.ofCode Instr.flow body).reachableBlocks block n

theorem length_keepReachableEdits (body : Listing Instr) :
    (keepReachableEdits body).length = body.length := by
  rw [keepReachableEdits, length_flatMap_zipIdx (fun b n => by simp [reachableEdits]),
    flatten_blocksOf]

theorem reduceOption_keepReachableEdits (body : Listing Instr) :
    (keepReachableEdits body).reduceOption = keepReachable body := by
  have hsize : (ofCode flow body).size = (blocksOf flow body).length := by
    simp [size, ofCode, ofBlocks]
  have hlength : (ofCode flow body).reachable.length = (blocksOf flow body).length := by
    simp [reachable, hsize]
  rw [keepReachableEdits, reduceOption_flatMap, keepReachable,
    flatMap_zip hlength false fun block reached => if reached then block else []]
  refine flatMap_congr fun x hx => ?_
  obtain ⟨block, n⟩ := x
  have hn : n < (blocksOf flow body).length :=
    (List.getElem?_eq_some_iff.mp (mem_zipIdx_iff_getElem?.mp hx)).1
  have hreached : (ofCode flow body).reachable.getD n false =
      (ofCode flow body).reachableBlocks.contains n := by
    simp [reachable, hsize, hn]
  show (reachableEdits _ block n).reduceOption = _
  rw [hreached, reachableEdits]
  cases (ofCode flow body).reachableBlocks.contains n <;>
    simp [reduceOption]

theorem getElem?_keepReachableEdits {n j : Nat} (hin : InBlock (blocksOf Instr.flow body) k n j)
    (hi : body[k]? = some i) :
    (keepReachableEdits body)[k]? =
      some (if (FlowGraph.ofCode Instr.flow body).reachableBlocks.contains n then some i
        else none) := by
  obtain ⟨b, hb, -, -⟩ := id hin
  have hj : b[j]? = some i := by rw [← hin.getElem? hb, hi]
  rw [keepReachableEdits, getElem?_flatMap_zipIdx (fun b n => by simp [reachableEdits]) hin hb]
  simp [reachableEdits, hj]

theorem keepReachableEdits_eq_some_iff (hi : body[k]? = some i) :
    (∀ i', (keepReachableEdits body)[k]? = some (some i') ↔
      i' = i ∧ IsReachable Instr.flow body k) := by
  intro i'
  obtain ⟨n, j, _, hin, -⟩ := exists_inBlock_of_getElem? flow hi
  have hreachable : IsReachable flow body k ↔
      (ofCode flow body).reachableBlocks.contains n = true := by
    rw [contains_iff_mem]
    constructor
    · intro h
      exact h n j hin
    · intro h n' j' hin'
      rwa [(hin'.unique hin).1]
  rw [getElem?_keepReachableEdits hin hi, hreachable]
  cases (ofCode flow body).reachableBlocks.contains n with
  | true => simp [eq_comm]
  | false => simp

theorem isRemoval_keepReachableEdits (body : Listing Instr) :
    IsRemoval body (keepReachableEdits body) where
  length_eq := length_keepReachableEdits body
  keep := fun hi hi' => ((keepReachableEdits_eq_some_iff hi _).mp hi').1
  target := by
    intro k i l a hi' hl ha
    have hlt : k < body.length := by
      rw [← length_keepReachableEdits]
      exact (List.getElem?_eq_some_iff.mp hi').1
    have hi : body[k]? = some body[k] := getElem?_eq_getElem hlt
    obtain ⟨rfl, hk⟩ := (keepReachableEdits_eq_some_iff hi i).mp hi'
    have htarget := hk.next (mem_nextPositions_of_target? hi ((target?_flow _).trans hl))
    exact (keepReachableEdits_eq_some_iff ha a).mpr ⟨rfl, htarget⟩

/-- Control never enters a block that is removed. -/
theorem isShortcut_keepReachableEdits (body : Listing Instr) :
    IsShortcut body (keepReachableEdits body) (IsReachable Instr.flow body) := by
  have hkept {k : Nat} (hk : IsReachable flow body k) (hlt : k < body.length)
      (hremoved : (keepReachableEdits body)[k]? = some none) : False := by
    have hi := getElem?_eq_getElem hlt
    cases hremoved.symm.trans ((keepReachableEdits_eq_some_iff hi _).mpr ⟨rfl, hk⟩)
  refine ⟨isRemoval_keepReachableEdits body, isReachable_zero, fun hk ht => hk.next ht,
    fun hk hi hremoved => ?_, fun {k t} hk hremoved _ => ?_⟩
  · exact (hkept hk (List.getElem?_eq_some_iff.mp hi).1 hremoved).elim
  · refine (hkept hk ?_ hremoved).elim
    rw [← length_keepReachableEdits]
    exact (List.getElem?_eq_some_iff.mp hremoved).1

/-! ### Jumps to the labels right after them -/

/-- Whether a jump is redundant in front of a listing. -/
def isRedundantBefore (rest : Listing Instr) (i : Instr) : Bool :=
  i.target?.any fun target => (leadingLabels rest).contains target

/-- What becomes of every instruction when redundant jumps are removed. -/
def redundantJumpEdits : Listing Instr → List (Option Instr)
  | [] => []
  | i :: rest => (if isRedundantBefore rest i then none else some i) :: redundantJumpEdits rest

@[simp] theorem length_redundantJumpEdits (body : Listing Instr) :
    (redundantJumpEdits body).length = body.length := by
  induction body with
  | nil => rfl
  | cons i rest ih => simp [redundantJumpEdits, ih]

theorem reduceOption_redundantJumpEdits (body : Listing Instr) :
    (redundantJumpEdits body).reduceOption = dropRedundantJumps body := by
  induction body with
  | nil => rfl
  | cons i rest ih =>
    have hdrop : dropRedundantJumps (i :: rest) =
        if isRedundantBefore rest i then dropRedundantJumps rest
        else i :: dropRedundantJumps rest := rfl
    rw [redundantJumpEdits, hdrop]
    by_cases h : isRedundantBefore rest i = true
    · rw [if_pos h, if_pos h, reduceOption_cons_of_none, ih]
    · rw [if_neg h, if_neg h, reduceOption_cons_of_some, ih]

theorem getElem?_redundantJumpEdits (body : Listing Instr) (k : Nat) :
    (redundantJumpEdits body)[k]? =
      body[k]?.map fun i => if isRedundantBefore (body.drop (k + 1)) i then none else some i := by
  induction body generalizing k with
  | nil => rfl
  | cons i rest ih =>
    cases k with
    | zero => simp [redundantJumpEdits]
    | succ k => simpa [redundantJumpEdits] using ih k

theorem mem_leadingLabels {rest : Listing Instr} (h : l ∈ leadingLabels rest) :
    ∃ d : Nat, rest[d]? = some (.label l) ∧ ∀ j < d, ∃ l', rest[j]? = some (.label l') := by
  induction rest with
  | nil => cases h
  | cons i rest ih =>
    cases i with
    | label l' =>
      rcases mem_cons.mp h with rfl | h
      · exact ⟨0, rfl, by simp⟩
      · obtain ⟨d, hd, hbefore⟩ := ih h
        refine ⟨d + 1, by simpa using hd, fun j hj => ?_⟩
        cases j with
        | zero => exact ⟨l', rfl⟩
        | succ j => simpa using hbefore j (by omega)
    | _ => cases h

theorem targetPosition_eq (hnodup : (body.filterMap Instr.label?).Nodup)
    (hk : body[k]? = some (.label l)) : targetPosition Instr.flow body l = k := by
  have hlast : lastPosition? (fun i => decide (flow i = .label l)) body = some k := by
    rw [lastPosition?_eq_some_iff]
    refine ⟨⟨.label l, hk, by simp [flow]⟩, fun j a hj ha => ?_⟩
    rw [decide_eq_false_iff_not, flow_eq_label_iff]
    intro hlabel
    -- A second definition of the label would repeat it in the list of labels.
    rw [Nodup, pairwise_filterMap, pairwise_iff_getElem] at hnodup
    obtain ⟨hjlt, rfl⟩ := List.getElem?_eq_some_iff.mp ha
    obtain ⟨hklt, hkeq⟩ := List.getElem?_eq_some_iff.mp hk
    exact hnodup k j hklt hjlt hj l (by simp [hkeq, label?]) l hlabel rfl
  rw [targetPosition, hlast, getD_some]

theorem target_of_isRedundantBefore (hnodup : (body.filterMap Instr.label?).Nodup)
    (hl : i.target? = some l) (h : isRedundantBefore (body.drop (k + 1)) i = true) :
    k < targetPosition Instr.flow body l ∧
      ∀ j, k < j → j < targetPosition Instr.flow body l → ∃ l', body[j]? = some (.label l') := by
  simp only [isRedundantBefore, hl, any_some, contains_iff_mem] at h
  obtain ⟨d, hd, hbefore⟩ := mem_leadingLabels h
  rw [getElem?_drop] at hd
  rw [targetPosition_eq hnodup hd]
  refine ⟨by omega, fun j hkj hj => ?_⟩
  obtain ⟨l', hl'⟩ := hbefore (j - (k + 1)) (by omega)
  rw [getElem?_drop, show k + 1 + (j - (k + 1)) = j by omega] at hl'
  exact ⟨l', hl'⟩

theorem isRemoval_redundantJumpEdits (body : Listing Instr) :
    IsRemoval body (redundantJumpEdits body) where
  length_eq := length_redundantJumpEdits body
  keep := by
    intro k i i' hi hi'
    rw [getElem?_redundantJumpEdits, hi] at hi'
    obtain ⟨-, rfl⟩ := by simpa using hi'
    rfl
  target := by
    intro k i l a _ _ ha
    have hlabel := flow_of_getElem?_targetPosition ha
    rw [getElem?_redundantJumpEdits, ha]
    cases a <;> cases hlabel
    simp [isRedundantBefore, target?]

/-- A redundant jump leads where control goes anyway. -/
theorem isShortcut_redundantJumpEdits (hnodup : (body.filterMap Instr.label?).Nodup) :
    IsShortcut body (redundantJumpEdits body) fun _ => True := by
  have hjump {k : Nat} (hremoved : (redundantJumpEdits body)[k]? = some none) :
      ∃ i l, body[k]? = some i ∧ i.target? = some l ∧
        isRedundantBefore (body.drop (k + 1)) i = true := by
    rw [getElem?_redundantJumpEdits] at hremoved
    obtain ⟨i, hi, hredundant⟩ := map_eq_some_iff.mp hremoved
    have hredundant : isRedundantBefore (body.drop (k + 1)) i = true := by simpa using hredundant
    obtain ⟨l, hl, -⟩ := (any_eq_true _ _).mp hredundant
    exact ⟨i, l, hi, hl, hredundant⟩
  refine ⟨isRemoval_redundantJumpEdits body, trivial, fun _ _ => trivial, ?_, ?_⟩
  · intro k i _ hi hremoved
    obtain ⟨i', l, hi', hl, -⟩ := hjump hremoved
    cases hi.symm.trans hi'
    cases i <;> cases hl <;> rfl
  · intro k t _ hremoved ht
    obtain ⟨i, l, hi, hl, hredundant⟩ := hjump hremoved
    obtain ⟨hforward, hlabels⟩ := target_of_isRedundantBefore hnodup hl hredundant
    rcases cases_of_mem_nextPositions hi ht with rfl | ⟨l', hl', rfl⟩ | hret
    · exact ⟨by omega, fun j hj hj' => by omega⟩
    · rw [target?_flow, hl] at hl'
      cases hl'
      refine ⟨hforward, fun j hkj hj => .inr ?_⟩
      obtain ⟨l', hl'⟩ := hlabels j hkj hj
      exact ⟨l', by simp [getElem?_redundantJumpEdits, hl', isRedundantBefore, target?]⟩
    · cases i <;> cases hret
      cases hl

/-! ### Labels that nothing jumps to -/

/-- Whether an instruction is not a label, or one that a jump of the body names. -/
def isUsedIn (body : Listing Instr) (i : Instr) : Bool :=
  i.label?.all fun l => (body.filterMap Instr.target?).contains l

/-- What becomes of every instruction when unused labels are removed. -/
def unusedLabelEdits (body : Listing Instr) : List (Option Instr) :=
  body.map fun i => if isUsedIn body i then some i else none

theorem reduceOption_unusedLabelEdits (body : Listing Instr) :
    (unusedLabelEdits body).reduceOption = dropUnusedLabels body := by
  show ((body.map _).filterMap id) = body.filter (isUsedIn body)
  rw [← filterMap_eq_filter]
  simp [Option.guard]

theorem getElem?_unusedLabelEdits (hi : body[k]? = some i) :
    (unusedLabelEdits body)[k]? = some (if isUsedIn body i then some i else none) := by
  simp [unusedLabelEdits, hi]

theorem isRemoval_unusedLabelEdits (body : Listing Instr) :
    IsRemoval body (unusedLabelEdits body) where
  length_eq := by simp [unusedLabelEdits]
  keep := by
    intro k i i' hi hi'
    rw [getElem?_unusedLabelEdits hi] at hi'
    obtain ⟨-, rfl⟩ := by simpa using hi'
    rfl
  target := by
    intro k i l a hi' hl ha
    rw [unusedLabelEdits, getElem?_map] at hi'
    obtain ⟨j, hj, heq⟩ := map_eq_some_iff.mp hi'
    obtain ⟨-, rfl⟩ := by simpa using heq
    have hused : isUsedIn body a = true := by
      rw [isUsedIn, flow_eq_label_iff.mp (flow_of_getElem?_targetPosition ha), all_some,
        contains_iff_mem]
      exact mem_filterMap.mpr ⟨j, mem_of_getElem? hj, hl⟩
    rw [getElem?_unusedLabelEdits ha, if_pos hused]

/-- A label is passed without effect. -/
theorem isShortcut_unusedLabelEdits (body : Listing Instr) :
    IsShortcut body (unusedLabelEdits body) fun _ => True := by
  have hlabel {k : Nat} (hremoved : (unusedLabelEdits body)[k]? = some none) :
      ∃ l, body[k]? = some (.label l) := by
    rw [unusedLabelEdits, getElem?_map] at hremoved
    obtain ⟨i, hi, hunused⟩ := map_eq_some_iff.mp hremoved
    cases i with
    | label l => exact ⟨l, hi⟩
    | _ => cases hunused
  refine ⟨isRemoval_unusedLabelEdits body, trivial, fun _ _ => trivial, ?_, ?_⟩
  · intro k i _ hi hremoved
    obtain ⟨l, hl⟩ := hlabel hremoved
    cases hi.symm.trans hl
    rfl
  · intro k t _ hremoved ht
    obtain ⟨l, hl⟩ := hlabel hremoved
    obtain rfl : t = k + 1 := by simpa [nextPositions, hl, flow] using ht
    exact ⟨by omega, fun j hj hj' => by omega⟩

/-! ### All removals -/

/-- What every removal keeps is kept by all three. -/
theorem eliminateUnreachable_induction {P : Listing Instr → Prop}
    (hremoval : ∀ {body edits}, IsRemoval body edits → P body → P edits.reduceOption)
    (h : P body) : P (eliminateUnreachable body) := by
  have hreachable := hremoval (isRemoval_keepReachableEdits body) h
  have hjumps := hremoval (isRemoval_redundantJumpEdits _) hreachable
  have hlabels := hremoval (isRemoval_unusedLabelEdits _) hjumps
  rwa [reduceOption_unusedLabelEdits, reduceOption_redundantJumpEdits,
    reduceOption_keepReachableEdits] at hlabels

theorem eliminateUnreachable_sublist (body : Listing Instr) :
    (eliminateUnreachable body).Sublist body :=
  eliminateUnreachable_induction
    (fun hedits h => hedits.sublist.trans h) (.refl body)

theorem nodup_labels_keepReachable (h : (body.filterMap Instr.label?).Nodup) :
    ((keepReachable body).filterMap Instr.label?).Nodup := by
  rw [← reduceOption_keepReachableEdits]
  exact h.sublist ((isRemoval_keepReachableEdits body).sublist.filterMap _)

/-- The removals keep the behaviour of a body. -/
theorem preserves_eliminateUnreachable {σ ρ τ : Type} {M : Machine Instr Label σ ρ τ}
    (hM : RunsInstr M) (hlabels : (body.filterMap Instr.label?).Nodup) (m : σ) :
    Preserves M body m M (eliminateUnreachable body) m := by
  have hreachable := (isShortcut_keepReachableEdits body).preserves hM m
  rw [reduceOption_keepReachableEdits] at hreachable
  have hjumps := (isShortcut_redundantJumpEdits (nodup_labels_keepReachable hlabels)).preserves hM m
  rw [reduceOption_redundantJumpEdits] at hjumps
  have hlabels := (isShortcut_unusedLabelEdits (dropRedundantJumps (keepReachable body))).preserves
    hM m
  rw [reduceOption_unusedLabelEdits] at hlabels
  exact (hreachable.trans hjumps).trans hlabels

end ThreeAddress
