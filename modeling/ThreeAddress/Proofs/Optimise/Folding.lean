import ThreeAddress.Optimise.Fold
import ThreeAddress.Proofs.Control.Lockstep
import ThreeAddress.Proofs.Optimise.EditedBody

/-!
# Correctness of constant folding

An instruction that is folded has the outcome of the old one in every memory, and a jump that is
removed is never taken.  The types that verification prescribes make sure of the first: operands of
different types could be computed in another way by the folder than at run time.
-/

namespace ThreeAddress

open Instr List Memory

variable {returns : Option ScalarType} {arity? : String → Option Nat} {e : Environment} {m : Memory}
  {body : Listing Instr} {i i' : Instr} {types : String → ScalarType}

/-! ### Single instructions -/

theorem orCopy_cases (i : Instr) (dst : Variable) (c? : Option Const) :
    i.orCopy dst c? = i ∨ ∃ c, c? = some c ∧ i.orCopy dst c? = .copy dst (.const c) := by
  cases c? with
  | none => exact .inl rfl
  | some c => exact .inr ⟨c, rfl, rfl⟩

/-- An instruction on constants assigns a constant. -/
inductive Instr.Computes : Instr → Variable → Const → Prop
  | unary {dst : Variable} {op : UnaryOp} {a c : Const} (h : op.eval a = some c) :
      Computes (.unary dst op (.const a)) dst c
  | binary {dst : Variable} {op : BinaryOp} {a b c : Const} (h : op.eval a b = some c) :
      Computes (.binary dst op (.const a) (.const b)) dst c
  | convert {dst : Variable} {conversion : Conversion} {a c : Const}
      (h : conversion.eval a dst.type = some c) :
      Computes (.convert dst conversion (.const a)) dst c
  | copy {dst : Variable} {a : Const} : Computes (.copy dst (.const a)) dst (a.as dst.type)

namespace Instr.Computes

variable {i : Instr} {dst : Variable} {c : Const}

theorem execute_eq (h : i.Computes dst c) : execute e m i = .next (m.assign dst ⟨c, ∅⟩) := by
  cases h with
  | unary h | binary h | convert h => simp [execute, result?, eval, h, assign?]
  | copy => simp [execute, result?, eval, assign?, assign, Const.as_as_self]

theorem written?_eq (h : i.Computes dst c) : i.written? = some dst := by cases h <;> rfl

theorem label?_eq (h : i.Computes dst c) : i.label? = none := by cases h <;> rfl

end Instr.Computes

theorem execute_of_fold_eq_none (hfold : i.fold = none) : execute e m i = .next m := by
  cases i with
  | jumpIfZero cond l | jumpIfNotZero cond l =>
    cases cond with
    | var v => cases hfold
    | const c =>
      simp only [fold] at hfold
      simp_all [execute, eval]
  | unary dst op src | convert dst op src =>
    cases src <;> cases hfold
  | binary dst op lhs rhs =>
    cases lhs with
    | var v => cases hfold
    | const a => cases rhs <;> cases hfold
  | copy dst src =>
    cases src with
    | var v => cases hfold
    | const c =>
      simp only [fold] at hfold
      split at hfold <;> cases hfold
  | _ => cases hfold

/-- Folding keeps an instruction, or makes a copy of the constant that it computes, or a jump. -/
theorem fold_cases (htype : i.typeDefect? returns arity? = none) (hfold : i.fold = some i') :
    i' = i ∨
    (∃ dst c, i' = .copy dst (.const c) ∧ i.Computes dst c ∧ c.type = dst.type) ∨
    (∃ l, i' = .jump l ∧ i.target? = some l ∧ i.label? = none ∧
      ∀ e m, execute e m i = .jump l m) := by
  cases i with
  | unary dst op src =>
    cases src with
    | var v => cases hfold; exact .inl rfl
    | const c =>
      cases hfold
      rcases orCopy_cases (.unary dst op (.const c)) dst (c.unary? op) with h | ⟨d, hd, h⟩
      · exact .inl h
      · rw [Const.unary?_eq_eval] at hd
        have hdst : dst.type = if op = .not then .int else c.type := by
          cases op with
          | not => exact eq_of_mismatch? htype
          | negate => exact eq_of_mismatch? htype
          | complement =>
            simp only [typeDefect?] at htype
            split at htype
            · cases htype
            · exact eq_of_mismatch? htype
        exact .inr (.inl ⟨dst, d, h, .unary hd, (UnaryOp.type_of_eval hd).trans hdst.symm⟩)
  | binary dst op lhs rhs =>
    cases lhs with
    | var v => cases hfold; exact .inl rfl
    | const a =>
      cases rhs with
      | var v => cases hfold; exact .inl rfl
      | const b =>
        cases hfold
        rcases orCopy_cases (.binary dst op (.const a) (.const b)) dst (Const.binary? op a b) with
          h | ⟨d, hd, h⟩
        · exact .inl h
        · obtain ⟨hoperands, hdst⟩ := types_of_binaryDefect? htype
          rw [Const.binary?_eq_eval hoperands] at hd
          exact .inr (.inl ⟨dst, d, h, .binary hd, (BinaryOp.type_of_eval hd).trans hdst.symm⟩)
  | convert dst conversion src =>
    cases src with
    | var v => cases hfold; exact .inl rfl
    | const c =>
      cases hfold
      rcases orCopy_cases (.convert dst conversion (.const c)) dst
        (Const.convert? conversion c dst.type) with h | ⟨d, hd, h⟩
      · exact .inl h
      · have hvalid := isValid_of_typeDefect? htype
        rw [Const.convert?_eq_eval hvalid] at hd
        exact .inr (.inl ⟨dst, d, h, .convert hd, Conversion.type_of_eval hvalid hd⟩)
  | copy dst src =>
    cases src with
    | var v => cases hfold; exact .inl rfl
    | const c =>
      simp only [fold] at hfold
      split at hfold
      · cases hfold
        exact .inl rfl
      · cases hfold
        rcases orCopy_cases (.copy dst (.const c)) dst (c.reinterpret? dst.type) with
          h | ⟨d, hd, h⟩
        · exact .inl h
        · rw [Const.reinterpret?_eq_some hd] at h
          exact .inr (.inl ⟨dst, _, h, .copy, rfl⟩)
  | jumpIfZero cond l | jumpIfNotZero cond l =>
    cases cond with
    | var v => cases hfold; exact .inl rfl
    | const c =>
      simp only [fold] at hfold
      split at hfold <;> cases hfold
      refine .inr (.inr ⟨l, rfl, rfl, rfl, ?_⟩)
      simp_all [execute, eval]
  | _ =>
    cases hfold
    exact .inl rfl

/-- A folded instruction has the outcome of the old one. -/
theorem execute_fold (htype : i.typeDefect? returns arity? = none) (hfold : i.fold = some i') :
    execute e m i' = execute e m i := by
  rcases fold_cases htype hfold with rfl | ⟨dst, c, rfl, hcomputes, -⟩ | ⟨l, rfl, -, -, hjump⟩
  · rfl
  · rw [hcomputes.execute_eq]
    rfl
  · rw [hjump]
    rfl

/-! ### Whole bodies -/

theorem reduceOption_map_fold (body : Listing Instr) :
    (body.map Instr.fold).reduceOption = foldConstants body := by
  simp [reduceOption, foldConstants, filterMap_map]

theorem label?_of_fold (htype : i.typeDefect? returns arity? = none) (hfold : i.fold = some i') :
    i'.label? = i.label? := by
  rcases fold_cases htype hfold with rfl | ⟨dst, c, rfl, hcomputes, -⟩ | ⟨l, rfl, -, hlabel, -⟩
  · rfl
  · exact hcomputes.label?_eq.symm
  · exact hlabel.symm

theorem WellFormed.foldConstants (h : WellFormed returns arity? types body) :
    WellFormed returns arity? types (foldConstants body) := by
  rw [← reduceOption_map_fold]
  refine h.edit (length_map _) fun k i i' hi hi' => ?_
  have hmem := mem_of_getElem? hi
  have htype := h.typeDefect?_eq i hmem
  have hfold : i.fold = some i' := by simpa [hi] using hi'
  refine ⟨fun v hv => ?_, ?_, label?_of_fold htype hfold⟩
  · rcases fold_cases htype hfold with rfl | ⟨dst, c, rfl, hcomputes, -⟩ | ⟨l, rfl, -⟩
    · exact h.variable_type _ hmem v hv
    · obtain rfl : v = dst := by simpa [Instr.variables, written?, readVars, reads,
        addressed?, Value.var?] using hv
      exact h.variable_type i hmem v (by simp [Instr.variables, hcomputes.written?_eq])
    · simp [Instr.variables, written?, readVars, reads, addressed?] at hv
  · rcases fold_cases htype hfold with rfl | ⟨dst, c, rfl, -, hc⟩ | ⟨l, rfl, -⟩
    · exact htype
    · simp [typeDefect?, Value.type, ScalarType.copiesTo, hc]
    · rfl

theorem AddressesWithin.foldConstants {aliased : NameSet} (h : AddressesWithin aliased body)
    (hbody : WellFormed returns arity? types body) :
    AddressesWithin aliased (foldConstants body) := by
  rw [← reduceOption_map_fold]
  refine h.edit (length_map _) fun k i i' hi hi' => ?_
  have hfold : i.fold = some i' := by simpa [hi] using hi'
  rcases fold_cases (hbody.typeDefect?_eq i (mem_of_getElem? hi)) hfold with
    rfl | ⟨dst, c, rfl, -⟩ | ⟨l, rfl, -⟩
  · exact .inl rfl
  · exact .inr rfl
  · exact .inr rfl

theorem lockstep_fold (h : WellFormed returns arity? types body) :
    Lockstep e.machine body (body.map Instr.fold) (fun _ _ => True) (fun _ m m' => m = m') where
  length_eq := length_map _
  leave_eq := fun _ heq => congrArg _ heq
  kept := by
    rintro k m _ i i' - rfl hi hi'
    have hfold : i.fold = some i' := by simpa [hi] using hi'
    rw [Environment.machine_execute, execute_fold (h.typeDefect?_eq i (mem_of_getElem? hi)) hfold]
    exact outcomesInStep_refl e.machine body k _
  removed := by
    rintro k m _ i - rfl hi hi'
    have hfold : i.fold = none := by simpa [hi] using hi'
    exact ⟨m, execute_of_fold_eq_none hfold, rfl⟩
  target_eq := by
    intro k i' l hi' hl
    rw [Environment.machine_flow]
    refine targetPosition_reduceOption (by simp) (fun j b hb hbl => ?_) (fun a ha => ?_)
    · rw [getElem?_map] at hb
      obtain ⟨a, ha, hfold⟩ := Option.map_eq_some_iff.mp hb
      have htype := h.typeDefect?_eq a (mem_of_getElem? ha)
      refine ⟨a, ha, ?_⟩
      rwa [flow_eq_label_iff, ← label?_of_fold htype hfold, ← flow_eq_label_iff]
    · have hlabel := flow_of_getElem?_targetPosition ha
      have hfold : a.fold = some a := by
        cases a <;> first | rfl | cases hlabel
      exact ⟨a, by simp [ha, hfold], hlabel⟩

/-- Folding keeps the behaviour of a body. -/
theorem preserves_foldConstants (h : WellFormed returns arity? types body) (m : Memory) :
    Preserves e.machine body m e.machine (foldConstants body) m := by
  rw [← reduceOption_map_fold]
  exact (lockstep_fold h).preserves rfl (fun heq => congrArg _ heq) fun _ _ _ => trivial

end ThreeAddress
