import ThreeAddress.Proofs.Amd64.Variables
import ThreeAddress.Proofs.Fresh.UniqueTexts

/-!
# Steps of lowering

Lowering extends its state as it goes on: it hands out temporaries, and notes the variables and the
registers of arguments that it meets.  For code without doubles it always succeeds.
-/

namespace ThreeAddress

open Std.ExtTreeMap

namespace Amd64

/-- A step of lowering succeeds, with a result and a new state that have some property. -/
def Lower.Gives {α : Type} (x : Lower α) (st : LoweringState)
    (P : α → LoweringState → Prop) : Prop :=
  ∃ a st', x.run st = .ok (a, st') ∧ P a st'

namespace Lower.Gives

variable {α β : Type} {x : Lower α} {f : α → Lower β} {st : LoweringState}
  {P Q : α → LoweringState → Prop} {R : β → LoweringState → Prop}

theorem pure {a : α} (h : P a st) : Gives (Pure.pure a) st P := ⟨a, st, rfl, h⟩

theorem bind (hx : Gives x st P) (hf : ∀ a st', P a st' → Gives (f a) st' R) :
    Gives (x >>= f) st R := by
  obtain ⟨a, st₁, hrun, ha⟩ := hx
  obtain ⟨b, st₂, hrun', hb⟩ := hf a st₁ ha
  exact ⟨b, st₂, by rw [StateT.run_bind, hrun]; exact hrun', hb⟩

theorem mono (hx : Gives x st P) (h : ∀ a st', P a st' → Q a st') : Gives x st Q := by
  obtain ⟨a, st₁, hrun, ha⟩ := hx
  exact ⟨a, st₁, hrun, h a st₁ ha⟩

/-- Lowers a list, element by element.  What is known of the code of an element does not get lost
later. -/
theorem mapM {R : List α → LoweringState → LoweringState → Prop} {P : α → β → LoweringState → Prop}
    {xs : List α} (hnil : ∀ st, R [] st st)
    (hcons : ∀ {x xs st st₁ st₂}, R [x] st st₁ → R xs st₁ st₂ → R (x :: xs) st st₂)
    (hkept : ∀ {x b xs st st'}, R xs st st' → P x b st → P x b st')
    (hf : ∀ x ∈ xs, ∀ st, Gives (f x) st fun b st' => R [x] st st' ∧ P x b st') :
    Gives (xs.mapM f) st fun bs st' => R xs st st' ∧ List.Forall₂ (fun x b => P x b st') xs bs := by
  induction xs generalizing st with
  | nil => exact pure ⟨hnil st, .nil⟩
  | cons x rest ih =>
    obtain ⟨hx, hrest⟩ := List.forall_mem_cons.mp hf
    rw [List.mapM_cons]
    refine (hx st).bind ?_
    intro b st₁ ⟨h₁, hb⟩
    refine (ih hrest).bind ?_
    intro bs st₂ ⟨h₂, hbs⟩
    exact pure ⟨hcons h₁ h₂, .cons (hkept h₂ hb) hbs⟩

end Lower.Gives

theorem Layout.ordinary_of_not_isPrefix {ctx : LoweringContext} {e : Setting} {L : Layout ctx e}
    (h : ∀ x ∈ L.used, ¬"%t".toList <+: x.toList) : L.Ordinary :=
  fun n hn => absurd (NameSupply.isPrefix_temporary n) (h _ hn)

namespace LoweringContext

variable (ctx : LoweringContext)

/-- What is known about pseudo registers is right. -/
def Sound (st : LoweringState) : Prop :=
  ∀ x info, st.pseudos[x]? = some info →
    (∀ n, x = NameSupply.temporary n → info.isAliased = false) ∧
      ((∀ n, x ≠ NameSupply.temporary n) → info.isAliased = ctx.aliased.contains x)

/-- The state after lowering has met some variables. -/
structure Extends (vs : List Variable) (st st' : LoweringState) : Prop where
  sound : ctx.Sound st → ctx.Sound st'
  kept : ∀ x, x ∈ st.pseudos → x ∈ st'.pseudos
  noted : ∀ v ∈ vs, v.name ∈ ctx.statics ∨ v.name ∈ st'.pseudos
  arguments : ∀ symbol r, r ∈ st.callArguments.getD symbol [] → r ∈ st'.callArguments.getD symbol []
  last : st.temporaries.last ≤ st'.temporaries.last
  labels : st'.labels = st.labels

variable {ctx}

namespace Extends

variable {vs us : List Variable} {st st' st'' : LoweringState}

theorem refl (st : LoweringState) : ctx.Extends [] st st :=
  ⟨id, fun _ h => h, (nofun), fun _ _ h => h, Nat.le_refl _, rfl⟩

theorem trans (h : ctx.Extends vs st st') (h' : ctx.Extends us st' st'') :
    ctx.Extends (vs ++ us) st st'' where
  sound := fun hst => h'.sound (h.sound hst)
  kept := fun x hx => h'.kept x (h.kept x hx)
  noted := by
    intro v hv
    rcases List.mem_append.mp hv with hv | hv
    · exact (h.noted v hv).imp id (h'.kept v.name)
    · exact h'.noted v hv
  arguments := fun symbol r hr => h'.arguments symbol r (h.arguments symbol r hr)
  last := Nat.le_trans h.last h'.last
  labels := h'.labels.trans h.labels

theorem subset (h : ctx.Extends vs st st') (hsub : us ⊆ vs) : ctx.Extends us st st' :=
  { h with noted := fun v hv => h.noted v (hsub hv) }

end Extends

variable (ctx) in
/-- A step of lowering succeeds and meets some variables, with a result and a new state that have
some property. -/
def Gives {α : Type} (vs : List Variable) (x : Lower α) (st : LoweringState)
    (P : α → LoweringState → Prop) : Prop :=
  Lower.Gives x st fun a st' => ctx.Extends vs st st' ∧ P a st'

namespace Gives

variable {α β : Type} {u w : List Variable} {x : Lower α} {f : α → Lower β} {st : LoweringState}
  {P Q : α → LoweringState → Prop} {R : β → LoweringState → Prop}

theorem pure {a : α} (h : P a st) : ctx.Gives [] (Pure.pure a) st P :=
  Lower.Gives.pure ⟨.refl st, h⟩

theorem bind (hx : ctx.Gives u x st P)
    (hf : ∀ a st', ctx.Extends u st st' → P a st' → ctx.Gives w (f a) st' R) :
    ctx.Gives (u ++ w) (x >>= f) st R :=
  Lower.Gives.bind hx fun a st' ⟨hst, ha⟩ =>
    (hf a st' hst ha).mono fun _ _ ⟨hst', hb⟩ => ⟨hst.trans hst', hb⟩

theorem imp (hx : ctx.Gives u x st P) (hsub : w ⊆ u) (h : ∀ a st', P a st' → Q a st') :
    ctx.Gives w x st Q :=
  Lower.Gives.mono hx fun a st' ⟨hst, ha⟩ => ⟨hst.subset hsub, h a st' ha⟩

theorem subset (hx : ctx.Gives u x st P) (hsub : w ⊆ u) : ctx.Gives w x st P :=
  hx.imp hsub fun _ _ h => h

theorem ifNeg {c : Prop} [Decidable c] {y : Lower α} (hc : ¬c) (hx : ctx.Gives u x st P) :
    ctx.Gives u (if c then y else x) st P := by
  rwa [if_neg hc]

end Gives

/-- What lowering knows in the end is enough for a procedure to know which variables are in
memory. -/
theorem Sound.hosts {e : Setting} {L : Layout ctx e} {p : Procedure} {st : LoweringState}
    (hsound : ctx.Sound st) (hL : L.Ordinary) (hp : p.pseudos = st.pseudos)
    (hnoted : ∀ x ∈ L.used, x ∈ ctx.statics ∨ x ∈ st.pseudos) : p.Hosts L where
  isAliased_variable := by
    intro x hx hstatic
    have hmem := (hnoted x hx).resolve_left hstatic
    have hinfo : st.pseudos[x]? = some st.pseudos[x] := getElem?_eq_some_getElem hmem
    have hordinary : ∀ n, x ≠ NameSupply.temporary n := by
      rintro n rfl
      exact hstatic (hL n hx)
    rw [Procedure.isAliased, hp, hinfo]
    exact (hsound x _ hinfo).2 hordinary
  isAliased_temporary := by
    intro n
    rw [Procedure.isAliased, hp]
    cases hinfo : st.pseudos[NameSupply.temporary n]? with
    | none => rfl
    | some info => exact (hsound _ info hinfo).1 n rfl

/-! ### Operands -/

section

variable {e : Setting} {L : Layout ctx e} {st : LoweringState} {v : Variable} {x : Value}

theorem gives_variableOperand (hL : L.Ordinary) (hv : v.name ∈ L.used) :
    ctx.Gives [v] (ctx.variableOperand v) st fun o _ => o = ctx.variableOperandOf v := by
  by_cases hstatic : v.name ∈ ctx.statics
  · refine ⟨ctx.variableOperandOf v, st, ?_, ?_, rfl⟩
    · simp [variableOperand, variableOperandOf, hstatic]
      rfl
    · exact { Extends.refl st with noted := by simp [hstatic] }
  · refine ⟨ctx.variableOperandOf v, { st with
      pseudos := st.pseudos.insertIfNew v.name ⟨.ofType v.type, ctx.aliased.contains v.name⟩ },
      ?_, ?_, rfl⟩
    · simp [variableOperand, variableOperandOf, hstatic]
      rfl
    · refine ⟨?_, ?_, ?_, fun _ _ h => h, Nat.le_refl _, rfl⟩
      · intro hsound x info hx
        rw [getElem?_insertIfNew] at hx
        split at hx
        · rename_i hnew
          obtain rfl := Std.LawfulEqOrd.eq_of_compare hnew.1
          cases hx
          refine ⟨fun n hn => absurd ?_ hstatic, fun _ => rfl⟩
          rw [hn] at hv ⊢
          exact hL n hv
        · exact hsound x info hx
      · intro x hx
        simp [hx]
      · simp

theorem gives_operand (hL : L.Ordinary) (hx : L.HasValue x) (ht : x.type ≠ .double) :
    ctx.Gives x.var?.toList (ctx.operand x) st fun o _ => o = ctx.operandOf x := by
  cases x with
  | var v => exact gives_variableOperand hL (hx v rfl).1
  | const c =>
    refine ⟨immediate c, st, ?_, .refl st, rfl⟩
    rw [operand, Const.toBinary64?_eq_none_iff.mpr ht]
    rfl

section

variable {β : Type} {w : List Variable} {f : Operand → Lower β} {R : β → LoweringState → Prop}

theorem Gives.withVariable (hL : L.Ordinary) (hv : L.Has v)
    (hf : ∀ st', ctx.Gives w (f (ctx.variableOperandOf v)) st' R) :
    ctx.Gives (v :: w) (ctx.variableOperand v >>= f) st R :=
  (gives_variableOperand hL hv.1).bind fun _ st' _ h => h ▸ hf st'

theorem Gives.withOperand (hL : L.Ordinary) (hx : L.HasValue x) (ht : x.type ≠ .double)
    (hf : ∀ st', ctx.Gives w (f (ctx.operandOf x)) st' R) :
    ctx.Gives (x.var?.toList ++ w) (ctx.operand x >>= f) st R :=
  (gives_operand hL hx ht).bind fun _ st' _ h => h ▸ hf st'

end

variable (ctx) in
/-- A temporary has a name that was not used for one before. -/
theorem gives_temporary (w : Width) :
    ctx.Gives [] (Lower.temporary w) st fun o st' => ∃ n, o = .pseudo (NameSupply.temporary n) ∧
      st.temporaries.last < n ∧ st'.temporaries.last = n := by
  have hlast := NameSupply.le_firstFree st.temporaries.avoided st.temporaries.avoided.size
    (st.temporaries.last + 1)
  refine ⟨_, _, rfl, ⟨?_, ?_, by simp, fun _ _ h => h, Nat.le_of_lt hlast, rfl⟩, _, rfl, hlast, rfl⟩
  · intro hsound x info hx
    rw [getElem?_insert] at hx
    split at hx
    · rename_i heq
      obtain rfl := Std.LawfulEqOrd.eq_of_compare heq
      cases hx
      exact ⟨fun _ _ => rfl, fun h => absurd rfl (h _)⟩
    · exact hsound x info hx
  · intro x hx
    simp [hx]

variable (ctx) in
theorem gives_noteArguments (symbol : String) (registers : List Register) :
    ctx.Gives [] (Lower.noteArguments symbol registers) st fun _ st' =>
      ∀ r ∈ registers, r ∈ st'.callArguments.getD symbol [] := by
  have hnoted : ∀ (known : List Register) (r : Register),
      r ∈ registers.foldl (fun known r => if known.contains r then known else known ++ [r]) known ↔
        r ∈ known ∨ r ∈ registers := by
    induction registers with
    | nil => simp
    | cons q rest ih =>
      intro known r
      rw [List.foldl_cons, ih]
      by_cases hq : known.contains q = true
      · rw [if_pos hq]
        grind
      · rw [if_neg hq]
        grind
  refine ⟨_, _, rfl, ⟨id, fun _ h => h, (fun _ h => nomatch h), ?_, Nat.le_refl _, rfl⟩, ?_⟩
  · intro symbol' r hr
    rw [getD_insert]
    split
    · rename_i heq
      obtain rfl := Std.LawfulEqOrd.eq_of_compare heq
      exact (hnoted _ r).mpr (Or.inl hr)
    · exact hr
  · intro r hr
    rw [getD_insert_self]
    exact (hnoted _ r).mpr (Or.inr hr)

theorem gives_mapM {α β : Type} {f : α → Lower β} {vars : α → List Variable}
    {P : α → β → LoweringState → Prop} {xs : List α}
    (hkept : ∀ {x b us st st'}, ctx.Extends us st st' → P x b st → P x b st')
    (hf : ∀ x ∈ xs, ∀ st, ctx.Gives (vars x) (f x) st fun b st' => P x b st') :
    ctx.Gives (xs.flatMap vars) (xs.mapM f) st fun bs st' =>
      List.Forall₂ (fun x b => P x b st') xs bs :=
  Lower.Gives.mapM (R := fun xs => ctx.Extends (xs.flatMap vars)) Extends.refl
    (fun h h' => by simpa using h.trans h') hkept (by simpa [Gives] using hf)

end

end LoweringContext

end Amd64

end ThreeAddress
