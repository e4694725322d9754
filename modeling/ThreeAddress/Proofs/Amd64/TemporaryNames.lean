import ThreeAddress.Proofs.Amd64.LoweredFunctions

/-!
# Names of temporaries

Lowering keeps a table of pseudo registers.  A variable is entered when it is met, unless it is
there already.  A temporary is entered whenever one is drawn, in place of whatever has its name.
The names of temporaries are numbered without a look at the names in the function.  So they are
fresh as long as no variable is named like one of them, and otherwise the two share an entry.
-/

namespace ThreeAddress

open List Std.LawfulEqOrd

namespace Amd64

/-! ### The table of pseudo registers -/

/-- What is entered into the table. -/
inductive Entry where
  | variable (v : Variable)
  | temporary (w : Width)

def Entry.isTemporary : Entry → Bool
  | .variable _ => false
  | .temporary _ => true

/-- The table of pseudo registers, with the supply of temporaries. -/
structure Table where
  pseudos : Std.ExtTreeMap String PseudoInfo
  temporaries : NameSupply

namespace Table

/-- The name that the next temporary gets. -/
def nextName (t : Table) : String := t.temporaries.next.1

/-- Makes an entry.  That of a variable stays if it is made again. -/
def enter (aliased : NameSet) (t : Table) : Entry → Table
  | .variable v => { t with
      pseudos := t.pseudos.insertIfNew v.name ⟨.ofType v.type, aliased.contains v.name⟩ }
  | .temporary w => ⟨t.pseudos.insert t.nextName ⟨w, false⟩, t.temporaries.next.2⟩

def ofEntries (aliased : NameSet) (entries : List Entry) : Table :=
  entries.foldl (enter aliased) ⟨∅, .fresh⟩

/-- A temporary that is drawn now has a name that is neither in the table nor that of a variable. -/
def DrawsFresh (t : Table) (vs : List Variable) : Prop :=
  t.nextName ∉ t.pseudos ∧ ∀ v ∈ vs, v.name ≠ t.nextName

variable {aliased : NameSet} {entries before after : List Entry} {e : Entry} {x : String}
  {info : PseudoInfo} {vs : List Variable}

theorem ofEntries_concat :
    ofEntries aliased (entries ++ [e]) = (ofEntries aliased entries).enter aliased e := by
  simp [ofEntries]

theorem temporaries_ofEntries (aliased : NameSet) (entries : List Entry) :
    (ofEntries aliased entries).temporaries = ⟨entries.countP Entry.isTemporary, ∅⟩ := by
  induction entries using reverseRecOn with
  | nil => rfl
  | append_singleton entries e ih =>
    rw [ofEntries_concat, countP_append]
    cases e with
    | «variable» v => exact ih
    | temporary w =>
      show (ofEntries aliased entries).temporaries.next.2 = _
      rw [ih]
      rfl

theorem nextName_ofEntries (entries : List Entry) : (ofEntries aliased entries).nextName =
    NameSupply.temporary (entries.countP Entry.isTemporary + 1) := by
  rw [nextName, temporaries_ofEntries]
  rfl

/-- Under the name of a variable that no temporary has, there is what the variable was entered
with. -/
theorem exists_of_getElem?_ofEntries (hinfo : (ofEntries aliased entries).pseudos[x]? = some info)
    (hname : ∀ k, 0 < k → k ≤ entries.countP Entry.isTemporary → x ≠ NameSupply.temporary k) :
    ∃ v, .variable v ∈ entries ∧ v.name = x ∧ info = ⟨.ofType v.type, aliased.contains x⟩ := by
  induction entries using reverseRecOn with
  | nil => exact absurd hinfo (by simp [ofEntries])
  | append_singleton entries e ih =>
    have hold (hinfo : (ofEntries aliased entries).pseudos[x]? = some info) :
        ∃ v, .variable v ∈ entries ++ [e] ∧ v.name = x ∧
          info = ⟨.ofType v.type, aliased.contains x⟩ := by
      obtain ⟨v, hv, hv'⟩ := ih hinfo fun k hpos hk =>
        hname k hpos (Nat.le_trans hk (by simp))
      exact ⟨v, mem_append_left _ hv, hv'⟩
    rw [ofEntries_concat] at hinfo
    cases e with
    | «variable» v =>
      rw [enter, Std.ExtTreeMap.getElem?_insertIfNew] at hinfo
      split at hinfo
      · rename_i hv
        have heq := eq_of_compare hv.1
        cases hinfo
        exact ⟨v, by simp, heq, by rw [heq]⟩
      · exact hold hinfo
    | temporary w =>
      rw [enter, Std.ExtTreeMap.getElem?_insert, if_neg] at hinfo
      · exact hold hinfo
      · intro heq
        refine hname _ (Nat.succ_pos _) ?_ ((eq_of_compare heq).symm.trans
          (nextName_ofEntries entries))
        simp [Entry.isTemporary]

theorem mem_ofEntries (hx : x ∈ (ofEntries aliased entries).pseudos) :
    (∃ v, .variable v ∈ entries ∧ v.name = x) ∨
      ∃ k, 0 < k ∧ k ≤ entries.countP Entry.isTemporary ∧ x = NameSupply.temporary k := by
  by_contra hnot
  obtain ⟨hvariable, htemporary⟩ := not_or.mp hnot
  obtain ⟨v, hv, heq, -⟩ := exists_of_getElem?_ofEntries
    (Std.ExtTreeMap.getElem?_eq_some_getElem hx)
    fun k hpos hk heq => htemporary ⟨k, hpos, hk, heq⟩
  exact hvariable ⟨v, hv, heq⟩

theorem drawsFresh_iff (aliased : NameSet) (hvs : ∀ v, .variable v ∈ entries → v ∈ vs) :
    (∀ before w after, entries = before ++ .temporary w :: after →
      (ofEntries aliased before).DrawsFresh vs) ↔
      ∀ v ∈ vs, ∀ k, 0 < k → k ≤ entries.countP Entry.isTemporary →
        v.name ≠ NameSupply.temporary k := by
  constructor
  · intro hfresh v hv k hpos hk
    -- The temporary of a number is drawn after those of lower numbers.
    obtain ⟨before, w, after, heq, hcount⟩ : ∃ before w after,
        entries = before ++ .temporary w :: after ∧
          before.countP Entry.isTemporary + 1 = k := by
      clear hfresh hvs
      induction entries using reverseRecOn with
      | nil => exact absurd hk (Nat.not_le_of_lt hpos)
      | append_singleton entries e ih =>
        by_cases hlast : k ≤ entries.countP Entry.isTemporary
        · obtain ⟨before, w, after, rfl, hcount⟩ := ih hlast
          exact ⟨before, w, after ++ [e], by simp, hcount⟩
        · cases e with
          | «variable» u => exact absurd (by simpa [Entry.isTemporary] using hk) hlast
          | temporary w =>
            refine ⟨entries, w, [], rfl, ?_⟩
            simp only [countP_append, countP_singleton, Entry.isTemporary, if_true] at hk
            omega
    have hne := (hfresh before w after heq).2 v hv
    rwa [nextName_ofEntries, hcount] at hne
  · rintro hne before w after rfl
    have hcount : before.countP Entry.isTemporary + 1 ≤
        (before ++ .temporary w :: after).countP Entry.isTemporary := by
      simp [Entry.isTemporary]
    rw [DrawsFresh, nextName_ofEntries]
    refine ⟨fun hmem => ?_, fun v hv => hne v hv _ (Nat.succ_pos _) hcount⟩
    rcases mem_ofEntries hmem with ⟨v, hv, heq⟩ | ⟨k, -, hk, heq⟩
    · exact hne v (hvs v (mem_append_left _ hv)) _ (Nat.succ_pos _) hcount heq
    · have := NameSupply.temporary_injective heq
      omega

theorem getElem?_ofEntries_append (hx : (ofEntries aliased before).pseudos[x]? = some info)
    (hfresh : ∀ between w rest, after = between ++ .temporary w :: rest →
      (ofEntries aliased (before ++ between)).nextName ∉
        (ofEntries aliased (before ++ between)).pseudos) :
    (ofEntries aliased (before ++ after)).pseudos[x]? = some info := by
  induction after using reverseRecOn with
  | nil => rwa [append_nil]
  | append_singleton after e ih =>
    have hbefore := ih fun between w rest heq =>
      hfresh between w (rest ++ [e]) (by rw [heq]; simp)
    rw [← append_assoc, ofEntries_concat]
    have hmem : x ∈ (ofEntries aliased (before ++ after)).pseudos :=
      Std.ExtTreeMap.mem_iff_isSome_getElem?.mpr (by rw [hbefore]; rfl)
    cases e with
    | «variable» v =>
      rw [enter, Std.ExtTreeMap.getElem?_insertIfNew, if_neg, hbefore]
      rintro ⟨heq, hnew⟩
      rw [eq_of_compare heq] at hnew
      exact hnew hmem
    | temporary w =>
      rw [enter, Std.ExtTreeMap.getElem?_insert, if_neg, hbefore]
      intro heq
      rw [← eq_of_compare heq] at hmem
      exact hfresh after w [] rfl hmem

end Table

/-! ### Lowering -/

/-- No double is an immediate, and addresses are taken only of what is in memory. -/
def Forms.tracked (aliased : NameSet) : Forms where
  allows _ := True
  has t o := t = .double → ∀ n, o ≠ .imm n
  fits w o := w = .double → ∀ n, o ≠ .imm n
  addressable o := (∃ symbol, o = .data symbol) ∨ ∃ x ∈ aliased, o = .pseudo x
  narrows := True
  registers := True
  calls := True

/-- Lowering does nothing to the table but to enter variables of the function and temporaries. -/
def FormRules.tracked (ctx : LoweringContext) (vs : List Variable) : FormRules ctx where
  toForms := .tracked ctx.aliased
  state st := ∃ entries, (∀ v, .variable v ∈ entries → v ∈ vs) ∧
    Table.ofEntries ctx.aliased entries = ⟨st.pseudos, st.temporaries⟩
  accepts x := ∀ v, x = .var v → v ∈ vs
  allows_of_ne _ := trivial
  allows_of_accepts _ := trivial
  allows_of_fits _ := trivial
  fits_of_has h h' := h ((ScalarType.isDouble_iff _).mp (Width.ofType_eq_double h'))
  fits_of_size h _ _ h' := fun hw => h (h' hw)
  fits_of_ne _ _ h := h
  has_of_ne _ _ h := h
  has_variable _ _ := nofun
  intern _ hst := ⟨hst, fun _ => nofun⟩
  state_drawn := by
    rintro st w ⟨entries, hvs, heq⟩
    refine ⟨entries ++ [.temporary w], by simpa using hvs, ?_⟩
    rw [Table.ofEntries_concat, heq]
    rfl
  state_noted := by
    rintro st v hv - ⟨entries, hvs, heq⟩
    refine ⟨entries ++ [.variable v], ?_, ?_⟩
    · simp only [List.mem_append, List.mem_singleton, Entry.variable.injEq]
      rintro u (hu | rfl)
      · exact hvs u hu
      · exact hv u rfl
    · rw [Table.ofEntries_concat, heq]
      rfl
  state_labels := id
  state_arguments := id

/-! ### Functions -/

/-- The code of a function, with that of its parameters. -/
def LoweringContext.code (ctx : LoweringContext) (f : Function) : Lower (List Instr) := do
  let params ← ctx.params f.params
  let body ← ctx.body f.body
  return params ++ body

section

variable {p : Program} {platform : Platform} {f : Function} {constants constants' : ConstantPool}
  {q : Procedure} {c : Config}

theorem tracked_code (haccepted : ∀ i ∈ f.body, i.typeDefect? f.returnType p.arity? = none) :
    Lower.Keeps (FormRules.tracked (.of p platform f) f.variables).state
      ((LoweringContext.of p platform f).code f) fun code =>
        ∀ i ∈ code, i.HasForm (.tracked (addressTaken f.body)) fun _ => True := by
  let R := FormRules.tracked (.of p platform f) f.variables
  have hinstr : ∀ i ∈ f.body, Lower.Keeps R.state ((LoweringContext.of p platform f).instr i)
      fun code => ∀ j ∈ code, j.HasForm R.toForms fun _ => True := by
    intro i hi
    have hvars : ∀ v ∈ i.variables, v ∈ f.variables := fun v hv =>
      mem_append_right _ (mem_flatMap.mpr ⟨i, hi, hv⟩)
    refine (FormRules.keeps_instr (fun _ => trivial) (fun _ => trivial) (fun _ _ _ _ => trivial)
      (fun _ => trivial) (fun v hv => ?_) ?_ ?_ ?_ (haccepted i hi)).mono
        fun code hcode => hcode (fun _ _ => trivial) fun _ _ => trivial
    · refine ((LoweringContext.of p platform f).variableOperandOf_cases v).imp (⟨_, ·⟩)
        fun h => ⟨_, ?_, h⟩
      show v.name ∈ addressTaken f.body
      rw [addressTaken, Std.ExtTreeSet.mem_ofList, contains_iff_mem]
      exact mem_filterMap.mpr ⟨i, hi, by rw [hv]; rfl⟩
    · rintro _ hx v rfl
      exact hvars v (by simp [Instr.variables, Option.mem_def.mp hx, Value.var?])
    · rintro v hv u ⟨⟩
      exact hvars v (by simp [Instr.variables, Option.mem_def.mp hv])
    · rintro x hx v rfl
      refine hvars v ?_
      simp only [Instr.variables, Instr.readVars, mem_append, mem_filterMap]
      exact .inl (.inr ⟨_, hx, rfl⟩)
  have hparams : Lower.Keeps R.state ((LoweringContext.of p platform f).params f.params)
      fun code => ∀ i ∈ code, i.HasForm R.toForms fun _ => True := by
    refine (FormRules.keeps_params trivial ?_).mono fun code hcode i hi => hcode i hi fun _ => True
    rintro v hv u ⟨⟩
    exact mem_append_left _ hv
  refine .bind hparams fun params hfront => ?_
  refine .bind (LoweringContext.keeps_body_forall_mem hinstr .ret) fun body hback => ?_
  exact .pure (forall_mem_append.mpr ⟨hfront, hback⟩)

/-- The table of a procedure and the supply at the end of its lowering come from some entries. -/
structure Recorded (p : Program) (platform : Platform) (f : Function) (constants : ConstantPool)
    (q : Procedure) (st : LoweringState) (entries : List Entry) : Prop where
  run_eq : ((LoweringContext.of p platform f).code f).run (.initial f constants) = .ok (q.body, st)
  pseudos_eq : q.pseudos = st.pseudos
  table_eq : Table.ofEntries (addressTaken f.body) entries = ⟨st.pseudos, st.temporaries⟩
  mem_variables : ∀ v, .variable v ∈ entries → v ∈ f.variables

/-- No variable has the name of one of the first temporaries. -/
def Avoids (f : Function) (n : Nat) : Prop :=
  ∀ v ∈ f.variables, ∀ k, 0 < k → k ≤ n → v.name ≠ NameSupply.temporary k

theorem exists_recorded (haccepted : ∀ i ∈ f.body, i.typeDefect? f.returnType p.arity? = none)
    (hq : lowerFunction p platform f constants = .ok (q, constants')) :
    (∃ st entries, Recorded p platform f constants q st entries) ∧
      ∀ i ∈ q.body, i.HasForm (.tracked (addressTaken f.body)) fun _ => True := by
  obtain ⟨params, body, st₁, st₂, hparams, hbody, rfl⟩ := exists_of_lowerFunction hq
  have hrun : ((LoweringContext.of p platform f).code f).run (.initial f constants) =
      .ok (params ++ body, st₂) := by
    rw [LoweringContext.code, StateT.run_bind, hparams]
    show Except.bind (((LoweringContext.of p platform f).body f.body).run st₁) _ = _
    rw [hbody]
    rfl
  obtain ⟨⟨entries, hvariables, htable⟩, hforms⟩ :=
    tracked_code haccepted ⟨[], nofun, rfl⟩ hrun
  exact ⟨⟨st₂, entries, hrun, rfl, htable, hvariables⟩, hforms⟩

/-- The names of temporaries are fresh exactly if no variable of the function has the name of one
that is drawn.  Then no entry of the table is overwritten, and the table has of every variable the
type and whether its address is taken. -/
theorem temporaries_fresh_iff (hverify : p.verify c = .ok ()) (hf : f ∈ p.functions)
    (hq : lowerFunction p platform f constants = .ok (q, constants')) :
    ∃ st entries, Recorded p platform f constants q st entries ∧
      ((∀ before w after, entries = before ++ .temporary w :: after →
        (Table.ofEntries (addressTaken f.body) before).DrawsFresh f.variables) ↔
          Avoids f st.temporaries.last) ∧
      (Avoids f st.temporaries.last →
        (∀ before after, entries = before ++ after → ∀ (x : String) info,
          (Table.ofEntries (addressTaken f.body) before).pseudos[x]? = some info →
            q.pseudos[x]? = some info) ∧
        ∀ v ∈ f.variables, ∀ info, q.pseudos[v.name]? = some info →
          info = ⟨.ofType v.type, (addressTaken f.body).contains v.name⟩) := by
  obtain ⟨table, hinitial, haccepted, -, hnodup⟩ := p.accepted_of_verify hverify hf
  obtain ⟨⟨st, entries, h⟩, -⟩ := exists_recorded haccepted.typeDefect?_eq hq
  have hlast : st.temporaries.last = entries.countP Entry.isTemporary := by
    have hsupply := Table.temporaries_ofEntries (addressTaken f.body) entries
    rw [h.table_eq] at hsupply
    exact congrArg NameSupply.last hsupply
  have hpseudos : q.pseudos = (Table.ofEntries (addressTaken f.body) entries).pseudos := by
    rw [h.pseudos_eq, h.table_eq]
  have hfresh := Table.drawsFresh_iff (addressTaken f.body) h.mem_variables
  rw [← hlast] at hfresh
  refine ⟨st, entries, h, hfresh, fun havoids => ⟨?_, ?_⟩⟩
  · rintro before after rfl x info hinfo
    rw [hpseudos]
    refine Table.getElem?_ofEntries_append hinfo fun between w rest heq => ?_
    exact (hfresh.mpr havoids (before ++ between) w rest (by rw [heq, append_assoc])).1
  · intro v hv info hinfo
    rw [hpseudos] at hinfo
    obtain ⟨u, hu, hname, rfl⟩ := Table.exists_of_getElem?_ofEntries hinfo
      fun k hpos hk => havoids v hv k hpos (hlast ▸ hk)
    -- Two variables of one name have one type.
    have htypes := types_of_accepted hinitial haccepted hnodup
    rw [← htypes v hv, ← hname, htypes u (h.mem_variables u hu)]

end

/-! ### Parameters with the names of temporaries -/

/-- The difference is built in a temporary, as its destination is the subtrahend. -/
def subtractingFunction (y : String) : Function where
  name := "f"
  isGlobal := true
  params := [⟨y, .double⟩, ⟨"x", .int⟩]
  returnType := some .double
  body := [.binary ⟨"x", .int⟩ .subtract (.const (.ofInt .int 5)) (.var ⟨"x", .int⟩),
    .ret (some (.var ⟨y, .double⟩))]

def subtractingProgram (y : String) : Program := ⟨[subtractingFunction y], []⟩

theorem subtracting_temporaries_fresh : ∃ q constants st entries,
    lowerFunction (subtractingProgram "%t2") .linux (subtractingFunction "%t2") (.empty .linux) =
      .ok (q, constants) ∧
    Recorded (subtractingProgram "%t2") .linux (subtractingFunction "%t2") (.empty .linux) q st
      entries ∧ st.temporaries.last = 1 ∧
    ∀ before w after, entries = before ++ .temporary w :: after →
      (Table.ofEntries (addressTaken (subtractingFunction "%t2").body) before).DrawsFresh
        (subtractingFunction "%t2").variables := by
  obtain ⟨q, constants, hq⟩ : ∃ q constants, lowerFunction (subtractingProgram "%t2") .linux
    (subtractingFunction "%t2") (.empty .linux) = .ok (q, constants) := ⟨_, _, rfl⟩
  obtain ⟨st, entries, h, hfresh, -⟩ :=
    temporaries_fresh_iff (c := {}) (by decide) (mem_singleton_self _) hq
  have hlast : st.temporaries.last = 1 := by
    have hrun := congrArg (Except.map fun r => r.2.temporaries.last) h.run_eq
    exact (Except.ok.inj hrun).symm
  refine ⟨q, constants, st, entries, hq, h, hlast, hfresh.mpr ?_⟩
  intro v hv k hpos hk
  obtain rfl : k = 1 := by omega
  revert v
  decide

/-- A temporary is entered in place of the parameter that has its name, with another width. -/
theorem subtracting_parameter_lost : (subtractingProgram "%t1").verify {} = .ok () ∧
    ∃ q constants, lowerFunction (subtractingProgram "%t1") .linux (subtractingFunction "%t1")
      (.empty .linux) = .ok (q, constants) ∧ q.pseudos["%t1"]? = some ⟨.long, false⟩ :=
  ⟨by decide, _, _, rfl, by decide +kernel⟩

end Amd64

end ThreeAddress
