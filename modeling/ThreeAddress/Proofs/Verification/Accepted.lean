import Mathlib.Data.List.Nodup
import ThreeAddress.Verification.Check

/-!
# Accepted programs

What verification guarantees of the functions of a program that it accepts.  Later stages rely on
nothing else.
-/

namespace ThreeAddress

open List Std.ExtTreeMap

variable {s : Surroundings}
variable {types types' : TypeTable} {params : List Variable}

/-- A body whose names and instructions have their types, and which defines every label once. -/
structure WellFormed (returns : Option ScalarType) (arity? : String → Option Nat)
    (types : String → ScalarType) (body : Listing Instr) : Prop where
  /-- Names keep their types. -/
  variable_type : ∀ i ∈ body, ∀ v ∈ i.variables, types v.name = v.type
  typeDefect?_eq : ∀ i ∈ body, i.typeDefect? returns arity? = none
  nodup_labels : (body.filterMap Instr.label?).Nodup

/-- What verification guarantees of a body, with the type of every name. -/
structure Accepted (returns : Option ScalarType) (arity? : String → Option Nat)
    (types : String → ScalarType) (body : Listing Instr) : Prop
    extends WellFormed returns arity? types body where
  target_defined : ∀ i ∈ body, ∀ l, i.target? = some l → l ∈ body.filterMap Instr.label?

namespace WellFormed

variable {returns : Option ScalarType} {arity? : String → Option Nat}
  {types : String → ScalarType} {body body' : Listing Instr}

theorem sublist (h : WellFormed returns arity? types body) (hsub : body'.Sublist body) :
    WellFormed returns arity? types body' where
  variable_type := fun i hi => h.variable_type i (hsub.subset hi)
  typeDefect?_eq := fun i hi => h.typeDefect?_eq i (hsub.subset hi)
  nodup_labels := h.nodup_labels.sublist (hsub.filterMap _)

end WellFormed

/-! ### Typing rules -/

theorem eq_of_mismatch? {role : Role} {a b : ScalarType} (h : mismatch? role a b = none) :
    a = b := by
  unfold mismatch? at h
  split at h
  · assumption
  · cases h

theorem binaryDefect?_eq_none_iff {dst lhs rhs : ScalarType} {op : BinaryOp} :
    binaryDefect? dst op lhs rhs = none ↔
      (op.isIntegerOnly = true → lhs ≠ .double ∧ rhs ≠ .double) ∧
      (if op.isShift then rhs.isInteger = true else rhs = lhs) ∧
      dst = if op.isComparison then .int else lhs := by
  unfold binaryDefect?
  split
  · simp_all [ScalarType.isDouble]
    tauto
  · cases op.isShift <;> cases op.isComparison <;>
      simp_all [mismatch?, ScalarType.isDouble, Option.or_eq_none_iff]

theorem types_of_binaryDefect? {dst lhs rhs : ScalarType} {op : BinaryOp}
    (h : binaryDefect? dst op lhs rhs = none) :
    (op.isShift = true ∨ rhs = lhs) ∧ dst = if op.isComparison then .int else lhs := by
  obtain ⟨-, hrhs, hdst⟩ := binaryDefect?_eq_none_iff.mp h
  split at hrhs
  · exact ⟨.inl ‹_›, hdst⟩
  · exact ⟨.inr hrhs, hdst⟩

section

variable {returns : Option ScalarType} {arity? : String → Option Nat} {dst : Variable}

theorem type_of_typeDefect? {op : UnaryOp} {src : Value}
    (h : (Instr.unary dst op src).typeDefect? returns arity? = none) :
    dst.type = if op = .not then .int else src.type := by
  cases op with
  | not | negate => exact eq_of_mismatch? h
  | complement =>
    simp only [Instr.typeDefect?] at h
    split at h
    · cases h
    · exact eq_of_mismatch? h

theorem isValid_of_typeDefect? {conversion : Conversion} {src : Value}
    (h : (Instr.convert dst conversion src).typeDefect? returns arity? = none) :
    conversion.isValid src.type dst.type = true := by
  simp only [Instr.typeDefect?] at h
  split at h
  · assumption
  · cases h

end

/-! ### Repetitions -/

theorem firstRepeat?_eq_none_iff {α : Type} [DecidableEq α] {seen : List α}
    {entries : List (Nat × α)} :
    firstRepeat? seen entries = none ↔
      (entries.map Prod.snd).Nodup ∧ ∀ a ∈ entries.map Prod.snd, a ∉ seen := by
  induction entries generalizing seen with
  | nil => simp [firstRepeat?]
  | cons entry rest ih =>
    obtain ⟨n, a⟩ := entry
    rw [firstRepeat?]
    by_cases ha : a ∈ seen
    · simp [ha]
    · simp only [ha, if_false, ih, map_cons, nodup_cons, mem_cons, not_or,
        forall_eq_or_imp, not_false_eq_true, true_and]
      constructor
      · rintro ⟨hnodup, hall⟩
        exact ⟨⟨fun hmem => (hall a hmem).1 rfl, hnodup⟩, fun b hb => (hall b hb).2⟩
      · rintro ⟨⟨hnot, hnodup⟩, hall⟩
        refine ⟨hnodup, fun b hb => ⟨?_, hall b hb⟩⟩
        rintro rfl
        exact hnot hb

@[simp] theorem map_snd_numbered {α : Type} (l : Listing α) : l.numbered.map Prod.snd = l := by
  simp [Listing.numbered, Function.comp_def]

theorem mem_labels_iff {body : Listing Instr} {l : Label} :
    l ∈ body.filterMap Instr.label? ↔ .label l ∈ body := by
  rw [mem_filterMap]
  refine ⟨fun ⟨i, hi, hl⟩ => ?_, fun h => ⟨_, h, rfl⟩⟩
  cases i <;> cases hl
  exact hi

theorem map_snd_definedLabels (body : Listing Instr) :
    (definedLabels body).map Prod.snd = body.filterMap Instr.label? := by
  rw [definedLabels, map_filterMap]
  conv_rhs => rw [← map_snd_numbered body, filterMap_map]
  simp [Function.comp_def]

/-! ### Types of names -/

/-- The type that a name is declared with: that of the parameter of the name, or else of the first
static variable. -/
def declaredType? (params : List Variable) (statics : List StaticVariable) (x : String) :
    Option ScalarType :=
  ((params.find? fun v => v.name == x).map Variable.type).or
    ((statics.find? fun s => s.name == x).map StaticVariable.type)

theorem find?_of_nodup {α : Type} {name : α → String} {xs : List α} {a : α}
    (h : (xs.map name).Nodup) (ha : a ∈ xs) : xs.find? (fun b => name b == name a) = some a := by
  obtain ⟨b, hb⟩ : ∃ b, xs.find? (fun b => name b == name a) = some b := by
    rw [← Option.isSome_iff_exists, find?_isSome]
    exact ⟨a, ha, beq_self_eq_true (name a)⟩
  have hname : name b = name a := by simpa using find?_some hb
  rw [hb, inj_on_of_nodup_map h (mem_of_find?_eq_some hb) ha hname]

namespace TypeTable

variable {table : TypeTable} {v : Variable}

/-- The second table knows all that the first one knows. -/
def Extends (a b : TypeTable) : Prop :=
  ∀ (x : String) (t : ScalarType), a[x]? = some t → b[x]? = some t

theorem use?_eq_ok (h : types.use? v = .ok types') :
    Extends types types' ∧ types'[v.name]? = some v.type := by
  unfold use? at h
  split at h
  · rename_i hnone
    cases h
    refine ⟨fun x t hx => ?_, by simp⟩
    rw [Std.ExtTreeMap.getElem?_insert]
    split
    · rename_i heq
      obtain rfl := Std.LawfulEqOrd.eq_of_compare heq
      rw [hnone] at hx
      cases hx
    · exact hx
  · rename_i previous hsome
    split at h
    · rename_i heq
      cases h
      exact ⟨fun _ _ hx => hx, by rw [hsome, heq]⟩
    · cases h

theorem foldlM_use?_eq_ok {vs : List Variable} (h : vs.foldlM use? types = .ok types') :
    Extends types types' ∧ ∀ v ∈ vs, types'[v.name]? = some v.type := by
  induction vs generalizing types with
  | nil =>
    cases h
    exact ⟨fun _ _ hx => hx, by simp⟩
  | cons v rest ih =>
    rw [foldlM_cons] at h
    cases hv : types.use? v with
    | error defect =>
      rw [hv] at h
      cases h
    | ok next =>
      rw [hv] at h
      obtain ⟨hextends, hrest⟩ := ih h
      obtain ⟨hnext, htype⟩ := use?_eq_ok hv
      refine ⟨fun x t hx => hextends x t (hnext x t hx), fun w hw => ?_⟩
      rcases mem_cons.mp hw with rfl | hw
      · exact hextends _ _ htype
      · exact hrest w hw

/-- The table gives no name another type than the given one. -/
def Within (table : TypeTable) (types : String → ScalarType) : Prop :=
  ∀ (x : String) (t : ScalarType), table[x]? = some t → types x = t

theorem Extends.within {a b : TypeTable} (h : Extends a b) : a.Within fun x => b[x]?.getD .int := by
  intro x t hx
  simp [h x t hx]

theorem use?_of_within {types : String → ScalarType} (h : table.Within types)
    (hv : types v.name = v.type) : ∃ table', table.use? v = .ok table' ∧ table'.Within types := by
  unfold use?
  split
  · refine ⟨_, rfl, fun x t hx => ?_⟩
    rw [Std.ExtTreeMap.getElem?_insert] at hx
    split at hx
    · rename_i heq
      obtain rfl := Std.LawfulEqOrd.eq_of_compare heq
      rw [hv, Option.some.inj hx]
    · exact h x t hx
  · rename_i previous hsome
    have hprevious : previous = v.type := (h v.name previous hsome).symm.trans hv
    rw [if_pos hprevious]
    exact ⟨table, rfl, h⟩

theorem foldlM_use?_of_within {types : String → ScalarType} {vs : List Variable}
    (h : table.Within types) (hvs : ∀ v ∈ vs, types v.name = v.type) :
    ∃ table', vs.foldlM use? table = .ok table' ∧ table'.Within types := by
  induction vs generalizing table with
  | nil => exact ⟨table, rfl, h⟩
  | cons v rest ih =>
    obtain ⟨next, hnext, hwithin⟩ := use?_of_within h (hvs v (by simp))
    obtain ⟨final, hfinal, hfinalWithin⟩ := ih hwithin fun w hw => hvs w (by simp [hw])
    refine ⟨final, ?_, hfinalWithin⟩
    rw [foldlM_cons, hnext]
    exact hfinal

theorem getElem?_foldl_insert (h : (params.map Variable.name).Nodup) (x : String) :
    (params.foldl (fun types p => types.insert p.name p.type) table)[x]? =
      ((params.find? fun v => v.name == x).map Variable.type).or table[x]? := by
  induction params generalizing table with
  | nil => rfl
  | cons p rest ih =>
    obtain ⟨hp, hrest⟩ := nodup_cons.mp h
    rw [foldl_cons, ih hrest, Std.ExtTreeMap.getElem?_insert]
    by_cases hx : p.name = x
    · -- No later parameter has the name.
      subst hx
      have hnone : rest.find? (fun v => v.name == p.name) = none := by
        rw [find?_eq_none]
        exact fun v hv heq => hp (eq_of_beq heq ▸ mem_map_of_mem hv)
      simp [hnone]
    · simp [hx, beq_eq_false_iff_ne.mpr hx]

theorem getElem?_foldl_insertIfNew (statics : List StaticVariable) (x : String) :
    (statics.foldl (fun types s => types.insertIfNew s.name s.type) table)[x]? =
      table[x]?.or ((statics.find? fun s => s.name == x).map StaticVariable.type) := by
  induction statics generalizing table with
  | nil => simp
  | cons s rest ih =>
    rw [foldl_cons, ih, getElem?_insertIfNew]
    by_cases hx : s.name = x
    · subst hx
      cases htable : table[s.name]? <;> simp [htable, mem_iff_isSome_getElem?]
    · simp [hx, beq_eq_false_iff_ne.mpr hx]

theorem getElem?_initial (h : (params.map Variable.name).Nodup) (statics : List StaticVariable)
    (x : String) : (initial params statics)[x]? = declaredType? params statics x := by
  rw [initial, getElem?_foldl_insertIfNew, getElem?_foldl_insert h]
  simp [declaredType?]

end TypeTable

/-! ### Instructions and functions -/

/-- What the check of an instruction asks for besides the types of names. -/
structure Surroundings.Permits (s : Surroundings) (i : Instr) : Prop where
  typeDefect?_eq : i.typeDefect? s.returns s.arity? = none
  target_defined : ∀ l, i.target? = some l → l ∈ s.labels
  noDouble : s.floatingPoint = true ∨ i.usesDouble = false

theorem Surroundings.check_eq_ok_iff {n : Nat} {i : Instr} : s.check types n i = .ok types' ↔
      i.variables.foldlM TypeTable.use? types = .ok types' ∧ s.Permits i := by
  constructor
  · intro h
    unfold check at h
    split at h
    · cases h
    rename_i hdouble
    split at h
    · cases h
    rename_i next hnext
    split at h
    · cases h
    rename_i htarget
    split at h
    · cases h
    rename_i hdefect
    cases h
    refine ⟨hnext, hdefect, fun l hl => ?_, ?_⟩
    · by_contra hnot
      simp [hl, hnot] at htarget
    · cases hf : s.floatingPoint <;> simp [hf] at hdouble ⊢
      exact hdouble
  · rintro ⟨hnext, hi⟩
    have hfeature : (!s.floatingPoint && i.usesDouble) = false := by
      rcases hi.noDouble with hdouble | hdouble <;> simp [hdouble]
    have hdefined : i.target?.filter (· ∉ s.labels) = none := by
      rw [Option.filter_eq_none_iff]
      intro l hl
      simp [hi.target_defined l hl]
    simp only [check, hfeature, hnext, hdefined, hi.typeDefect?_eq, Bool.false_eq_true, if_false]

theorem Surroundings.checkFrom_eq_ok_iff {entries : List (Nat × Instr)} :
    s.checkFrom types entries = .ok () ↔
      (∃ final, ((entries.map Prod.snd).flatMap Instr.variables).foldlM TypeTable.use? types =
        .ok final) ∧ ∀ i ∈ entries.map Prod.snd, s.Permits i := by
  induction entries generalizing types with
  | nil => simp [checkFrom, pure, Except.pure]
  | cons entry rest ih =>
    obtain ⟨n, i⟩ := entry
    rw [checkFrom, map_cons, flatMap_cons, foldlM_append, forall_mem_cons]
    cases hcheck : s.check types n i with
    | ok next =>
      obtain ⟨hnext, hi⟩ := check_eq_ok_iff.mp hcheck
      rw [hnext, eq_true hi, true_and]
      exact ih
    | error r =>
      refine ⟨nofun, fun ⟨⟨final, hfinal⟩, hi, _⟩ => ?_⟩
      cases hnext : i.variables.foldlM TypeTable.use? types with
      | error defect =>
        rw [hnext] at hfinal
        cases hfinal
      | ok next => cases hcheck.symm.trans (check_eq_ok_iff.mpr ⟨hnext, hi⟩)

namespace Program

variable {p : Program} {floatingPoint : Bool} {f : Function}

/-- What the instructions of a function are checked with. -/
def surroundings (p : Program) (floatingPoint : Bool) (f : Function) : Surroundings :=
  { function := f.name
    returns := f.returnType
    labels := (definedLabels f.body).map Prod.snd
    arity? := p.arity?
    floatingPoint := floatingPoint }

theorem firstRepeat?_params (params : List Variable) :
    firstRepeat? [] (Listing.numbered (params.map (·.name))) = none ↔
      (params.map Variable.name).Nodup := by
  simp [firstRepeat?_eq_none_iff]

theorem verifyFunction_eq_ok_iff : p.verifyFunction floatingPoint f = .ok () ↔
    (f.body.filterMap Instr.label?).Nodup ∧ (f.params.map Variable.name).Nodup ∧
      (p.surroundings floatingPoint f).checkFrom (.initial f.params p.statics) f.body.numbered =
        .ok () := by
  have hlabels : firstRepeat? [] (definedLabels f.body) = none ↔
      (f.body.filterMap Instr.label?).Nodup := by
    simp [firstRepeat?_eq_none_iff, map_snd_definedLabels]
  rw [← hlabels, ← firstRepeat?_params, verifyFunction]
  cases firstRepeat? [] (definedLabels f.body) with
  | some entry => simp
  | none =>
    cases firstRepeat? [] (Listing.numbered (f.params.map (·.name))) with
    | some entry => simp
    | none => simp [surroundings]

theorem verifyFunctions_eq_ok_iff {fs : List Function} :
    p.verifyFunctions floatingPoint fs = .ok () ↔
      ∀ f ∈ fs, p.verifyFunction floatingPoint f = .ok () := by
  induction fs with
  | nil => simp [verifyFunctions]
  | cons f rest ih =>
    rw [verifyFunctions, forall_mem_cons, ← ih]
    cases p.verifyFunction floatingPoint f <;> simp

theorem verifyFunction_eq_ok (h : p.verifyFunction floatingPoint f = .ok ()) :
    ∃ table : TypeTable, (TypeTable.initial f.params p.statics).Extends table ∧
      Accepted f.returnType p.arity? (fun x => table[x]?.getD .int) f.body ∧
      (∀ i ∈ f.body, floatingPoint = true ∨ i.usesDouble = false) ∧
      (f.params.map Variable.name).Nodup := by
  obtain ⟨hlabels, hparams, hcheck⟩ := verifyFunction_eq_ok_iff.mp h
  rw [Surroundings.checkFrom_eq_ok_iff, map_snd_numbered] at hcheck
  obtain ⟨⟨table, htable⟩, hall⟩ := hcheck
  obtain ⟨hinitial, htypes⟩ := TypeTable.foldlM_use?_eq_ok htable
  refine ⟨table, hinitial, ⟨⟨fun i hi v hv => ?_, fun i hi => (hall i hi).typeDefect?_eq, hlabels⟩,
    fun i hi l hl => ?_⟩, fun i hi => (hall i hi).noDouble, hparams⟩
  · simp [htypes v (mem_flatMap.mpr ⟨i, hi, hv⟩)]
  · rw [← map_snd_definedLabels]
    exact (hall i hi).target_defined l hl

/-- A function is accepted if its body is, its parameters and the statics have the types that the
body uses them with, and it uses no feature that is switched off. -/
theorem verifyFunction_of_accepted {types : String → ScalarType}
    (hinitial : (TypeTable.initial f.params p.statics).Within types)
    (h : Accepted f.returnType p.arity? types f.body)
    (hdouble : ∀ i ∈ f.body, floatingPoint = true ∨ i.usesDouble = false)
    (hparams : (f.params.map Variable.name).Nodup) : p.verifyFunction floatingPoint f = .ok () := by
  refine verifyFunction_eq_ok_iff.mpr ⟨h.nodup_labels, hparams, ?_⟩
  rw [Surroundings.checkFrom_eq_ok_iff, map_snd_numbered]
  refine ⟨?_, fun i hi => ⟨h.typeDefect?_eq i hi, fun l hl => ?_, hdouble i hi⟩⟩
  · obtain ⟨table, htable, -⟩ := TypeTable.foldlM_use?_of_within hinitial fun v hv => by
      obtain ⟨i, hi, hv⟩ := mem_flatMap.mp hv
      exact h.variable_type i hi v hv
    exact ⟨table, htable⟩
  · rw [surroundings, map_snd_definedLabels]
    exact h.target_defined i hi l hl

/-- Every function of an accepted program is accepted. -/
theorem accepted_of_verify {c : Config} (h : p.verify c = .ok ()) (hf : f ∈ p.functions) :
    ∃ table : TypeTable, (TypeTable.initial f.params p.statics).Extends table ∧
      Accepted f.returnType p.arity? (fun x => table[x]?.getD .int) f.body ∧
      (∀ i ∈ f.body, c.floatingPoint = true ∨ i.usesDouble = false) ∧
      (f.params.map Variable.name).Nodup := by
  unfold verify at h
  split at h
  · cases h
  exact verifyFunction_eq_ok (verifyFunctions_eq_ok_iff.mp h f hf)

end Program

end ThreeAddress
