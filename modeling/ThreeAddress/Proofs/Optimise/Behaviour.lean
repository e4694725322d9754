import ThreeAddress.Optimise.Pipeline
import ThreeAddress.Proofs.Optimise.CopyPropagation
import ThreeAddress.Proofs.Optimise.DeadStoreElimination
import ThreeAddress.Proofs.Optimise.Folding

/-!
# Correctness of the optimiser

All passes keep the behaviour of a body that is well-formed.  They also keep it well-formed, and
take no new addresses, so any number of rounds of any passes keeps its behaviour.  The set of
aliased variables is smaller in later rounds, but what can be observed of a run does not depend on
it.
-/

namespace ThreeAddress

variable {returns : Option ScalarType} {arity? : String → Option Nat}
  {types : String → ScalarType} {aliased statics : NameSet} {body result : Listing Instr}
  {visits : Nat} {e : Environment} {m : Memory}

/-! ### Passes and rounds -/

/-- What a pass relies on. -/
structure Optimisable (returns : Option ScalarType) (arity? : String → Option Nat)
    (types : String → ScalarType) (aliased : NameSet) (body : Listing Instr) : Prop where
  wellFormed : WellFormed returns arity? types body
  addresses : AddressesWithin aliased body

theorem Optimisable.sublist (h : Optimisable returns arity? types aliased body)
    (hsub : result.Sublist body) : Optimisable returns arity? types aliased result :=
  ⟨h.wellFormed.sublist hsub, fun i hi => h.addresses i (hsub.subset hi)⟩

/-- A memory in which a function may start: variables have their types, and no pointer points to
one of them. -/
structure IsInitial (types : String → ScalarType) (m : Memory) : Prop where
  types : HoldsTypes types m
  origins : ∀ x, (m.store x).origins = ∅
  escaped : m.escaped = ∅

theorem IsInitial.confined (h : IsInitial types m) (names : Set String) : Confined names m :=
  ⟨fun x => by simp [h.origins x], by simp [h.escaped]⟩

/-- A pass keeps the behaviour of a body, and leaves a body that other passes can rely on. -/
theorem Pass.run?_correct {p : Pass} (h : Optimisable returns arity? types aliased body)
    (hm : IsInitial types m) (hstatics : e.statics ⊆ {x | x ∈ aliased})
    (hrun : p.run? visits aliased body = some result) :
    Optimisable returns arity? types aliased result ∧
      Preserves e.machine body m e.machine result m := by
  cases p with
  | fold =>
    cases hrun
    exact ⟨⟨h.wellFormed.foldConstants, h.addresses.foldConstants h.wellFormed⟩,
      preserves_foldConstants h.wellFormed m⟩
  | unreachable =>
    cases hrun
    exact ⟨h.sublist (eliminateUnreachable_sublist body),
      preserves_eliminateUnreachable (runsInstr_machine e) h.wellFormed.nodup_labels m⟩
  | copies =>
    exact ⟨⟨h.wellFormed.propagateCopies hrun, h.addresses.propagateCopies h.wellFormed hrun⟩,
      preserves_propagateCopies h.wellFormed hstatics h.addresses (hm.confined _) hm.types hrun⟩
  | deadStores =>
    cases hrun
    exact ⟨h.sublist (eliminateDeadStores_sublist aliased body),
      preserves_eliminateDeadStores hstatics h.addresses (hm.confined _)⟩

theorem lastState_cons (body : Listing Instr) (state : Pass × Listing Instr)
    (later : List (Pass × Listing Instr)) :
    ((state :: later).getLast?.map Prod.snd).getD body =
      (later.getLast?.map Prod.snd).getD state.2 := by
  cases later with
  | nil => rfl
  | cons next later => simp [List.getLast?_cons]

section

variable {c : Config} {P : Listing Instr → Prop} {Q : NameSet → Listing Instr → Prop}
  (hstep : ∀ {p : Pass} {visits : Nat} {aliased : NameSet} {b b' : Listing Instr},
    Q aliased b → p.run? visits aliased b = some b' → Q aliased b')

include hstep

theorem passStates?_invariant {passes : List Pass} {states : List (Pass × Listing Instr)}
    (hbody : Q aliased body) (h : passStates? visits aliased passes body = some states) :
    Q aliased ((states.getLast?.map Prod.snd).getD body) := by
  induction passes generalizing body states with
  | nil =>
    cases h
    exact hbody
  | cons p rest ih =>
    obtain ⟨next, hnext, hrest⟩ := Option.bind_eq_some_iff.mp h
    obtain ⟨later, hlater, rfl⟩ := Option.map_eq_some_iff.mp hrest
    rw [lastState_cons]
    exact ih (hstep hbody hnext) hlater

/-- What every pass keeps within a round is kept by any number of rounds.  Each round starts from
its own set of aliased variables. -/
theorem rounds?_invariant {limit : Nat} {course : Course}
    (hstart : ∀ {b}, P b → Q (aliasedNames statics b) b)
    (hend : ∀ {aliased b}, Q aliased b → P b) (hbody : P body)
    (h : rounds? c statics limit body = some course) : P course.body := by
  induction limit generalizing body course with
  | zero =>
    cases h
    exact hbody
  | succ limit ih =>
    obtain ⟨⟨states, result⟩, hround, hrest⟩ := Option.bind_eq_some_iff.mp h
    obtain ⟨states', hstates, heq⟩ := Option.map_eq_some_iff.mp hround
    obtain ⟨rfl, rfl⟩ := Prod.mk.inj heq
    have hresult := hend (passStates?_invariant hstep (hstart hbody) hstates)
    simp only at hrest
    split at hrest
    · cases hrest
      exact hresult
    · obtain ⟨later, hlater, rfl⟩ := Option.map_eq_some_iff.mp hrest
      exact @ih _ later hresult hlater

end

theorem addressesWithin_aliasedNames (statics : NameSet) (body : Listing Instr) :
    AddressesWithin (aliasedNames statics body) body := by
  intro i hi v hv
  refine Std.ExtTreeSet.mem_union_iff.mpr (.inl ?_)
  rw [addressTaken, Std.ExtTreeSet.mem_ofList, List.contains_iff_mem]
  exact List.mem_filterMap.mpr ⟨i, hi, by simp [hv, Value.var?]⟩

theorem rounds?_correct {c : Config} {limit : Nat} {course : Course}
    (h : WellFormed returns arity? types body) (hm : IsInitial types m)
    (hstatics : e.statics ⊆ {x | x ∈ statics})
    (hcourse : rounds? c statics limit body = some course) :
    Preserves e.machine body m e.machine course.body m := by
  refine (rounds?_invariant
    (P := fun b => WellFormed returns arity? types b ∧ Preserves e.machine body m e.machine b m)
    (Q := fun aliased b => (Optimisable returns arity? types aliased b ∧
      e.statics ⊆ {x | x ∈ aliased}) ∧ Preserves e.machine body m e.machine b m) ?_ ?_ ?_
    ⟨h, .refl e.machine body m⟩ hcourse).2
  · rintro p visits aliased b b' ⟨⟨hopt, haliased⟩, hpres⟩ hrun
    obtain ⟨hopt', hpres'⟩ := Pass.run?_correct hopt hm haliased hrun
    exact ⟨⟨hopt', haliased⟩, hpres.trans hpres'⟩
  · exact fun hb => ⟨⟨⟨hb.1, addressesWithin_aliasedNames statics _⟩, fun x hx =>
      Std.ExtTreeSet.mem_union_iff.mpr (.inr (hstatics hx))⟩, hb.2⟩
  · exact fun hb => ⟨hb.1.1.wellFormed, hb.2⟩

/-! ### Functions -/

/-- The memory a function starts in, with the given values of the variables. -/
def Memory.initial (values : String → Const) : Memory := ⟨fun x => ⟨values x, ∅⟩, ∅, []⟩

theorem isInitial_initial (values : String → Const) :
    IsInitial (fun x => (values x).type) (.initial values) :=
  ⟨fun _ => rfl, fun _ => rfl, rfl⟩

/-- A function that was accepted behaves in the same way after it was optimised: for all values of
its variables, in every environment, as long as no operation is undefined, it makes the same calls
with the same arguments and the same memory that the callees see, and it ends with the same value
and the same contents of the static variables. -/
theorem Function.optimise_preserves {p : Program} {checked c : Config} {f : Function}
    {r : Optimised} (hverify : p.verify checked = .ok ()) (hf : f ∈ p.functions)
    (hr : f.optimise? p.staticNames c = some r) (e : Environment)
    (hstatics : e.statics ⊆ {x | x ∈ p.staticNames}) (values : String → Const)
    (hvalues : ∀ i ∈ f.body, ∀ v ∈ i.variables, (values v.name).type = v.type)
    (hdefined : e.machine.RunsDefined f.body (.initial values))
    (o : Observation (List Event) Result) :
    e.machine.Observable f.body (.initial values) o ↔
      e.machine.Observable r.function.body (.initial values) o := by
  obtain ⟨table, -, haccepted, -⟩ := Program.accepted_of_verify hverify hf
  have hbody : WellFormed f.returnType p.arity? (fun x => (values x).type) f.body :=
    ⟨hvalues, haccepted.typeDefect?_eq, haccepted.nodup_labels⟩
  obtain ⟨course, hcourse, rfl⟩ := Option.map_eq_some_iff.mp hr
  have hpres := rounds?_correct hbody (isInitial_initial values) hstatics hcourse
  exact hpres.observable_iff hdefined o

/-- A function with a branch that is never taken, a value that is overwritten before it is used, and
an assignment to a static variable. -/
def branchingFunction : Function where
  name := "f"
  isGlobal := true
  params := [⟨"x", .int⟩]
  returnType := some .int
  body :=
    [.copy ⟨"y", .int⟩ (.var ⟨"x", .int⟩),
      .binary ⟨"g", .int⟩ .add (.var ⟨"y", .int⟩) (.const (.ofInt .int 1)),
      .copy ⟨"y", .int⟩ (.const (.ofInt .int 2)),
      .jumpIfZero (.const (.ofInt .int 0)) ⟨"l", 0⟩,
      .ret (some (.var ⟨"x", .int⟩)),
      .label ⟨"l", 0⟩,
      .binary ⟨"y", .int⟩ .multiply (.var ⟨"y", .int⟩) (.const (.ofInt .int 3)),
      .ret (some (.var ⟨"y", .int⟩))]

def branchingProgram : Program := ⟨[branchingFunction], [⟨"g", true, .ofInt .int 0⟩]⟩

/-- An environment without callees and without memory outside the variables. -/
def Environment.isolated (statics : Set String) : Environment where
  statics := statics
  address := fun _ => 0
  owner := fun _ => none
  respond := fun _ => none
  outside := fun _ _ _ => none

/-- All but the assignment to the static variable is computed beforehand. -/
theorem branchingFunction_optimise_preserves :
    ∃ r, branchingFunction.optimise? branchingProgram.staticNames {} = some r ∧
      r.function.body =
        [.binary ⟨"g", .int⟩ .add (.var ⟨"x", .int⟩) (.const (.ofInt .int 1)),
          .ret (some (.const (.ofInt .int 6)))] ∧
      ∀ o, (Environment.isolated {"g"}).machine.Observable branchingFunction.body
          (.initial fun _ => .ofInt .int 7) o ↔
        (Environment.isolated {"g"}).machine.Observable r.function.body
          (.initial fun _ => .ofInt .int 7) o := by
  have hbody : (branchingFunction.optimise? branchingProgram.staticNames {}).map (·.function.body) =
      some [.binary ⟨"g", .int⟩ .add (.var ⟨"x", .int⟩) (.const (.ofInt .int 1)),
        .ret (some (.const (.ofInt .int 6)))] := by decide +kernel
  obtain ⟨r, hr, hresult⟩ := Option.map_eq_some_iff.mp hbody
  obtain ⟨result, hreturned⟩ : ∃ result,
      (((Environment.isolated {"g"}).machine.step branchingFunction.body)^[7]
        (.start Result (.initial fun _ => .ofInt .int 7))).ending = some (.returned result) :=
    ⟨_, rfl⟩
  have hverify : branchingProgram.verify {} = .ok () := by decide
  have hmem : branchingFunction ∈ branchingProgram.functions := by decide
  have hstatics : (Environment.isolated {"g"}).statics ⊆
    {x | x ∈ branchingProgram.staticNames} := by
    rintro x rfl
    decide
  have hvalues : ∀ i ∈ branchingFunction.body, ∀ v ∈ i.variables,
      (Const.ofInt .int 7).type = v.type := by decide
  exact ⟨r, hr, hresult, Function.optimise_preserves hverify hmem hr _ hstatics _ hvalues
    (Machine.runsDefined_of_returned hreturned)⟩

end ThreeAddress
