import ThreeAddress.Fresh.NameSupply
import ThreeAddress.Proofs.Control.EditedCode
import ThreeAddress.Proofs.Semantics.Invariants
import ThreeAddress.Proofs.Verification.Accepted

/-!
# Bodies after an edit

What every pass has to keep besides the behaviour of a body, since other passes rely on it: a body
is well-formed, and takes the addresses of known variables only.
-/

namespace ThreeAddress

variable {body : Listing Instr} {edits : List (Option Instr)}
variable {aliased : NameSet}

theorem flow_eq_label_iff {i : Instr} {l : Label} : i.flow = .label l ↔ i.label? = some l := by
  cases i <;> simp [Instr.flow, Instr.label?]

/-! ### Well-formed bodies -/

theorem filterMap_reduceOption_sublist {β : Type} {g : Instr → Option β}
    (hlength : edits.length = body.length)
    (hg : ∀ (k : Nat) i i', body[k]? = some i → edits[k]? = some (some i') → g i' = g i) :
    (edits.reduceOption.filterMap g).Sublist (body.filterMap g) := by
  induction body generalizing edits with
  | nil =>
    obtain rfl := List.length_eq_zero_iff.mp hlength
    exact .refl _
  | cons i rest ih =>
    cases edits with
    | nil => simp at hlength
    | cons o edits =>
      have hrest := @ih edits (by simpa using hlength)
        fun k j j' hj hj' => hg (k + 1) j j' (by simpa using hj) (by simpa using hj')
      cases o with
      | none =>
        exact hrest.trans ((List.sublist_cons_self i rest).filterMap _)
      | some i' =>
        have hi := hg 0 i i' rfl rfl
        rw [List.reduceOption_cons_of_some, List.filterMap_cons, List.filterMap_cons, hi]
        cases g i with
        | none => exact hrest
        | some b => exact hrest.cons_cons b

theorem exists_of_mem_reduceOption (hlength : edits.length = body.length) {i' : Instr}
    (hi' : i' ∈ edits.reduceOption) :
    ∃ (k : Nat) (i : Instr), body[k]? = some i ∧ edits[k]? = some (some i') := by
  obtain ⟨n, hn⟩ := List.mem_iff_getElem?.mp hi'
  obtain ⟨k, hk, -⟩ := exists_of_getElem?_reduceOption hn
  have hlt : k < body.length := by
    rw [← hlength]
    exact (List.getElem?_eq_some_iff.mp hk).1
  exact ⟨k, body[k], List.getElem?_eq_getElem hlt, hk⟩

/-- A body stays well-formed if what replaces an instruction has its types and its label. -/
theorem WellFormed.edit {returns : Option ScalarType} {arity? : String → Option Nat}
    {types : String → ScalarType} (h : WellFormed returns arity? types body)
    (hlength : edits.length = body.length)
    (hedit : ∀ (k : Nat) i i', body[k]? = some i → edits[k]? = some (some i') →
      (∀ v ∈ i'.variables, types v.name = v.type) ∧ i'.typeDefect? returns arity? = none ∧
      i'.label? = i.label?) : WellFormed returns arity? types edits.reduceOption := by
  refine ⟨fun i' hi' => ?_, fun i' hi' => ?_, ?_⟩
  · obtain ⟨k, i, hi, hk⟩ := exists_of_mem_reduceOption hlength hi'
    exact (hedit k i i' hi hk).1
  · obtain ⟨k, i, hi, hk⟩ := exists_of_mem_reduceOption hlength hi'
    exact (hedit k i i' hi hk).2.1
  · exact h.nodup_labels.sublist (filterMap_reduceOption_sublist hlength
      fun k i i' hi hk => (hedit k i i' hi hk).2.2)

/-! ### Addresses that are taken -/

/-- Addresses are taken of variables of the set only. -/
def AddressesWithin (aliased : NameSet) (body : Listing Instr) : Prop :=
  ∀ i ∈ body, ∀ v, i.addressed? = some (.var v) → v.name ∈ aliased

theorem AddressesWithin.edit (h : AddressesWithin aliased body)
    (hlength : edits.length = body.length)
    (hedit : ∀ (k : Nat) i i', body[k]? = some i → edits[k]? = some (some i') →
      i'.addressed? = i.addressed? ∨ i'.addressed? = none) :
    AddressesWithin aliased edits.reduceOption := by
  intro i' hi' v hv
  obtain ⟨k, i, hi, hk⟩ := exists_of_mem_reduceOption hlength hi'
  rcases hedit k i i' hi hk with heq | hnone
  · exact h i (List.mem_of_getElem? hi) v (heq ▸ hv)
  · rw [hnone] at hv
    cases hv

/-- Pointers are confined throughout a run if they are at its start, and the addresses that the body
takes are of aliased variables. -/
theorem AddressesWithin.confined_stateAt {e : Environment} {m : Memory}
    (haddressed : AddressesWithin aliased body) (hstatics : e.statics ⊆ {x | x ∈ aliased})
    (hm : Confined {x | x ∈ aliased} m) (n : Nat) :
    Confined {x | x ∈ aliased} (e.machine.stateAt body m n).memory := by
  induction n with
  | zero => exact hm
  | succ n ih =>
    rw [Machine.stateAt_succ]
    generalize e.machine.stateAt body m n = s at ih
    cases hending : s.ending with
    | some ending => rwa [Machine.step_of_ending hending]
    | none =>
      cases hi : body[s.position]? with
      | none => rwa [Machine.step_at_end hending hi]
      | some i =>
        rw [Machine.step_at hending hi, Environment.machine_execute]
        cases ho : execute e s.memory i with
        | next m₁ => exact ih.execute hstatics (haddressed i (List.mem_of_getElem? hi)) ho
        | jump l m₁ =>
          obtain ⟨-, rfl⟩ := execute_jump_cases ho
          exact ih
        | stop m₁ ending =>
          obtain ⟨hstore, hescaped⟩ := execute_stop_cases ho
          exact ⟨fun x => hstore ▸ ih.origins x, hescaped ▸ ih.escaped⟩

end ThreeAddress
