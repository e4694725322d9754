import ThreeAddress.Proofs.Control.Machine

/-!
# Outlines of code

Something may be known about the memory of a machine at every position of a piece of code, whatever
path led there: how deep the stack is, or which registers hold a value.  An outline says how each
instruction changes what is known.  Control comes from elsewhere at labels only, and there no more
is known than at every jump.
-/

namespace ThreeAddress

open Machine

/-! ### Code that leads from one state of knowledge to another -/

/-- Code that leads from `a` to `b`, one instruction after another. -/
inductive Leads {α A : Type} (step : A → α → A → Prop) : A → List α → A → Prop
  | nil (a : A) : Leads step a [] a
  | cons {a b c : A} {i : α} {code : List α} (hi : step a i b) (hcode : Leads step b code c) :
      Leads step a (i :: code) c

namespace Leads

variable {α β A : Type} {step : A → α → A → Prop} {step' : A → β → A → Prop} {a b c : A} {i : α}
  {first second code : List α}

theorem single (hi : step a i b) : Leads step a [i] b := .cons hi (.nil b)

theorem append (h : Leads step a first b) (h' : Leads step b second c) :
    Leads step a (first ++ second) c := by
  induction h with
  | nil a => exact h'
  | cons hi _ ih => exact .cons hi (ih h')

theorem flatten {codes : List (List α)} (h : ∀ code ∈ codes, Leads step a code a) :
    Leads step a codes.flatten a := by
  induction codes with
  | nil => exact .nil a
  | cons code rest ih =>
    obtain ⟨hcode, hrest⟩ := List.forall_mem_cons.mp h
    exact hcode.append (ih hrest)

theorem of_forall_mem (h : ∀ i ∈ code, step a i a) : Leads step a code a := by
  induction code with
  | nil => exact .nil a
  | cons i rest ih =>
    obtain ⟨hi, hrest⟩ := List.forall_mem_cons.mp h
    exact .cons hi (ih hrest)

theorem flatMap {f : α → List β} (h : Leads step a code b)
    (hf : ∀ i ∈ code, ∀ {a b}, step a i b → Leads step' a (f i) b) :
    Leads step' a (code.flatMap f) b := by
  induction h with
  | nil a => exact .nil a
  | cons hi _ ih =>
    obtain ⟨hf, hrest⟩ := List.forall_mem_cons.mp hf
    exact (hf hi).append (ih hrest)

theorem drop (h : Leads step a code c) (k : Nat) : ∃ b, Leads step b (code.drop k) c := by
  induction h generalizing k with
  | nil a => exact ⟨a, by rw [List.drop_nil]; exact .nil a⟩
  | @cons a b c i code hi hcode ih =>
    cases k with
    | zero => exact ⟨a, .cons hi hcode⟩
    | succ k => exact ih k

theorem exists_of_append (h : Leads step a (first ++ second) c) :
    ∃ b, Leads step a first b ∧ Leads step b second c := by
  induction first generalizing a with
  | nil => exact ⟨a, .nil a, h⟩
  | cons i rest ih =>
    cases h with
    | cons hi hcode =>
      obtain ⟨b, hrest, hsecond⟩ := ih hcode
      exact ⟨b, .cons hi hrest, hsecond⟩

theorem exists_of_mem (h : Leads step a code c) (hi : i ∈ code) : ∃ b b', step b i b' := by
  induction h with
  | nil => cases hi
  | cons hstep _ ih =>
    rcases List.mem_cons.mp hi with rfl | hi
    · exact ⟨_, _, hstep⟩
    · exact ih hi

end Leads

/-! ### Machines that respect an outline -/

variable {α L σ ρ τ A : Type} [DecidableEq L]

/-- What is known before an instruction, and what `step` says is known after it, holds of the
memories of a machine.  Jumps and labels know no more than `base`. -/
structure Outline (M : Machine α L σ ρ τ) (step : A → α → A → Prop) (base : A)
    (holds : A → σ → Prop) : Prop where
  next : ∀ {a b i m m'}, step a i b → holds a m → M.execute m i = .next m' → holds b m'
  jump : ∀ {a b i l m m'}, step a i b → holds a m → M.execute m i = .jump l m' → holds base m'
  label : ∀ {a b i l}, step a i b → M.flow i = .label l → step base i b

namespace Outline

variable {M M' : Machine α L σ ρ τ} {step : A → α → A → Prop} {base a : A} {holds : A → σ → Prop}
  {code : List α}
variable {m : σ}

/-- What is known at a position of code that leads to the end. -/
def Known (step : A → α → A → Prop) (base : A) (holds : A → σ → Prop) (code : List α) (k : Nat)
    (m : σ) : Prop :=
  ∃ a, Leads step a (code.drop k) base ∧ holds a m

theorem known_target (h : Outline M step base holds) (hcode : Leads step a code base)
    (hm : holds base m) (l : L) : Known step base holds code (targetPosition M.flow code l) m := by
  obtain ⟨b, hb⟩ := hcode.drop (targetPosition M.flow code l)
  refine ⟨base, ?_, hm⟩
  generalize hrest : code.drop (targetPosition M.flow code l) = rest at hb
  cases hb with
  | nil => exact .nil base
  | @cons _ b' _ i rest hi hrest' =>
    have hget : code[targetPosition M.flow code l]? = some i := by
      rw [← List.head?_drop, hrest]
      rfl
    exact .cons (h.label hi (flow_of_getElem?_targetPosition hget)) hrest'

omit [DecidableEq L] in
theorem drop_eq_cons {k : Nat} {i : α} (hi : code[k]? = some i) :
    code.drop k = i :: code.drop (k + 1) :=
  List.drop_eq_getElem?_toList_append.trans (by rw [hi]; rfl)

theorem known_step (h : Outline M step base holds) (hcode : Leads step a code base) {s : State σ ρ}
    (hs : Known step base holds code s.position s.memory)
    (hnext : (M.step code s).ending = none) :
    Known step base holds code (M.step code s).position (M.step code s).memory := by
  cases hending : s.ending with
  | some ending => rwa [step_of_ending hending]
  | none =>
    cases hi : code[s.position]? with
    | none =>
      rw [step_at_end hending hi] at hnext
      cases hnext
    | some i =>
      rw [step_at hending hi] at hnext ⊢
      obtain ⟨b, hlead, hb⟩ := hs
      rw [drop_eq_cons hi] at hlead
      cases hlead with
      | @cons _ b' _ _ _ hstep hrest =>
        cases ho : M.execute s.memory i with
        | next m' => exact ⟨b', hrest, h.next hstep hb ho⟩
        | jump l m' => exact h.known_target hcode (h.jump hstep hb ho) l
        | stop m' ending =>
          rw [ho] at hnext
          cases hnext

/-- What is known holds along every run. -/
theorem known_iterate (h : Outline M step base holds) (hcode : Leads step a code base)
    (hm : holds a m) (n : Nat) (hend : ((M.step code)^[n] (.start ρ m)).ending = none) :
    Known step base holds code ((M.step code)^[n] (.start ρ m)).position
      ((M.step code)^[n] (.start ρ m)).memory := by
  induction n with
  | zero => exact ⟨a, hcode, hm⟩
  | succ n ih =>
    rw [Function.iterate_succ_apply'] at hend ⊢
    refine h.known_step hcode (ih ?_) hend
    by_contra hne
    obtain ⟨ending, hending⟩ := Option.ne_none_iff_exists'.mp hne
    rw [step_of_ending hending, hending] at hend
    cases hend

section

variable (h : Outline M step base holds) (hcode : Leads step a code base) (hm : holds a m)
  (hexecute : ∀ {a b i m}, step a i b → holds a m → M'.execute m i = M.execute m i)
  (hflow : M'.flow = M.flow) (hleave : M'.leave = M.leave)

include h hcode hm hexecute hflow hleave

/-- Machines that agree wherever something is known run alike. -/
theorem iterate_eq (n : Nat) :
    (M'.step code)^[n] (.start ρ m) = (M.step code)^[n] (.start ρ m) := by
  induction n with
  | zero => rfl
  | succ n ih =>
    rw [Function.iterate_succ_apply', Function.iterate_succ_apply', ih]
    generalize hs : (M.step code)^[n] (.start ρ m) = s
    cases hending : s.ending with
    | some ending => rw [step_of_ending hending, step_of_ending hending]
    | none =>
      cases hi : code[s.position]? with
      | none => rw [step_at_end hending hi, step_at_end hending hi, hleave]
      | some i =>
        obtain ⟨b, hlead, hb⟩ := hs ▸ h.known_iterate hcode hm n (by rw [hs, hending])
        rw [drop_eq_cons hi] at hlead
        cases hlead with
        | cons hstep _ =>
          rw [step_at hending hi, step_at hending hi, hexecute hstep hb]
          unfold apply
          rw [hflow]

theorem preserves (hseen : M'.seen = M.seen) : Preserves M code m M' code m := by
  have hiff : ∀ o, M.Observable code m o ↔ M'.Observable code m o := by
    intro o
    unfold Observable Observes
    simp only [h.iterate_eq hcode hm hexecute hflow hleave, observe, hseen]
  exact ⟨fun ho _ => (hiff _).mp ho, fun _ _ ho => (hiff _).mpr ho⟩

end

end Outline

end ThreeAddress
