import ThreeAddress.Proofs.Control.Machine

/-!
# Blocks of code

A block is a piece of code that is run from its first instruction on, until it is left at its end,
by a jump or because the run ends.  Where a block stands in larger code, the run of the code goes
through it.
-/

namespace ThreeAddress

open List

namespace Machine

variable {α L σ ρ τ : Type} (M : Machine α L σ ρ τ) {m m' : σ} {first second : List α}
variable {code : List α}

def block (m : σ) : List α → Outcome L σ ρ
  | [] => .next m
  | i :: rest =>
    match M.execute m i with
    | .next m' => block m' rest
    | .jump l m' => .jump l m'
    | .stop m' ending => .stop m' ending

variable {M}

@[simp] theorem block_nil : M.block m [] = .next m := rfl

theorem block_cons_of_next {i : α} (h : M.execute m i = .next m') :
    M.block m (i :: first) = M.block m' first := by
  rw [block, h]

theorem block_singleton (i : α) : M.block m [i] = M.execute m i := by
  rw [block]
  cases M.execute m i <;> rfl

theorem block_append_of_next (h : M.block m first = .next m') :
    M.block m (first ++ second) = M.block m' second := by
  induction first generalizing m with
  | nil =>
    cases h
    rfl
  | cons i rest ih =>
    rw [block] at h
    cases hi : M.execute m i with
    | next m₁ =>
      rw [hi] at h
      rw [cons_append, block_cons_of_next hi]
      exact ih h
    | _ =>
      rw [hi] at h
      cases h

theorem exists_block_take (h : M.block m first = .next m') (j : Nat) :
    ∃ m₁, M.block m (first.take j) = .next m₁ ∧ M.block m₁ (first.drop j) = .next m' := by
  induction first generalizing m j with
  | nil => exact ⟨m, by simp, by simpa using h⟩
  | cons i rest ih =>
    cases j with
    | zero => exact ⟨m, rfl, h⟩
    | succ j =>
      rw [block] at h
      cases hi : M.execute m i with
      | next m₁ =>
        rw [hi] at h
        obtain ⟨m₂, hfirst, hsecond⟩ := ih h j
        exact ⟨m₂, by rwa [take_succ_cons, block_cons_of_next hi], hsecond⟩
      | _ =>
        rw [hi] at h
        cases h

theorem block_cases (m : σ) (code : List α) : (∃ m', M.block m code = .next m') ∨
      ∃ before i after m₁, code = before ++ i :: after ∧ M.block m before = .next m₁ ∧
        M.block m code = M.execute m₁ i ∧ ∀ m', M.execute m₁ i ≠ .next m' := by
  induction code generalizing m with
  | nil => exact .inl ⟨m, rfl⟩
  | cons i rest ih =>
    cases hi : M.execute m i with
    | next m₁ =>
      rw [block_cons_of_next hi]
      rcases ih m₁ with hnext | ⟨before, j, after, m₂, rfl, hbefore, hj, hne⟩
      · exact .inl hnext
      · exact .inr ⟨i :: before, j, after, m₂, rfl, by rwa [block_cons_of_next hi], hj, hne⟩
    | _ =>
      refine .inr ⟨[], i, rest, m, rfl, rfl, by rw [block, hi], ?_⟩
      intro m' hnext
      rw [hi] at hnext
      cases hnext

/-! ### Runs through a block -/

section

variable [DecidableEq L] {l : L}

theorem iterate_step_block (before after : List α) (h : M.block m first = .next m') :
    (M.step (before ++ first ++ after))^[first.length] ⟨before.length, m, none⟩ =
      ⟨before.length + first.length, m', none⟩ := by
  induction first generalizing m before with
  | nil =>
    cases h
    rfl
  | cons i rest ih =>
    rw [block] at h
    cases hi : M.execute m i with
    | next m₁ =>
      rw [hi] at h
      have hat : (before ++ i :: rest ++ after)[before.length]? = some i := by simp
      have hcode : before ++ i :: rest ++ after = (before ++ [i]) ++ rest ++ after := by simp
      rw [length_cons, Function.iterate_succ_apply, step_at rfl hat, hi]
      show (M.step _)^[rest.length] ⟨before.length + 1, m₁, none⟩ = _
      have hrest :=
        ih (before ++ [i]) h
      rw [length_append, length_singleton] at hrest
      rw [hcode, hrest]
      congr 1
      omega
    | _ =>
      rw [hi] at h
      cases h

variable (M) in
/-- A run gets from one position of the code to another. -/
def Leads (code : List α) (k : Nat) (m : σ) (k' : Nat) (m' : σ) : Prop :=
  ∃ n, (M.step code)^[n] ⟨k, m, none⟩ = ⟨k', m', none⟩

theorem Leads.trans {k₁ k₂ k₃ : Nat} {m₁ m₂ m₃ : σ} (h : M.Leads code k₁ m₁ k₂ m₂)
    (h' : M.Leads code k₂ m₂ k₃ m₃) : M.Leads code k₁ m₁ k₃ m₃ := by
  obtain ⟨n, hn⟩ := h
  obtain ⟨n', hn'⟩ := h'
  exact ⟨n' + n, by rw [Function.iterate_add_apply, hn, hn']⟩

/-- A run goes through a block, wherever it stands. -/
theorem leads_block {k k' : Nat} (before after : List α) (h : M.block m first = .next m')
    (hcode : code = before ++ first ++ after) (hk : k = before.length)
    (hk' : k' = before.length + first.length) : M.Leads code k m k' m' := by
  subst hcode hk hk'
  exact ⟨first.length, iterate_step_block before after h⟩

theorem leads_jump {k : Nat} {i : α} (hi : code[k]? = some i) (h : M.execute m i = .jump l m') :
    M.Leads code k m (targetPosition M.flow code l) m' := by
  refine ⟨1, ?_⟩
  show M.step code ⟨k, m, none⟩ = _
  rw [step_at rfl hi, h]
  rfl

/-! ### Forks

A fork tests a condition and jumps over its first part to the second, or goes through the first part
and jumps over the second. -/

def fork (test : List α) (branch : α) (first : List α) (exit entry : α) (second : List α)
    (last : α) : List α :=
  test ++ branch :: first ++ exit :: entry :: second ++ [last]

section

variable {test : List α} {branch exit entry last : α} {target done : L} {m₁ : σ}

/-- A fork whose branch is not taken goes through its first part. -/
theorem leads_fork_first (htest : M.block m test = .next m₁)
    (hbranch : M.execute m₁ branch = .next m₁) (hfirst : M.block m₁ first = .next m')
    (hexit : M.execute m' exit = .jump done m') (hlast : M.flow last = .label done) :
    M.Leads (fork test branch first exit entry second last) 0 m
      (fork test branch first exit entry second last).length m' := by
  have hblock : M.block m (test ++ branch :: first) = .next m' := by
    rw [block_append_of_next htest, block_cons_of_next hbranch, hfirst]
  have hstart : M.Leads (fork test branch first exit entry second last) 0 m
      (test ++ branch :: first).length m' :=
    leads_block [] (exit :: entry :: second ++ [last]) hblock (by simp [fork]) rfl (by simp)
  have hjump : M.Leads (fork test branch first exit entry second last)
      (test ++ branch :: first).length m' _ m' := leads_jump (by simp [fork]) hexit
  -- The last instruction of the code is the last definition of its label.
  have htarget : targetPosition M.flow (fork test branch first exit entry second last) done =
      (test ++ branch :: first ++ exit :: entry :: second).length := by
    refine targetPosition_of_last (by simp [fork]) hlast fun j b hj hb => ?_
    have hlength := (List.getElem?_eq_some_iff.mp hb).1
    simp only [fork, length_append, length_cons, length_nil] at hj hlength
    omega
  rw [htarget] at hjump
  have hend : M.block m' [last] = .next m' := by
    rw [block_singleton, M.execute_label hlast]
  refine hstart.trans (hjump.trans ?_)
  exact leads_block (test ++ branch :: first ++ exit :: entry :: second) [] hend
    (by simp [fork]) rfl (by simp [fork]; omega)

/-- A fork whose branch is taken goes through its second part. -/
theorem leads_fork_second (htest : M.block m test = .next m₁)
    (hbranch : M.execute m₁ branch = .jump target m₁) (hblock : M.block m₁ second = .next m')
    (hentry : M.flow entry = .label target) (hlast : M.flow last = .label done)
    (hne : target ≠ done) (hsecond : ∀ i ∈ second, M.flow i ≠ .label target) :
    M.Leads (fork test branch first exit entry second last) 0 m
      (fork test branch first exit entry second last).length m' := by
  have hstart : M.Leads (fork test branch first exit entry second last) 0 m test.length m₁ :=
    leads_block [] (branch :: first ++ exit :: entry :: second ++ [last]) htest (by simp [fork]) rfl
      (by simp)
  have hjump : M.Leads (fork test branch first exit entry second last) test.length m₁ _ m₁ :=
    leads_jump (by simp [fork]) hbranch
  have htarget : targetPosition M.flow (fork test branch first exit entry second last) target =
      (test ++ branch :: first ++ [exit]).length := by
    refine targetPosition_of_last (by simp [fork]) hentry fun j b hj hb => ?_
    have hcode : fork test branch first exit entry second last =
        (test ++ branch :: first ++ [exit, entry]) ++ (second ++ [last]) := by
      simp [fork]
    have hle : (test ++ branch :: first ++ [exit, entry]).length ≤ j := by
      simp only [length_append, length_cons, length_nil] at hj ⊢
      omega
    rw [hcode, getElem?_append_right hle] at hb
    rcases mem_append.mp (mem_of_getElem? hb) with hmem | hmem
    · exact hsecond b hmem
    · rw [mem_singleton.mp hmem, hlast]
      intro heq
      exact hne (Flow.label.inj heq).symm
  rw [htarget] at hjump
  refine hstart.trans (hjump.trans ?_)
  have hrest : M.block m₁ (entry :: second ++ [last]) = .next m' := by
    rw [cons_append, block_cons_of_next (M.execute_label hentry), block_append_of_next hblock,
      block_singleton, M.execute_label hlast]
  exact leads_block (test ++ branch :: first ++ [exit]) [] hrest (by simp [fork]) rfl
    (by simp [fork]; omega)

end

end

end Machine

end ThreeAddress
