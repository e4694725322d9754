import ThreeAddress.Proofs.Control.Blocks

/-!
# Simulation by blocks

Code is translated instruction by instruction, every one to a block.  If every block does what its
instruction does, the translated code does what the original does, with its labels renamed.  There
may be code of its own in front of the blocks.

An observer of the translated code sees it also while it is inside a block.  What is seen is a
record that only grows, by one entry for an instruction of the original at most.  So nothing else
than before the block or after it can be seen inside.
-/

namespace ThreeAddress

open Machine List

/-- The number of entries that the end of a run adds to the record. -/
def Ending.entries {ρ : Type} : Ending ρ → Nat
  | .lost => 1
  | .returned _ | .undefined => 0

section

variable {α α' L L' σ σ' ρ C : Type}

/-- What is seen of a machine is a record, which every instruction extends by one entry at most. -/
structure Machine.Records (M : Machine α L σ ρ (List C)) : Prop where
  next : ∀ {m m' i}, M.execute m i = .next m' →
    M.seen m <+: M.seen m' ∧ (M.seen m').length ≤ (M.seen m).length + 1
  jump : ∀ {m m' i l}, M.execute m i = .jump l m' → M.seen m' = M.seen m
  stop : ∀ {m m' i ending}, M.execute m i = .stop m' ending →
    (M.seen m').length = (M.seen m).length + ending.entries

/-- A record that is the same, or has one more entry. -/
def Grows (old new : List C) : Prop := new = old ∨ ∃ c, new = old ++ [c]

/-- What an outcome adds to the record. -/
def Outcome.Recorded (seen : σ → List C) (m : σ) : Outcome L σ ρ → Prop
  | .next m' => Grows (seen m) (seen m')
  | .jump _ m' => seen m' = seen m
  | .stop m' ending => (seen m').length = (seen m).length + ending.entries

theorem Machine.records_of_recorded {M : Machine α L σ ρ (List C)}
    (h : ∀ m i, Outcome.Recorded M.seen m (M.execute m i)) : M.Records where
  next := by
    intro m m' i hnext
    have hgrows := h m i
    rw [hnext] at hgrows
    rcases hgrows with hsame | ⟨c, hmore⟩
    · rw [hsame]
      exact ⟨prefix_refl _, Nat.le_succ _⟩
    · rw [hmore]
      exact ⟨prefix_append _ _, by simp⟩
  jump := by
    intro m m' i l hjump
    have hsame := h m i
    rwa [hjump] at hsame
  stop := by
    intro m m' i ending hstop
    have hlength := h m i
    rwa [hstop] at hlength

/-- An outcome of translated code is that of the original.  What is undefined may lead to anything.
-/
def Outcome.Follows (related same : σ → σ' → Prop) (rename : L → L') :
    Outcome L σ ρ → Outcome L' σ' ρ → Prop
  | .stop _ .undefined, _ => True
  | .next m, .next m' => related m m'
  | .jump l m, .jump l' m' => l' = rename l ∧ related m m'
  | .stop m ending, .stop m' ending' => ending' = ending ∧ same m m'
  | _, _ => False

namespace Outcome.Follows

variable {related same : σ → σ' → Prop} {rename : L → L'} {m : σ} {o : Outcome L' σ' ρ}

theorem exists_next (h : Follows related same rename (.next m) o) :
    ∃ m', o = .next m' ∧ related m m' := by
  cases o with
  | next m' => exact ⟨m', rfl, h⟩
  | _ => cases h

theorem exists_jump {l : L} (h : Follows related same rename (.jump l m) o) :
    ∃ m', o = .jump (rename l) m' ∧ related m m' := by
  cases o with
  | jump l' m' =>
    obtain ⟨rfl, hm⟩ := h
    exact ⟨m', rfl, hm⟩
  | _ => cases h

theorem exists_stop {ending : Ending ρ} (hdefined : ending ≠ .undefined)
    (h : Follows related same rename (.stop m ending) o) :
    ∃ m', o = .stop m' ending ∧ same m m' := by
  cases o with
  | stop m' ending' =>
    cases ending with
    | undefined => exact absurd rfl hdefined
    | _ =>
      obtain ⟨rfl, hm⟩ := h
      exact ⟨m', rfl, hm⟩
  | _ =>
    cases ending with
    | undefined => exact absurd rfl hdefined
    | _ => cases h

end Outcome.Follows

/-! ### Records -/

theorem eq_or_eq_of_prefixed {first between last : List C} (h₁ : first <+: between)
    (h₂ : between <+: last) (hlength : last.length ≤ first.length + 1) :
    between = first ∨ between = last := by
  rcases Nat.lt_or_ge first.length between.length with hlt | hge
  · exact .inr (h₂.eq_of_length_le (by omega))
  · exact .inl (h₁.eq_of_length_le hge).symm

namespace Machine.Records

variable {M : Machine α L σ ρ (List C)} {m m' : σ} {code : List α}

theorem seen_block (h : M.Records) (hblock : M.block m code = .next m') :
    M.seen m <+: M.seen m' := by
  induction code generalizing m with
  | nil =>
    cases hblock
    exact prefix_refl _
  | cons i rest ih =>
    rw [block] at hblock
    cases hi : M.execute m i with
    | next m₁ =>
      rw [hi] at hblock
      exact (h.next hi).1.trans (ih hblock)
    | _ =>
      rw [hi] at hblock
      cases hblock

theorem seen_inside [DecidableEq L] (h : M.Records) (before after : List α)
    (hblock : M.block m code = .next m') {j : Nat} (hj : j ≤ code.length) :
    ∃ m₁, (M.step (before ++ code ++ after))^[j] ⟨before.length, m, none⟩ =
        ⟨before.length + j, m₁, none⟩ ∧ M.seen m <+: M.seen m₁ ∧ M.seen m₁ <+: M.seen m' := by
  obtain ⟨m₁, htake, hdrop⟩ := exists_block_take hblock j
  refine ⟨m₁, ?_, h.seen_block htake, h.seen_block hdrop⟩
  have hrun := iterate_step_block before (code.drop j ++ after) htake
  rwa [length_take_of_le hj, append_assoc, ← append_assoc (code.take j),
    take_append_drop, ← append_assoc] at hrun

end Machine.Records

/-! ### Labels -/

/-- The block of a label is that label, renamed, and other blocks have no labels. -/
structure KeepsLabels (flow : α → Flow L) (flow' : α' → Flow L') (rename : L → L') (i : α)
    (block : List α') : Prop where
  kept : ∀ l, flow i = .label l → ∃ i', block = [i'] ∧ flow' i' = .label (rename l)
  only : ∀ i' ∈ block, ∀ l', flow' i' = .label l' → ∃ l, flow i = .label l

variable [DecidableEq L] [DecidableEq L']

section

variable {flow : α → Flow L} {flow' : α' → Flow L'} {rename : L → L'} {code : List α}
  {front : List α'} {blocks : List (List α')}

theorem lastPosition?_append {p : α → Bool} (xs ys : List α) : lastPosition? p (xs ++ ys) =
      ((lastPosition? p ys).map (xs.length + ·)).or (lastPosition? p xs) := by
  induction xs with
  | nil => cases h : lastPosition? p ys <;> simp [lastPosition?, h]
  | cons x rest ih =>
    rw [cons_append, lastPosition?, ih]
    cases lastPosition? p ys with
    | none => rfl
    | some k =>
      simp only [Option.map_some, Option.some_or, length_cons]
      exact congrArg some (by omega)

theorem lastPosition?_flatten (hrename : Function.Injective rename) (l : L)
    (h : List.Forall₂ (KeepsLabels flow flow' rename) code blocks) :
    lastPosition? (fun i => decide (flow' i = .label (rename l))) blocks.flatten =
      (lastPosition? (fun i => decide (flow i = .label l)) code).map (blockStart blocks) := by
  induction h with
  | nil => rfl
  | @cons i block code blocks hi _ ih =>
    rw [flatten_cons, lastPosition?_append, ih, lastPosition?]
    cases lastPosition? (fun i => decide (flow i = .label l)) code with
    | some k =>
      simp only [Option.map_some, Option.some_or, blockStart_cons_succ]
    | none =>
      by_cases hl : flow i = .label l
      · obtain ⟨i', rfl, hi'⟩ := hi.kept l hl
        simp [lastPosition?, hi', hl]
      · have hnone :
            lastPosition? (fun i => decide (flow' i = .label (rename l))) block = none := by
          rw [lastPosition?_eq_none_iff]
          intro i' hmem
          refine decide_eq_false fun hi' => ?_
          obtain ⟨l₀, hl₀⟩ := hi.only i' hmem _ hi'
          obtain ⟨i₀, rfl, hi₀⟩ := hi.kept l₀ hl₀
          rw [mem_singleton.mp hmem, hi₀] at hi'
          exact hl (hrename (Flow.label.inj hi') ▸ hl₀)
        simp [hnone, hl]

theorem targetPosition_flatten (hrename : Function.Injective rename)
    (hfront : ∀ i ∈ front, ∀ l', flow' i ≠ .label l')
    (h : List.Forall₂ (KeepsLabels flow flow' rename) code blocks) (l : L) :
    targetPosition flow' (front ++ blocks.flatten) (rename l) =
      front.length + blockStart blocks (targetPosition flow code l) := by
  have hnone : lastPosition? (fun i => decide (flow' i = .label (rename l))) front = none := by
    rw [lastPosition?_eq_none_iff]
    exact fun i hi => decide_eq_false (hfront i hi _)
  rw [targetPosition, targetPosition, lastPosition?_append,
    lastPosition?_flatten hrename l h, hnone]
  cases lastPosition? (fun i => decide (flow i = .label l)) code with
  | some k => rfl
  | none =>
    rw [Option.getD_none, blockStart_of_length_le (Nat.le_of_eq h.length_eq.symm)]
    exact length_append

end

/-! ### Simulation -/

/-- Every instruction of some code is translated to a block that does what the instruction does. -/
structure BlockSimulation (M : Machine α L σ ρ (List C)) (M' : Machine α' L' σ' ρ (List C))
    (code : List α) (front : List α') (blocks : List (List α')) (rename : L → L')
    (related : σ → σ' → Prop) : Prop where
  records : M.Records
  records' : M'.Records
  length_eq : blocks.length = code.length
  seen_eq : ∀ {m m'}, related m m' → M'.seen m' = M.seen m
  leave_eq : ∀ {m m'}, related m m' → M'.leave m' = M.leave m
  target_eq : ∀ l, targetPosition M'.flow (front ++ blocks.flatten) (rename l) =
    front.length + blockStart blocks (targetPosition M.flow code l)
  follows : ∀ {k : Nat} {i b}, code[k]? = some i → blocks[k]? = some b → ∀ {m m'}, related m m' →
    Outcome.Follows related (fun m m' => M'.seen m' = M.seen m) rename (M.execute m i)
      (M'.block m' b)

namespace BlockSimulation

variable {M : Machine α L σ ρ (List C)} {M' : Machine α' L' σ' ρ (List C)} {code : List α}
  {front : List α'} {blocks : List (List α')} {rename : L → L'} {related : σ → σ' → Prop}

/-- The runs are at an instruction and at the start of its block, or both have ended. -/
def Corresponds (M : Machine α L σ ρ (List C)) (M' : Machine α' L' σ' ρ (List C)) (code : List α)
    (front : List α') (blocks : List (List α')) (related : σ → σ' → Prop) (s : State σ ρ)
    (s' : State σ' ρ) : Prop :=
  s'.ending = s.ending ∧ M'.seen s'.memory = M.seen s.memory ∧
    (s.ending = none → s.position ≤ code.length ∧
      s'.position = front.length + blockStart blocks s.position ∧ related s.memory s'.memory)

def remaining (code : List α) (s : State σ ρ) : Nat := code.length - s.position

theorem flatten_eq {k : Nat} {b : List α'} (hb : blocks[k]? = some b) : front ++ blocks.flatten =
      (front ++ (blocks.take k).flatten) ++ b ++ (blocks.drop (k + 1)).flatten := by
  have hsplit : blocks = blocks.take k ++ b :: blocks.drop (k + 1) := by
    obtain ⟨hk, rfl⟩ := List.getElem?_eq_some_iff.mp hb
    rw [getElem_cons_drop, take_append_drop]
  conv_lhs => rw [hsplit]
  simp

theorem length_front (k : Nat) :
    front.length + blockStart blocks k = (front ++ (blocks.take k).flatten).length := by
  rw [length_append, blockStart]

section

variable {k : Nat} {i : α} {b : List α'} {m m₁ : σ} {m' m₁' : σ'}

section

variable (h : BlockSimulation M M' code front blocks rename related)

include h

theorem observe_inside (first rest : List α') (hb : blocks[k]? = some (first ++ rest))
    (hm : related m m') (hfirst : M'.block m' first = .next m₁') {j : Nat} (hj : j ≤ first.length) :
    ∃ seen, M'.observe ((M'.step (front ++ blocks.flatten))^[j]
        ⟨front.length + blockStart blocks k, m', none⟩) = ⟨seen, none⟩ ∧
      M.seen m <+: seen ∧ seen <+: M'.seen m₁' := by
  obtain ⟨m₂, hrun, hbefore, hafter⟩ := h.records'.seen_inside
    (front ++ (blocks.take k).flatten) (rest ++ (blocks.drop (k + 1)).flatten) hfirst hj
  refine ⟨M'.seen m₂, ?_, h.seen_eq hm ▸ hbefore, hafter⟩
  rw [flatten_eq hb, length_front, append_assoc _ (first ++ rest), append_assoc first,
    ← append_assoc, hrun]
  rfl

theorem follows_next (hi : code[k]? = some i) (hb : blocks[k]? = some b) (hm : related m m')
    (hnext : M.execute m i = .next m₁) (hblock : M'.block m' b = .next m₁') (hm₁ : related m₁ m₁') :
    Follows (M.step code) (M'.step (front ++ blocks.flatten)) M.observe M'.observe
      (Corresponds M M' code front blocks related) (remaining code) ⟨k, m, none⟩
      ⟨front.length + blockStart blocks k, m', none⟩ := by
  have hk := (List.getElem?_eq_some_iff.mp hi).1
  have hstep : M.step code ⟨k, m, none⟩ = ⟨k + 1, m₁, none⟩ := by
    rw [step_at rfl hi, hnext]
    rfl
  have hrun : (M'.step (front ++ blocks.flatten))^[b.length]
      ⟨front.length + blockStart blocks k, m', none⟩ =
        ⟨front.length + blockStart blocks (k + 1), m₁', none⟩ := by
    rw [flatten_eq hb, blockStart_succ hb, length_front, iterate_step_block _ _ hblock,
      ← length_front, Nat.add_assoc]
  refine ⟨b.length, ?_, ?_, ?_⟩
  · rw [hstep, hrun]
    exact ⟨rfl, h.seen_eq hm₁, fun _ => ⟨hk, rfl, hm₁⟩⟩
  · intro _
    rw [hstep]
    show code.length - (k + 1) < code.length - k
    omega
  · intro j hj
    obtain ⟨seen, hobserve, hbefore, hafter⟩ := h.observe_inside b []
      (by simpa using hb) hm hblock hj
    rw [h.seen_eq hm₁] at hafter
    rw [hobserve, hstep]
    refine (eq_or_eq_of_prefixed hbefore hafter (h.records.next hnext).2).imp ?_ ?_ <;>
    · rintro rfl
      rfl

theorem follows_exit {first rest : List α'} {i' : α'} (hi : code[k]? = some i)
    (hb : blocks[k]? = some (first ++ i' :: rest)) (hm : related m m')
    (hfirst : M'.block m' first = .next m₁')
    (hcorresponds : Corresponds M M' code front blocks related
      (M.apply code ⟨k, m, none⟩ (M.execute m i))
      (M'.apply (front ++ blocks.flatten)
        ⟨front.length + blockStart blocks k + first.length, m₁', none⟩ (M'.execute m₁' i')))
    (hlength : (M'.seen m₁').length ≤ (M.seen m).length) :
    Follows (M.step code) (M'.step (front ++ blocks.flatten)) M.observe M'.observe
      (Corresponds M M' code front blocks related) (remaining code) ⟨k, m, none⟩
      ⟨front.length + blockStart blocks k, m', none⟩ := by
  have hstep : M.step code ⟨k, m, none⟩ = M.apply code ⟨k, m, none⟩ (M.execute m i) :=
    step_at rfl hi
  have hrun : (M'.step (front ++ blocks.flatten))^[first.length]
      ⟨front.length + blockStart blocks k, m', none⟩ =
        ⟨front.length + blockStart blocks k + first.length, m₁', none⟩ := by
    rw [flatten_eq hb, length_front, append_assoc _ (first ++ i' :: rest),
      append_assoc first, ← append_assoc, iterate_step_block _ _ hfirst]
  have hat : (front ++ blocks.flatten)[front.length + blockStart blocks k + first.length]? =
      some i' := by
    rw [flatten_eq hb, length_front, append_assoc, getElem?_append_right (Nat.le_add_right _ _)]
    simp
  have hexit : (M'.step (front ++ blocks.flatten))^[first.length + 1]
      ⟨front.length + blockStart blocks k, m', none⟩ = M'.apply (front ++ blocks.flatten)
        ⟨front.length + blockStart blocks k + first.length, m₁', none⟩ (M'.execute m₁' i') := by
    rw [Function.iterate_succ_apply', hrun, step_at rfl hat]
  refine ⟨first.length + 1, ?_, fun hzero => by omega, ?_⟩
  · rwa [hstep, hexit]
  · intro j hj
    rcases Nat.lt_or_ge first.length j with hlt | hle
    · -- The last step leaves the block.
      obtain rfl : j = first.length + 1 := by omega
      rw [hstep, hexit]
      refine .inr ?_
      rw [observe, observe, hcorresponds.1, hcorresponds.2.1]
    · obtain ⟨seen, hobserve, hbefore, hafter⟩ := h.observe_inside first _ hb hm hfirst hle
      rw [hobserve]
      refine .inl ?_
      have hsame := hbefore.eq_of_length_le (Nat.le_trans hafter.length_le hlength)
      rw [← hsame]
      rfl

theorem follows_end (hm : related m m') :
    Follows (M.step code) (M'.step (front ++ blocks.flatten)) M.observe M'.observe
      (Corresponds M M' code front blocks related) (remaining code) ⟨code.length, m, none⟩
      ⟨front.length + blockStart blocks code.length, m', none⟩ := by
  have hstep : M.step code ⟨code.length, m, none⟩ =
      ⟨code.length, m, some (.returned (M.leave m))⟩ :=
    step_at_end rfl (getElem?_eq_none (Nat.le_refl _))
  have hend : front.length + blockStart blocks code.length = (front ++ blocks.flatten).length := by
    rw [blockStart_of_length_le (Nat.le_of_eq h.length_eq), length_append]
  have hstep' : M'.step (front ++ blocks.flatten)
      ⟨front.length + blockStart blocks code.length, m', none⟩ =
        ⟨front.length + blockStart blocks code.length, m', some (.returned (M.leave m))⟩ := by
    rw [← h.leave_eq hm]
    exact step_at_end rfl (getElem?_eq_none (Nat.le_of_eq hend.symm))
  refine .of_step ?_ ?_ ?_
  · rw [observe, observe, h.seen_eq hm]
  · rw [hstep, hstep']
    exact ⟨rfl, h.seen_eq hm, nofun⟩
  · rw [hstep, hstep', observe, observe, h.seen_eq hm]

theorem follows_running (hk : k ≤ code.length) (hm : related m m')
    (hdefined : ¬ (M.observe (M.step code ⟨k, m, none⟩)).IsUndefined) :
    Follows (M.step code) (M'.step (front ++ blocks.flatten)) M.observe M'.observe
      (Corresponds M M' code front blocks related) (remaining code) ⟨k, m, none⟩
      ⟨front.length + blockStart blocks k, m', none⟩ := by
  rcases Nat.lt_or_ge k code.length with hlt | hge
  · have hi : code[k]? = some code[k] := getElem?_eq_getElem hlt
    have hb : blocks[k]? = some (blocks.get ⟨k, h.length_eq ▸ hlt⟩) :=
      getElem?_eq_getElem (h.length_eq ▸ hlt)
    rw [step_at rfl hi] at hdefined
    have hfollows := h.follows hi hb hm
    rcases block_cases m' (blocks.get ⟨k, h.length_eq ▸ hlt⟩) with
      ⟨m₁', hblock⟩ | ⟨first, i', rest, m₁', hsplit, hfirst, hblock, hne⟩
    · -- The whole block is run.
      rw [hblock] at hfollows
      cases hexecute : M.execute m code[k] with
      | next m₁ =>
        rw [hexecute] at hfollows
        exact h.follows_next hi hb hm hexecute hblock hfollows
      | jump l m₁ =>
        rw [hexecute] at hfollows
        cases hfollows
      | stop m₁ ending =>
        rw [hexecute] at hfollows hdefined
        cases ending with
        | undefined => exact absurd rfl hdefined
        | _ => cases hfollows
    · rw [hblock] at hfollows
      rw [hsplit] at hb
      cases hexecute : M.execute m code[k] with
      | next m₁ =>
        rw [hexecute] at hfollows
        obtain ⟨m₂, hnext, -⟩ := hfollows.exists_next
        exact absurd hnext (hne m₂)
      | jump l m₁ =>
        rw [hexecute] at hfollows
        obtain ⟨m₂, hjump, hm₂⟩ := hfollows.exists_jump
        refine h.follows_exit hi hb hm hfirst ?_ ?_
        · rw [hexecute, hjump]
          exact ⟨rfl, h.seen_eq hm₂,
            fun _ => ⟨targetPosition_le_length M.flow code l, h.target_eq l, hm₂⟩⟩
        · rw [← h.records'.jump hjump, h.seen_eq hm₂, h.records.jump hexecute]
      | stop m₁ ending =>
        rw [hexecute] at hfollows hdefined
        have hending : ending ≠ .undefined := by
          rintro rfl
          exact hdefined rfl
        obtain ⟨m₂, hstop, hm₂⟩ := hfollows.exists_stop hending
        refine h.follows_exit hi hb hm hfirst ?_ ?_
        · rw [hexecute, hstop]
          exact ⟨rfl, hm₂, nofun⟩
        · have hlength := h.records.stop hexecute
          have hlength' := h.records'.stop hstop
          rw [hm₂] at hlength'
          omega
  · obtain rfl : k = code.length := Nat.le_antisymm hk hge
    exact h.follows_end hm

end

end

/-- The translated code simulates the original. -/
theorem simulation (h : BlockSimulation M M' code front blocks rename related) :
    Simulation (M.step code) (M'.step (front ++ blocks.flatten)) M.observe M'.observe
      Observation.IsUndefined (Corresponds M M' code front blocks related) (remaining code) where
  agree := by
    rintro s s' ⟨hending, hseen, -⟩
    rw [observe, observe, hending, hseen]
  advance := by
    rintro ⟨k, m, ending⟩ ⟨k', m', ending'⟩ ⟨hending, hseen, hrunning⟩ hdefined
    obtain rfl : ending' = ending := hending
    cases ending' with
    | some ending =>
      have hstep : M.step code ⟨k, m, some ending⟩ = ⟨k, m, some ending⟩ := step_of_ending rfl
      have hstep' : M'.step (front ++ blocks.flatten) ⟨k', m', some ending⟩ =
          ⟨k', m', some ending⟩ := step_of_ending rfl
      have hobserve : M.observe ⟨k, m, some ending⟩ = M'.observe ⟨k', m', some ending⟩ := by
        rw [observe, observe, hseen]
      refine .of_step hobserve ?_ ?_
      · rw [hstep']
        exact ⟨rfl, hseen, nofun⟩
      · rw [hstep, hstep', hobserve]
    | none =>
      obtain ⟨hk, rfl, hm⟩ := hrunning rfl
      exact h.follows_running hk hm hdefined

section

variable {m : σ} {m' m₀ : σ'}

theorem corresponds_start (h : BlockSimulation M M' code front blocks rename related)
    (hm : related m m') :
    Corresponds M M' code front blocks related (.start ρ m) ⟨front.length, m', none⟩ :=
  ⟨rfl, h.seen_eq hm, fun _ => ⟨Nat.zero_le _, rfl, hm⟩⟩

theorem iterate_front (hfront : M'.block m₀ front = .next m') :
    (M'.step (front ++ blocks.flatten))^[front.length] (.start ρ m₀) =
      ⟨front.length, m', none⟩ := by
  have hrun := iterate_step_block [] blocks.flatten hfront
  simpa [State.start] using hrun

section

variable (h : BlockSimulation M M' code front blocks rename related) (hm : related m m')
  (hfront : M'.block m₀ front = .next m')

include h hm hfront

/-- The translated code goes through the blocks of the instructions that the original goes through,
in the same order. -/
theorem exists_schedule :
    ∃ time : Nat → Nat, Monotone time ∧
      ∀ n, ¬ (M.observe ((M.step code)^[n] (.start ρ m))).IsUndefined →
        Corresponds M M' code front blocks related ((M.step code)^[n] (.start ρ m))
          ((M'.step (front ++ blocks.flatten))^[time n] (.start ρ m₀)) := by
  obtain ⟨time, hmono, htime⟩ := h.simulation.exists_schedule (h.corresponds_start hm)
  refine ⟨fun n => time n + front.length, fun _ _ hle => Nat.add_le_add_right (hmono hle) _, ?_⟩
  intro n hdefined
  have hn := htime n fun j hj => not_isUndefined_of_le hj hdefined
  rwa [Function.iterate_add_apply, iterate_front hfront]

/-- The translated code behaves as the original, if the code in front of it brings about a state
that is related to the first one. -/
theorem preserves (hseen : M'.seen m₀ = M.seen m) :
    Preserves M code m M' (front ++ blocks.flatten) m₀ where
  shows := by
    rintro o ⟨n, rfl⟩ hdefined
    obtain ⟨time, -, htime⟩ := h.exists_schedule hm hfront
    exact ⟨time n, (h.simulation.agree _ _ (htime n hdefined)).symm⟩
  nothingElse := by
    rintro hdefined o ⟨n, rfl⟩
    rcases Nat.lt_or_ge n front.length with hlt | hge
    · -- The code in front adds nothing to the record.
      obtain ⟨m₁, hrun, hbefore, hafter⟩ := h.records'.seen_inside [] blocks.flatten hfront
        (Nat.le_of_lt hlt)
      simp only [nil_append, length_nil, Nat.zero_add] at hrun
      rw [h.seen_eq hm, ← hseen] at hafter
      refine ⟨0, ?_⟩
      show M.observe (.start ρ m) = M'.observe
        ((M'.step (front ++ blocks.flatten))^[n] ⟨0, m₀, none⟩)
      rw [hrun, observe, observe, ← hbefore.eq_of_length_le hafter.length_le, hseen]
      rfl
    · obtain ⟨j, rfl⟩ := Nat.exists_eq_add_of_le' hge
      rw [Function.iterate_add_apply, iterate_front hfront]
      exact h.simulation.exists_observed (h.corresponds_start hm) hdefined

end

end

end BlockSimulation

end

end ThreeAddress
