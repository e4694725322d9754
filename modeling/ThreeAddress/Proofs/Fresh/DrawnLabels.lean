import Mathlib.Data.List.Nodup
import ThreeAddress.Fresh.LabelSupply

/-!
# Labels drawn from a supply

A supply hands out labels of given names one after another.  None of them was reserved, and no two
of them are the same, since the subscripts of a name only grow.  The supply fails only if the
subscripts of some name are used up.
-/

namespace ThreeAddress.LabelSupply

variable {s s' : LabelSupply} {name : String} {names names' : List String} {l : Label}
  {ls : List Label}
variable {body : Listing Instr}

/-! ### One label -/

theorem highestOf_insert (s : LabelSupply) (name other : String) (n : Nat) :
    highestOf ⟨s.highest.insert name n⟩ other = if name = other then n else s.highestOf other := by
  unfold highestOf
  rw [Std.ExtTreeMap.getD_insert]
  simp only [Std.LawfulEqOrd.compare_eq_iff_eq]

theorem highestOf_reserve (s : LabelSupply) (l : Label) (name : String) :
    (s.reserve l).highestOf name =
      if l.name = name then max (s.highestOf l.name) l.subscript else s.highestOf name :=
  highestOf_insert s l.name name _

theorem next?_eq_some_iff : s.next? name = some (l, s') ↔ s.highestOf name < Label.maxSubscript ∧
      l = ⟨name, s.highestOf name + 1⟩ ∧
      s' = ⟨s.highest.insert name (s.highestOf name + 1)⟩ := by
  unfold next?
  split
  · rename_i hlt
    simp only [Option.some.injEq, Prod.mk.injEq, hlt, true_and]
    exact ⟨fun ⟨hl, hs⟩ => ⟨hl.symm, hs.symm⟩, fun ⟨hl, hs⟩ => ⟨hl.symm, hs.symm⟩⟩
  · rename_i hge
    simp [hge]

theorem highestOf_of_next? (h : s.next? name = some (l, s')) (other : String) :
    s'.highestOf other = s.highestOf other + if name = other then 1 else 0 := by
  obtain ⟨-, -, rfl⟩ := next?_eq_some_iff.mp h
  rw [highestOf_insert]
  split
  · rename_i heq
    rw [heq]
  · rfl

/-! ### Reserved labels -/

theorem highestOf_foldl_reserve_le (s : LabelSupply) (ls : List Label) (name : String) :
    s.highestOf name ≤ (ls.foldl reserve s).highestOf name := by
  induction ls generalizing s with
  | nil => exact Nat.le_refl _
  | cons l rest ih =>
    refine Nat.le_trans ?_ (ih (s.reserve l))
    rw [highestOf_reserve]
    split
    · rename_i heq
      rw [heq]
      exact Nat.le_max_left _ _
    · exact Nat.le_refl _

theorem le_highestOf_ofListing (hl : l ∈ body.filterMap Instr.label?) :
    l.subscript ≤ (ofListing body).highestOf l.name := by
  unfold ofListing
  generalize body.filterMap Instr.label? = labels at hl
  generalize empty = s
  induction labels generalizing s with
  | nil => cases hl
  | cons l' rest ih =>
    rcases List.mem_cons.mp hl with rfl | hl
    · refine Nat.le_trans ?_ (highestOf_foldl_reserve_le (s.reserve l) rest l.name)
      rw [highestOf_reserve, if_pos rfl]
      exact Nat.le_max_right _ _
    · exact ih hl _

theorem highestOf_ofListing_le {n : Nat}
    (h : ∀ l ∈ body.filterMap Instr.label?, l.name = name → l.subscript ≤ n) :
    (ofListing body).highestOf name ≤ n := by
  unfold ofListing
  have hempty : empty.highestOf name ≤ n := by
    simp [empty, highestOf]
  revert h hempty
  generalize body.filterMap Instr.label? = labels
  generalize empty = s
  intro h hempty
  induction labels generalizing s with
  | nil => exact hempty
  | cons l rest ih =>
    obtain ⟨hl, hrest⟩ := List.forall_mem_cons.mp h
    refine ih _ hrest ?_
    rw [highestOf_reserve]
    split
    · rename_i heq
      exact Nat.max_le.mpr ⟨heq ▸ hempty, hl heq⟩
    · exact hempty

/-! ### Several labels -/

/-- Labels of given names, in order. -/
def draw? (s : LabelSupply) : List String → Option (List Label × LabelSupply)
  | [] => some ([], s)
  | name :: names =>
    (s.next? name).bind fun (l, s') => (s'.draw? names).map fun (ls, s'') => (l :: ls, s'')

theorem draw?_cons_eq_some_iff {ls' : List Label} :
    s.draw? (name :: names) = some (ls', s') ↔ ∃ l s₁ ls, s.next? name = some (l, s₁) ∧
      s₁.draw? names = some (ls, s') ∧ ls' = l :: ls := by
  simp only [draw?, Option.bind_eq_some_iff, Option.map_eq_some_iff, Prod.exists, Prod.mk.injEq]
  constructor
  · rintro ⟨l, s₁, hnext, ls, s₂, hdraw, rfl, rfl⟩
    exact ⟨l, s₁, ls, hnext, hdraw, rfl⟩
  · rintro ⟨l, s₁, ls, hnext, hdraw, rfl⟩
    exact ⟨l, s₁, hnext, ls, s', hdraw, rfl, rfl⟩

theorem draw?_append (s : LabelSupply) (names names' : List String) :
    s.draw? (names ++ names') = (s.draw? names).bind fun (ls, s') =>
      (s'.draw? names').map fun (ls', s'') => (ls ++ ls', s'') := by
  induction names generalizing s with
  | nil => simp [draw?]
  | cons name rest ih =>
    simp only [List.cons_append, draw?]
    cases s.next? name with
    | none => rfl
    | some x =>
      simp only [Option.bind_some, ih]
      cases x.2.draw? rest with
      | none => rfl
      | some y =>
        simp only [Option.bind_some, Option.map_some, Option.map_map]
        rfl

theorem lt_of_mem_of_draw? (h : s.draw? names = some (ls, s')) (hl : l ∈ ls) :
    s.highestOf l.name < l.subscript := by
  induction names generalizing s ls with
  | nil =>
    cases h
    cases hl
  | cons name rest ih =>
    obtain ⟨l', s₁, ls₁, hnext, hdraw, rfl⟩ := draw?_cons_eq_some_iff.mp h
    rcases List.mem_cons.mp hl with rfl | hl
    · obtain ⟨-, rfl, -⟩ := next?_eq_some_iff.mp hnext
      exact Nat.lt_succ_self _
    · have hlt := ih hdraw hl
      rw [highestOf_of_next? hnext] at hlt
      omega

/-- No label is drawn twice. -/
theorem nodup_of_draw? (h : s.draw? names = some (ls, s')) : ls.Nodup := by
  induction names generalizing s ls with
  | nil =>
    cases h
    exact List.nodup_nil
  | cons name rest ih =>
    obtain ⟨l, s₁, ls₁, hnext, hdraw, rfl⟩ := draw?_cons_eq_some_iff.mp h
    refine List.nodup_cons.mpr ⟨fun hl => ?_, ih hdraw⟩
    -- The label itself is the greatest that was seen when the others are drawn.
    have hlt := lt_of_mem_of_draw? hdraw hl
    obtain ⟨-, rfl, rfl⟩ := next?_eq_some_iff.mp hnext
    rw [highestOf_insert, if_pos rfl] at hlt
    exact Nat.lt_irrefl _ hlt

theorem name_mem_of_draw? (h : s.draw? names = some (ls, s')) (hl : l ∈ ls) : l.name ∈ names := by
  induction names generalizing s ls with
  | nil =>
    cases h
    cases hl
  | cons name rest ih =>
    obtain ⟨l', s₁, ls₁, hnext, hdraw, rfl⟩ := draw?_cons_eq_some_iff.mp h
    rcases List.mem_cons.mp hl with rfl | hl
    · obtain ⟨-, rfl, -⟩ := next?_eq_some_iff.mp hnext
      exact .head _
    · exact .tail _ (ih hdraw hl)

/-- Labels can be drawn while the subscripts of their names last. -/
theorem exists_draw?
    (h : ∀ name ∈ names, s.highestOf name + names.count name ≤ Label.maxSubscript) :
    ∃ ls s', s.draw? names = some (ls, s') := by
  induction names generalizing s with
  | nil => exact ⟨[], s, rfl⟩
  | cons name rest ih =>
    have hname := h name (.head _)
    rw [List.count_cons_self] at hname
    obtain ⟨l, s₁, hnext⟩ : ∃ l s₁, s.next? name = some (l, s₁) := ⟨_, _, if_pos (by omega)⟩
    have hrest : ∀ other ∈ rest, s₁.highestOf other + rest.count other ≤ Label.maxSubscript := by
      intro other hother
      have hle := h other (.tail _ hother)
      rw [highestOf_of_next? hnext]
      rw [List.count_cons] at hle
      simp only [beq_iff_eq] at hle
      omega
    obtain ⟨ls, s', hdraw⟩ := ih hrest
    exact ⟨l :: ls, s', draw?_cons_eq_some_iff.mpr ⟨l, s₁, ls, hnext, hdraw, rfl⟩⟩

end ThreeAddress.LabelSupply
