import ThreeAddress.Proofs.Amd64.StackDiscipline

/-!
# Stack slots do not overlap

A slot is found by counting the names that have one, and names are listed again and again, in any
number of calls.  Whatever the calls are, the slots handed out lie side by side below the base of
the frame.  A name keeps the slot it once has, and the frame has room for all of them.
-/

namespace ThreeAddress

open List

namespace Allocation

variable {R : Type} {a : Allocation R} {x : String} {n : Nat}

/-- Gives stack slots in several calls, one after the other. -/
def assignAll (a : Allocation R) (calls : List (List String)) : Allocation R :=
  calls.foldl assignSlots a

theorem assignAll_eq (a : Allocation R) (calls : List (List String)) :
    a.assignAll calls = a.assignSlots calls.flatten :=
  foldl_flatten.symm

theorem slots_prefix_assignSlots (a : Allocation R) (names : List String) :
    a.slots <+: (a.assignSlots names).slots := by
  induction names generalizing a with
  | nil => exact prefix_rfl
  | cons x rest ih =>
    refine .trans ?_ (ih (a.assignSlot x))
    unfold assignSlot
    split
    · exact prefix_rfl
    · exact prefix_append _ _

/-- No name has two slots, or a register and a slot; and only listed names have one. -/
structure SlotsApart (a : Allocation R) (listed : String → Prop) : Prop where
  nodup : a.slots.Nodup
  unplaced : ∀ y ∈ a.slots, y ∉ a.registers
  listed : ∀ y ∈ a.slots, listed y

namespace SlotsApart

variable {listed : String → Prop} (h : a.SlotsApart listed)

include h

theorem assignSlot (hx : listed x) : (a.assignSlot x).SlotsApart listed := by
  unfold Allocation.assignSlot
  split
  · exact h
  · rename_i hfree
    obtain ⟨hregister, hslot⟩ : x ∉ a.registers ∧ x ∉ a.slots := by simpa using hfree
    refine ⟨nodup_append.mpr ⟨h.nodup, nodup_singleton x, ?_⟩, ?_, ?_⟩
    · rintro y hy z hz rfl
      exact hslot (mem_singleton.mp hz ▸ hy)
    all_goals
      intro y hy
      rcases mem_append.mp hy with hy | hy
    · exact h.unplaced y hy
    · exact mem_singleton.mp hy ▸ hregister
    · exact h.listed y hy
    · exact mem_singleton.mp hy ▸ hx

theorem assignSlots {names : List String} (hnames : ∀ y ∈ names, listed y) :
    (a.assignSlots names).SlotsApart listed :=
  foldlRecOn (motive := (SlotsApart · listed)) names _ h fun _ ha y hy =>
    ha.assignSlot (hnames y hy)

/-- A slot is as far from the base of the frame as its name is from the front of the list. -/
theorem slot?_eq_some_iff : a.slot? x = some n ↔ ∃ k, a.slots[k]? = some x ∧ n = 8 * (k + 1) := by
  have hindex : ∀ k, a.slots.idxOf? x = some k ↔ a.slots[k]? = some x := by
    intro k
    rw [idxOf?_eq_some_iff, getElem?_eq_some_iff]
    refine exists_congr fun hk => and_iff_left_of_imp ?_
    rintro rfl j hj heq
    exact Nat.ne_of_lt hj (h.nodup.getElem_inj_iff.mp heq)
  rw [slot?, Option.map_eq_some_iff]
  exact exists_congr fun k => and_congr (hindex k) eq_comm

/-- A slot that a name has is not moved by further calls. -/
theorem slot?_assignAll (later : List (List String)) (hx : a.slot? x = some n) :
    (a.assignAll later).slot? x = some n := by
  obtain ⟨k, hk, rfl⟩ := h.slot?_eq_some_iff.mp hx
  have hany : a.SlotsApart fun _ => True := ⟨h.nodup, h.unplaced, fun _ _ => trivial⟩
  rw [assignAll_eq]
  refine (hany.assignSlots fun _ _ => trivial).slot?_eq_some_iff.mpr ⟨k, ?_, rfl⟩
  -- The names that have slots now are the first of those that have slots later.
  obtain ⟨added, hadded⟩ := slots_prefix_assignSlots a later.flatten
  rw [← hadded, getElem?_append_left (List.getElem?_eq_some_iff.mp hk).1, hk]

end SlotsApart

/-- The slots of an allocation, after the given calls. -/
structure Tiled (registers : Std.ExtTreeMap String R) (calls : List (List String))
    (a : Allocation R) : Prop where
  /-- Registers are as they were. -/
  register? : ∀ x, a.register? x = registers[x]?
  /-- Different names have slots at different displacements. -/
  injective : ∀ x y m n, a.slot? x = some m → a.slot? y = some n →
    slotDisplacement m = slotDisplacement n → x = y
  /-- The displacements that are in use are `-8`, `-16` and so on, up to the size of all slots. -/
  displacements : ∀ d : Int, (∃ x n, a.slot? x = some n ∧ slotDisplacement n = d) ↔
    ∃ k : Nat, 8 * (k + 1) ≤ a.stackSize ∧ d = -(8 * (k + 1))
  /-- A name has a slot if and only if it was listed and has no register. -/
  isSome_slot?_iff : ∀ x, (a.slot? x).isSome ↔ (∃ names ∈ calls, x ∈ names) ∧ a.register? x = none
  /-- All listed names are kept somewhere. -/
  destination : ∀ names ∈ calls, ∀ x ∈ names, ∃ d, a.destination? x = some d

theorem SlotsApart.tiled {registers : Std.ExtTreeMap String R} {calls : List (List String)}
    (h : a.SlotsApart (∃ names ∈ calls, · ∈ names)) (hregisters : a.registers = registers)
    (hlisted : ∀ names ∈ calls, ∀ y ∈ names, y ∈ a.registers ∨ y ∈ a.slots) :
    a.Tiled registers calls := by
  have hnone : ∀ y, y ∉ a.registers ↔ a.register? y = none := fun y => by
    rw [register?, ← Option.not_isSome_iff_eq_none, ← Std.ExtTreeMap.mem_iff_isSome_getElem?]
  have hslot : ∀ y, (a.slot? y).isSome ↔ (∃ names ∈ calls, y ∈ names) ∧ a.register? y = none := by
    intro y
    rw [slot?, Option.isSome_map, isSome_idxOf?, ← hnone]
    constructor
    · exact fun hy => ⟨h.listed y hy, h.unplaced y hy⟩
    · rintro ⟨⟨names, hnames, hy⟩, hregister⟩
      exact (hlisted names hnames y hy).resolve_left hregister
  refine ⟨fun y => hregisters ▸ rfl, fun y z m n hy hz heq => ?_, fun d => ⟨?_, ?_⟩, hslot,
    fun names hnames y hy => ?_⟩
  · obtain rfl : m = n := by
      unfold slotDisplacement at heq
      omega
    exact slot?_injective hy hz
  · rintro ⟨y, n, hy, rfl⟩
    obtain ⟨k, hk, rfl⟩ := h.slot?_eq_some_iff.mp hy
    have hlt := (List.getElem?_eq_some_iff.mp hk).1
    exact ⟨k, by unfold stackSize; omega, by simp [slotDisplacement]⟩
  · rintro ⟨k, hk, rfl⟩
    have hlt : k < a.slots.length := by
      unfold stackSize at hk
      omega
    exact ⟨a.slots[k], _, h.slot?_eq_some_iff.mpr ⟨k, getElem?_eq_getElem hlt, rfl⟩,
      by simp [slotDisplacement]⟩
  · unfold destination?
    cases hr : a.register? y with
    | some r => exact ⟨_, rfl⟩
    | none =>
      obtain ⟨n, hn⟩ := Option.isSome_iff_exists.mp ((hslot y).mpr ⟨⟨names, hnames, hy⟩, hr⟩)
      exact ⟨_, by rw [hn]; rfl⟩

theorem slotsApart_assignAll (h : a.slots = []) (calls : List (List String)) :
    (a.assignAll calls).SlotsApart (∃ names ∈ calls, · ∈ names) := by
  rw [assignAll_eq]
  exact .assignSlots ⟨by simp [h], by simp [h], by simp [h]⟩
    fun y hy => mem_flatten.mp hy

theorem tiled_assignAll (h : a.slots = []) (calls : List (List String)) :
    (a.assignAll calls).Tiled a.registers calls := by
  have hapart := slotsApart_assignAll h calls
  rw [assignAll_eq] at hapart ⊢
  obtain ⟨hregisters, -, hplaced⟩ := assignSlots_cases a calls.flatten
  refine hapart.tiled hregisters fun names hnames y hy => ?_
  rw [hregisters]
  exact hplaced y (mem_flatten.mpr ⟨names, hnames, hy⟩)

end Allocation

namespace Amd64

theorem Frame.locals_ofSlots_lt (n : Nat) (saved : List Register) :
    (ofSlots n saved).locals < n + 16 := by
  unfold ofSlots roundUp16
  simp only
  omega

/-- Whatever names are given slots in whatever calls, their slots lie side by side and stay where
they are.  The frame has room for them and keeps the stack aligned, at the cost of less than sixteen
bytes. -/
theorem stackSlots_tile_frame {R : Type} (registers : Std.ExtTreeMap String R) (spilled : NameSet)
    (coalesced : Nat) (graphs : List (InterferenceGraph R)) (calls : List (List String)) :
    let a : Allocation R := .assignAll ⟨registers, spilled, [], coalesced, graphs⟩ calls
    a.Tiled registers calls ∧
      (∀ later x n, a.slot? x = some n → (a.assignAll later).slot? x = some n) ∧
      ∀ saved : List Register, a.stackSize ≤ (Frame.ofSlots a.stackSize saved).locals ∧
        (Frame.ofSlots a.stackSize saved).locals < a.stackSize + 16 ∧
        16 ∣ (Frame.ofSlots a.stackSize saved).locals + 8 * saved.length := by
  refine ⟨?_, fun later x n hx => ?_, fun saved => ⟨?_, ?_, ?_⟩⟩
  · exact Allocation.tiled_assignAll (a := ⟨registers, spilled, [], coalesced, graphs⟩) rfl calls
  · exact (Allocation.slotsApart_assignAll rfl calls).slot?_assignAll later hx
  · exact Frame.le_locals_ofSlots _ saved
  · exact Frame.locals_ofSlots_lt _ saved
  · exact Nat.dvd_of_mod_eq_zero (Frame.size_ofSlots_mod _ saved)

end Amd64

end ThreeAddress
