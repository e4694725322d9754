import ThreeAddress.Proofs.Registers.Separation
import ThreeAddress.Proofs.Registers.ValidColouring
import ThreeAddress.Registers.MoveCode

/-!
# Safe placements

To place the locations of a function means to give each a cell.  A placement is safe if no
instruction destroys a value that is still needed: it writes to no cell in which another location
is live after it.  A copy may write to the cell of its source.  Locations that the allocator does
not track count as live everywhere.

The allocator places locations twice.  Coalescing moves pseudo registers to others or to machine
registers, and in the end each is given a machine register or a stack slot.  Both are safe.
-/

namespace ThreeAddress

open Allocation Option List

/-! ### Merged nodes -/

namespace InterferenceGraph

variable {R : Type} [DecidableEq R] {g : InterferenceGraph R} {n : Nat} {l : Location R}
  {m : InterferenceNode R} {name : String}

theorem WellFormed.idOf?_of_isMerged_eq_false (h : g.WellFormed) (hm : g.nodes[n]? = some m)
    (hmerged : m.isMerged = false) : g.idOf? m.location = some n := by
  rw [h.idOf?_eq hm, h.representative_eq hm hmerged]

/-- A pseudo register is renamed if its node was merged, to the location of the node it was merged
into. -/
theorem mem_renames_iff :
    (name, l) ∈ g.renames ↔ ∃ (n : Nat) (m : InterferenceNode R), g.nodes[n]? = some m ∧
      m.isMerged = true ∧ m.location = .pseudo name ∧
      (g.idOf? (.pseudo name)).bind g.location? = some l := by
  unfold renames
  rw [mem_filterMap]
  constructor
  · rintro ⟨m, hmem, hm⟩
    obtain ⟨n, hn⟩ := Array.mem_iff_getElem?.mp (Array.mem_toList_iff.mp hmem)
    cases hmerged : m.isMerged with
    | false => simp [hmerged] at hm
    | true =>
      cases hlocation : m.location with
      | reg r => simp [hmerged, hlocation] at hm
      | pseudo x =>
        simp only [hmerged, hlocation] at hm
        obtain ⟨place, hplace, heq⟩ := map_eq_some_iff.mp hm
        obtain ⟨rfl, rfl⟩ := Prod.mk.inj heq
        exact ⟨n, m, hn, hmerged, hlocation, hplace⟩
  · rintro ⟨n, m, hm, hmerged, hlocation, hplace⟩
    refine ⟨m, Array.mem_toList_iff.mpr (Array.mem_of_getElem? hm), ?_⟩
    simp only [hmerged, hlocation]
    rw [hplace, map_some]

end InterferenceGraph

namespace AllocationProblem

open InterferenceGraph MoveFunction

variable {R C L K : Type} [Ord R] [Std.TransOrd R] [Std.LawfulEqOrd R] [DecidableEq R]
  [DecidableEq L] {p : AllocationProblem R C L} {c : C}
  {graphs : List (C × InterferenceGraph R)} {g : InterferenceGraph R}
variable {a : Access R L} {l : Location R}

/-- A placement of the locations with a property that never destroys a value that is needed. -/
def Safe (p : AllocationProblem R C L) (placed : Location R → Prop) (place : Location R → K) :
    Prop :=
  ∀ ⦃k : Nat⦄ ⦃a : Access R L⦄ ⦃w l : Location R⦄, p.code[k]? = some a → w ∈ a.writes →
    placed l → (p.isTracked l = true → l ∈ p.liveAfter k) → l ≠ w →
    some l ≠ a.move?.map Prod.snd → place w ≠ place l

/-- What is assumed of the register classes: a register is handed out to its own class only. -/
structure Regular (p : AllocationProblem R C L) : Prop where
  nodup : p.classes.Nodup
  classOf_colour : ∀ c ∈ p.classes, ∀ r ∈ p.colours c, p.classOf (.reg r) = some c

/-! ### What safe placements keep -/

section

variable {V V' : Type} {placed : Location R → Prop} {place : Location R → K}
  {fits : V → V' → Prop} {k : Nat} {values : Location R → V} {cells : K → V'}

/-- At a position, the values of locations and what lies in their cells fit together, for all
locations with a property whose value may still be needed. -/
def Agrees (p : AllocationProblem R C L) (placed : Location R → Prop) (place : Location R → K)
    (fits : V → V' → Prop) (k : Nat) (values : Location R → V) (cells : K → V') : Prop :=
  ∀ l, placed l → (p.isTracked l = true → l ∈ p.liveAt k) → fits (values l) (cells (place l))

omit [DecidableEq R] in
theorem Agrees.of_mem_reads (h : p.Agrees placed place fits k values cells)
    (ha : p.code[k]? = some a) (hl : l ∈ a.reads) (hplaced : placed l) :
    fits (values l) (cells (place l)) := by
  refine h l hplaced fun htracked => ?_
  rw [liveAt_of_getElem? ha, mem_liveBefore]
  exact Or.inr ⟨hl, htracked⟩

theorem Agrees.of_mem_exitLive (h : p.Agrees placed place fits p.code.length values cells) {r : R}
    (hr : r ∈ p.exitLive) (hplaced : placed (.reg r)) :
    fits (values (.reg r)) (cells (place (.reg r))) := by
  refine h _ hplaced fun htracked => ?_
  rw [liveAt_length, mem_liveAtExit]
  exact ⟨⟨r, hr, rfl⟩, htracked⟩

/-- An instruction keeps the agreement if it writes what is expected, and disturbs no location whose
cell it does not write to.  The source of a copy may share its cell with the destination. -/
theorem Agrees.step (hsafe : p.Safe placed place) (h : p.Agrees placed place fits k values cells)
    (ha : p.code[k]? = some a) {t : Nat} (ht : t ∈ nextPositions Access.flow p.code k)
    {values₁ : Location R → V} {cells₁ : K → V'}
    (hwritten : ∀ w ∈ a.writes, placed w → (p.isTracked w = true → w ∈ p.liveAfter k) →
      fits (values₁ w) (cells₁ (place w)))
    (hsource : ∀ l, some l = a.move?.map Prod.snd → l ∈ a.reads)
    (hkept : ∀ l, placed l → l ∉ a.writes → fits (values l) (cells (place l)) →
      (∀ w ∈ a.writes, place w ≠ place l) ∨ some l = a.move?.map Prod.snd →
      fits (values₁ l) (cells₁ (place l))) : p.Agrees placed place fits t values₁ cells₁ := by
  intro l hplaced hlive
  have hafter : p.isTracked l = true → l ∈ p.liveAfter k := fun htracked =>
    liveAt_subset ht l (hlive htracked)
  by_cases hl : l ∈ a.writes
  · exact hwritten l hl hplaced hafter
  by_cases hmove : some l = a.move?.map Prod.snd
  · exact hkept l hplaced hl (h.of_mem_reads ha (hsource l hmove) hplaced) (.inr hmove)
  · have hbefore : fits (values l) (cells (place l)) := by
      refine h l hplaced fun htracked => ?_
      rw [liveAt_of_getElem? ha, mem_liveBefore]
      exact .inl ⟨hafter htracked, hl⟩
    refine hkept l hplaced hl hbefore (.inl fun w hw => ?_)
    exact hsafe ha hw hplaced hafter (fun heq => hl (heq ▸ hw)) hmove

end

namespace AllSeparate

section

variable (h : p.AllSeparate graphs)

include h

theorem graph_unique (hp : p.Regular) {g' : InterferenceGraph R} (hg : (c, g) ∈ graphs)
    (hg' : (c, g') ∈ graphs) : g = g' := by
  have hnodup : (graphs.map Prod.fst).Nodup := h.classes_eq ▸ hp.nodup
  exact congrArg Prod.snd (inj_on_of_nodup_map hnodup hg hg' rfl)

theorem apart (hg : (c, g) ∈ graphs) {k : Nat} {w : Location R} (ha : p.code[k]? = some a)
    (hw : w ∈ a.writes) (hlive : p.isTracked l = true → l ∈ p.liveAfter k) (hne : l ≠ w)
    (hsource : some l ≠ a.move?.map Prod.snd) (hwc : p.classOf w = some c)
    (hlc : p.classOf l = some c) : g.Apart w l :=
  (h.separates _ hg).apart ha ⟨hw, hlive (by simp [isTracked, hlc]), hne, hsource⟩ hwc hlc

/-! ### Coalescing -/

/-- The new places of all pseudo registers that were merged. -/
def allRenames (graphs : List (C × InterferenceGraph R)) : Renaming R :=
  graphs.flatMap fun (_, g) => g.renames

theorem exists_of_mem_allRenames {name : String} (hmem : (name, l) ∈ allRenames graphs) :
    ∃ c g, (c, g) ∈ graphs ∧ (name, l) ∈ g.renames ∧ p.classOf (.pseudo name) = some c ∧
      p.classOf l = some c := by
  obtain ⟨⟨c, g⟩, hg, hrename⟩ := mem_flatMap.mp hmem
  obtain ⟨n, m, hm, -, hlocation, hplace⟩ := mem_renames_iff.mp hrename
  obtain ⟨b, -, hb⟩ := bind_eq_some_iff.mp hplace
  obtain ⟨m', hm', rfl⟩ := map_eq_some_iff.mp hb
  have hwithin := (h.separates _ hg).within
  exact ⟨c, g, hg, hrename, hlocation ▸ hwithin n m hm, hwithin b m' hm'⟩

theorem renamed_cases (l : Location R) : (renamed (allRenames graphs) l = l ∧
      ∀ name place, l = .pseudo name → (name, place) ∉ allRenames graphs) ∨
    ∃ c g name, l = .pseudo name ∧ (c, g) ∈ graphs ∧
      (name, renamed (allRenames graphs) l) ∈ g.renames ∧ p.classOf l = some c ∧
      p.classOf (renamed (allRenames graphs) l) = some c := by
  cases l with
  | reg r => exact .inl ⟨rfl, nofun⟩
  | pseudo name =>
    cases hlookup : (allRenames graphs).lookup name with
    | none =>
      refine .inl ⟨by rw [renamed, hlookup]; rfl, fun name' place hname hmem => ?_⟩
      cases hname
      simpa using lookup_eq_none_iff.mp hlookup _ hmem
    | some place =>
      have heq : renamed (allRenames graphs) (.pseudo name) = place := by
        rw [renamed, hlookup]
        rfl
      obtain ⟨before, after, hsplit, -⟩ := lookup_eq_some_iff.mp hlookup
      have hmem : (name, place) ∈ allRenames graphs := by
        rw [hsplit]
        exact mem_append_right _ mem_cons_self
      obtain ⟨c, g, hg, hrename, hname, hplace⟩ := h.exists_of_mem_allRenames hmem
      rw [heq]
      exact .inr ⟨c, g, name, rfl, hg, hrename, hname, hplace⟩

theorem classOf_renamed (l : Location R) :
    p.classOf (renamed (allRenames graphs) l) = p.classOf l := by
  rcases h.renamed_cases l with ⟨heq, -⟩ | ⟨c, g, name, -, -, -, hl, hplace⟩
  · rw [heq]
  · rw [hl, hplace]

theorem renamed_eq (hp : p.Regular) (hg : (c, g) ∈ graphs) {b : Nat} {m : InterferenceNode R}
    (hb : g.idOf? l = some b) (hm : g.nodes[b]? = some m) :
    renamed (allRenames graphs) l = m.location := by
  have hwf := (h.separates _ hg).wellFormed
  obtain ⟨n, m', hm', hlocation, hrep⟩ := exists_of_idOf?_eq_some hb
  have hclass : p.classOf l = some c := hlocation ▸ (h.separates _ hg).within n m' hm'
  rcases h.renamed_cases l with ⟨heq, hnone⟩ | ⟨c', g', name, rfl, hg', hrename, hl, -⟩
  · -- A location that is not renamed was not merged, so it stands for itself.
    have hmerged : m'.isMerged = false := by
      by_contra htrue
      rw [Bool.not_eq_false] at htrue
      cases l with
      | reg r => rw [hwf.isMerged_of_reg hm' hlocation] at htrue; cases htrue
      | pseudo name =>
        refine hnone name m.location rfl (mem_flatMap.mpr ⟨(c, g), hg, ?_⟩)
        exact mem_renames_iff.mpr ⟨n, m', hm', htrue, hlocation, by simp [hb, location?, hm]⟩
    rw [hwf.representative_eq hm' hmerged] at hrep
    subst hrep
    rw [hm] at hm'
    cases hm'
    rw [heq, hlocation]
  · obtain rfl : c' = c := some.inj (hl.symm.trans hclass)
    obtain rfl := h.graph_unique hp hg hg'
    obtain ⟨-, -, -, -, -, hplace⟩ := mem_renames_iff.mp hrename
    rw [hb, bind_some, location?, hm] at hplace
    exact (some.inj hplace).symm

/-- Coalescing is safe. -/
theorem safe_renamed (hp : p.Regular) : p.Safe (fun _ => True) (renamed (allRenames graphs)) := by
  intro k a w l ha hw _ hlive hne hsource heq
  have hclass : p.classOf w = p.classOf l := by
    rw [← h.classOf_renamed w, heq, h.classOf_renamed l]
  -- If one of the two goes elsewhere, it does so by the graph of their class.
  have hgraph : ∀ {c : C} {g : InterferenceGraph R}, (c, g) ∈ graphs → p.classOf w = some c →
      False := by
    intro c g hg hwc
    have hwf := (h.separates _ hg).wellFormed
    obtain ⟨i, j, hi, hj, hij⟩ := h.apart hg ha hw hlive hne hsource hwc (hclass ▸ hwc)
    obtain ⟨m, hm, -⟩ := hwf.isActive_of_idOf? hi
    obtain ⟨n, hn, -⟩ := hwf.isActive_of_idOf? hj
    rw [h.renamed_eq hp hg hi hm, h.renamed_eq hp hg hj hn] at heq
    obtain rfl := hwf.location_injective hm hn heq
    exact hwf.irreflexive hij
  rcases h.renamed_cases w with ⟨hwfix, -⟩ | ⟨c, g, -, -, hg, -, hwc, -⟩
  · rcases h.renamed_cases l with ⟨hlfix, -⟩ | ⟨c, g, -, -, hg, -, hlc, -⟩
    · exact hne (by rw [← hwfix, heq, hlfix])
    · exact hgraph hg (hclass.trans hlc)
  · exact hgraph hg hwc

end

end AllSeparate

end AllocationProblem

/-! ### Registers and stack slots -/

namespace Allocation

variable {R : Type} {alloc : Allocation R} {names : List String} {x y : String}

theorem assignSlot_cases (alloc : Allocation R) (x : String) :
    (alloc.assignSlot x).registers = alloc.registers ∧
      (∀ y ∈ alloc.slots, y ∈ (alloc.assignSlot x).slots) ∧
      (x ∈ alloc.registers ∨ x ∈ (alloc.assignSlot x).slots) := by
  unfold assignSlot
  split
  · rename_i hplaced
    exact ⟨rfl, fun _ => id, by simpa using hplaced⟩
  · exact ⟨rfl, fun _ => mem_append_left _, .inr (by simp)⟩

theorem assignSlots_cases (alloc : Allocation R) (names : List String) :
    (alloc.assignSlots names).registers = alloc.registers ∧
      (∀ y ∈ alloc.slots, y ∈ (alloc.assignSlots names).slots) ∧
      ∀ x ∈ names, x ∈ alloc.registers ∨ x ∈ (alloc.assignSlots names).slots := by
  induction names generalizing alloc with
  | nil => exact ⟨rfl, fun _ => id, by simp⟩
  | cons x rest ih =>
    obtain ⟨hregisters, hkept, hplaced⟩ := assignSlot_cases alloc x
    obtain ⟨hregisters', hkept', hplaced'⟩ := ih (alloc.assignSlot x)
    refine ⟨hregisters'.trans hregisters, fun y hy => hkept' y (hkept y hy), fun y hy => ?_⟩
    rcases mem_cons.mp hy with rfl | hy
    · exact hplaced.imp_right (hkept' y)
    · exact hregisters ▸ hplaced' y hy

theorem slot?_injective {n : Nat} (hx : alloc.slot? x = some n) (hy : alloc.slot? y = some n) :
    x = y := by
  obtain ⟨i, hi, rfl⟩ := map_eq_some_iff.mp hx
  obtain ⟨j, hj, hij⟩ := map_eq_some_iff.mp hy
  obtain rfl : j = i := by omega
  obtain ⟨_, rfl, -⟩ := idxOf?_eq_some_iff.mp hi
  obtain ⟨_, rfl, -⟩ := idxOf?_eq_some_iff.mp hj
  rfl

def place (alloc : Allocation R) : Location R → Destination R
  | .reg r => .reg r
  | .pseudo x => (alloc.destination? x).getD (.stack 0)

theorem place_eq_reg_iff {l : Location R} {r : R} :
    alloc.place l = .reg r ↔ l = .reg r ∨ ∃ x, l = .pseudo x ∧ alloc.register? x = some r := by
  cases l with
  | reg s => simp [place]
  | pseudo x =>
    cases hr : alloc.register? x with
    | some s => simp [place, destination?, hr]
    | none => cases hn : alloc.slot? x <;> simp [place, destination?, hr, hn]

/-- Slots start above the base of the frame, so that no slot is mistaken for that of a name
without one. -/
theorem place_eq_stack {l : Location R} {n : Nat} (h : alloc.place l = .stack n) (hn : n ≠ 0) :
    ∃ x, l = .pseudo x ∧ alloc.slot? x = some n := by
  cases l with
  | reg r => cases h
  | pseudo x =>
    cases hr : alloc.register? x with
    | some s => simp [place, destination?, hr] at h
    | none =>
      cases hslot : alloc.slot? x with
      | some k => simpa [place, destination?, hr, hslot] using h
      | none =>
        refine absurd ?_ hn
        simpa [place, destination?, hr, hslot] using h.symm

@[simp] theorem register?_assignSlots :
    (alloc.assignSlots names).register? x = alloc.register? x := by
  rw [register?, (assignSlots_cases alloc names).1, register?]

theorem place_assignSlots_ne (h : x ∈ names) :
    (alloc.assignSlots names).place (.pseudo x) ≠ .stack 0 := by
  cases hr : alloc.register? x with
  | some r => simp [place, destination?, hr]
  | none =>
    have hplaced := (assignSlots_cases alloc names).2.2 x h
    have hslot := hplaced.resolve_left fun hmem => by
      rw [register?, Std.ExtTreeMap.getElem?_eq_some_getElem hmem] at hr
      cases hr
    obtain ⟨n, hn⟩ := isSome_iff_exists.mp (isSome_idxOf?.mpr hslot)
    simp [place, destination?, hr, slot?, hn]

end Allocation

namespace AllocationProblem

open InterferenceGraph WellFormed

variable {R C L : Type} [Ord R] [Std.TransOrd R] [Std.LawfulEqOrd R] [DecidableEq R]
  [DecidableEq L] {p : AllocationProblem R C L} {c : C} {r : R} {l : Location R}
  {graphs : List (C × InterferenceGraph R)} {g : InterferenceGraph R} {alloc : Allocation R}

/-- The registers of an allocation were handed out by colouring graphs. -/
def ColouredBy (p : AllocationProblem R C L) (graphs : List (C × InterferenceGraph R))
    (alloc : Allocation R) : Prop :=
  ∀ (x : String) (r : R), alloc.register? x = some r →
    ∃ c g, (c, g) ∈ graphs ∧ (x, r) ∈ (g.colour (p.colours c)).registers

namespace AllSeparate

section

variable (h : p.AllSeparate graphs) (hp : p.Regular) (halloc : p.ColouredBy graphs alloc)

include h hp halloc

theorem exists_of_register? {x : String} (hr : alloc.register? x = some r) :
    ∃ c g n, (c, g) ∈ graphs ∧ p.classOf (.pseudo x) = some c ∧ p.classOf (.reg r) = some c ∧
      g.idOf? (.pseudo x) = some n ∧
      (assignedRegisters g (p.colours c)).getD n none = some r := by
  obtain ⟨c, g, hg, hmem⟩ := halloc x r hr
  obtain ⟨n, m, hm, hmerged, hlocation, hassigned⟩ := exists_of_mem_registers hmem
  have hsep := h.separates _ hg
  have hcolour : r ∈ p.colours c :=
    (hsep.wellFormed.isColouring_assigned _).pseudo hm (by rw [hlocation]; rfl) hassigned
  have hc : c ∈ p.classes := h.classes_eq ▸ mem_map_of_mem hg
  exact ⟨c, g, n, hg, hlocation ▸ hsep.within n m hm, hp.classOf_colour c hc r hcolour,
    hlocation ▸ hsep.wellFormed.idOf?_of_isMerged_eq_false hm hmerged, hassigned⟩

theorem classOf_of_place (hl : alloc.place l = .reg r) : p.classOf l = p.classOf (.reg r) := by
  rcases place_eq_reg_iff.mp hl with rfl | ⟨x, rfl, hr⟩
  · rfl
  · obtain ⟨c, g, n, -, hx, hreg, -⟩ := h.exists_of_register? hp halloc hr
    rw [hx, hreg]

theorem assigned_of_place (hl : alloc.place l = .reg r) (hg : (c, g) ∈ graphs) {b : Nat}
    (hb : g.idOf? l = some b) : (assignedRegisters g (p.colours c)).getD b none = some r := by
  have hsep := h.separates _ hg
  obtain ⟨n, m, hm, hlocation, hrep⟩ := exists_of_idOf?_eq_some hb
  rcases place_eq_reg_iff.mp hl with rfl | ⟨x, rfl, hr⟩
  · have hmerged := hsep.wellFormed.isMerged_of_reg hm hlocation
    rw [hsep.wellFormed.representative_eq hm hmerged] at hrep
    subst hrep
    exact (hsep.wellFormed.isColouring_assigned _).register hm hlocation
  · obtain ⟨c', g', n', hg', hx, -, hn', hassigned⟩ := h.exists_of_register? hp halloc hr
    obtain rfl : c' = c := some.inj (hx.symm.trans (hlocation ▸ hsep.within n m hm))
    obtain rfl := h.graph_unique hp hg hg'
    obtain rfl : n' = b := some.inj (hn'.symm.trans hb)
    exact hassigned

/-- Registers and stack slots are safe. -/
theorem safe_place (names : List String) :
    p.Safe (fun l => ∀ x, l = .pseudo x → x ∈ names) (alloc.assignSlots names).place := by
  intro k a w l ha hw hplaced hlive hne hsource heq
  have hcoloured : p.ColouredBy graphs (alloc.assignSlots names) := by
    intro x r hr
    rw [register?_assignSlots] at hr
    exact halloc x r hr
  cases hl : (alloc.assignSlots names).place l with
  | stack n =>
    -- Different names have different slots.
    rw [hl] at heq
    obtain ⟨y, rfl⟩ : ∃ y, l = .pseudo y := by
      cases l with
      | reg r => cases hl
      | pseudo y => exact ⟨y, rfl⟩
    have hn : n ≠ 0 := by
      rintro rfl
      exact place_assignSlots_ne (hplaced y rfl) hl
    obtain ⟨y', hy, hslot⟩ := place_eq_stack hl hn
    obtain ⟨x, rfl, hslot'⟩ := place_eq_stack heq hn
    obtain rfl := slot?_injective hslot hslot'
    exact hne hy
  | reg r =>
    rw [hl] at heq
    have hwclass := h.classOf_of_place hp hcoloured heq
    have hlclass := h.classOf_of_place hp hcoloured hl
    -- Nodes of one graph that share a register are not connected.
    have hgraph : ∀ {c : C} {g : InterferenceGraph R}, (c, g) ∈ graphs →
        p.classOf (.reg r) = some c → False := by
      intro c g hg hc
      obtain ⟨i, j, hi, hj, hij⟩ :=
        h.apart hg ha hw hlive hne hsource (hwclass.trans hc) (hlclass.trans hc)
      have hcolouring := (h.separates _ hg).wellFormed.isColouring_assigned (p.colours c)
      exact hcolouring.valid hij (h.assigned_of_place hp hcoloured heq hg hi)
        (h.assigned_of_place hp hcoloured hl hg hj)
    rcases place_eq_reg_iff.mp heq with rfl | ⟨x, rfl, hr⟩
    · rcases place_eq_reg_iff.mp hl with rfl | ⟨y, rfl, hr⟩
      · exact hne rfl
      · obtain ⟨c, g, n, hg, -, hc, -⟩ := h.exists_of_register? hp hcoloured hr
        exact hgraph hg hc
    · obtain ⟨c, g, n, hg, -, hc, -⟩ := h.exists_of_register? hp hcoloured hr
      exact hgraph hg hc

end

end AllSeparate

end AllocationProblem

end ThreeAddress
