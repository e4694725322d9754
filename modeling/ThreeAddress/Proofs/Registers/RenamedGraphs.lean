import ThreeAddress.Proofs.Registers.Cores
import ThreeAddress.Proofs.Registers.MoveExecution

/-!
# Interference after renaming

After a round of coalescing the pseudo registers that were merged are renamed, copies of a location
to itself are dropped, and a new interference graph is built from what is left.  This graph is part
of the one that merging has produced: what is live in the renamed code is the new name of something
that was live in the code before, so two locations are only separated if locations were that now
have their names.
-/

namespace ThreeAddress

open MoveInstr List

/-! ### Renamed instructions -/

namespace MoveInstr

variable {R : Type} {ρ : Location R → Location R}

theorem access_map (i : MoveInstr R) :
    (i.map ρ).access = ⟨i.access.flow, i.access.reads.map ρ, i.access.writes.map ρ,
      i.access.move?.map fun move => (ρ move.1, ρ move.2)⟩ := by
  cases i <;> rfl

theorem exists_of_isSelfMove_map [DecidableEq R] {i : MoveInstr R}
    (h : (i.map ρ).isSelfMove = true) : ∃ dst src, i = .mov dst src ∧ ρ dst = ρ src := by
  cases i with
  | mov dst src => exact ⟨dst, src, rfl, by simpa [map, isSelfMove] using h⟩
  | _ => cases h

end MoveInstr

namespace MoveFunction

open AllocationProblem InterferenceGraph

variable {R : Type} [DecidableEq R] {f : MoveFunction R} {renames : Renaming R} {l' : Location R}

abbrev renamingEdits (f : MoveFunction R) (renames : Renaming R) : List (Option (MoveInstr R)) :=
  replacing (MoveInstr.map (renamed renames)) MoveInstr.isSelfMove f.body

theorem code_rename (f : MoveFunction R) (renames : Renaming R) : (f.rename renames).problem.code =
      (f.renamingEdits renames).reduceOption.map MoveInstr.access := by
  rw [reduceOption_replacing]
  rfl

theorem exists_of_getElem?_code_rename {k' : Nat} {a' : Access R String}
    (h : (f.rename renames).problem.code[k']? = some a') :
    ∃ k i, f.body[k]? = some i ∧ a' = (i.map (renamed renames)).access ∧
      (f.renamingEdits renames)[k]? = some (some (i.map (renamed renames))) ∧
      newPosition (f.renamingEdits renames) k = k' := by
  rw [code_rename, getElem?_map] at h
  obtain ⟨i', hi', rfl⟩ := Option.map_eq_some_iff.mp h
  obtain ⟨k, hk, hpos⟩ := exists_of_getElem?_reduceOption hi'
  obtain ⟨i, hi, rfl⟩ := getElem?_replacing_eq_some_some hk
  exact ⟨k, i, hi, rfl, hk, hpos⟩

theorem exists_of_mem_nextPositions_rename {k m' : Nat} {i' : MoveInstr R}
    (hk : (f.renamingEdits renames)[k]? = some (some i'))
    (hm' : m' ∈ nextPositions Access.flow (f.rename renames).problem.code
      (newPosition (f.renamingEdits renames) k)) :
    ∃ m ∈ nextPositions Access.flow f.problem.code k,
      m ≤ f.body.length ∧ newPosition (f.renamingEdits renames) m = m' := by
  rw [code_rename, nextPositions_map] at hm'
  rw [problem, nextPositions_map]
  obtain ⟨i, hi, rfl⟩ := getElem?_replacing_eq_some_some hk
  rw [nextPositions_newPosition (by simp [replacing]) hi hk (by rw [access_map])] at hm'
  · obtain ⟨m, hm, rfl⟩ := mem_map.mp hm'
    exact ⟨m, hm, le_length_of_mem_nextPositions hm, rfl⟩
  · refine fun l _ => targetPosition_replacing (fun i _ => ?_) (fun i _ hi => ?_) l
    · rw [access_map]
    · obtain ⟨dst, src, rfl, -⟩ := exists_of_isSelfMove_map hi
      rfl

theorem exists_of_names_rename {a' : Access R String} (ha' : a' ∈ (f.rename renames).problem.code)
    (hl' : a'.Names l') :
    ∃ (k : Nat) (a : Access R String) (l : Location R), f.problem.code[k]? = some a ∧ a.Names l ∧
      renamed renames l = l' := by
  obtain ⟨k', hk'⟩ := mem_iff_getElem?.mp ha'
  obtain ⟨k, i, hi, rfl, -⟩ := exists_of_getElem?_code_rename hk'
  rw [access_map] at hl'
  rcases hl' with hl' | hl'
  · obtain ⟨l, hl, rfl⟩ := mem_map.mp hl'
    exact ⟨k, _, l, getElem?_problem_code hi, Or.inl hl, rfl⟩
  · obtain ⟨l, hl, rfl⟩ := mem_map.mp hl'
    exact ⟨k, _, l, getElem?_problem_code hi, Or.inr hl, rfl⟩

theorem isTracked_renamed (hclass : ∀ l, f.classOf (renamed renames l) = f.classOf l)
    (l : Location R) : f.problem.isTracked (renamed renames l) = f.problem.isTracked l :=
  congrArg Option.isSome (hclass l)

/-! ### Liveness -/

variable [Ord R] [Std.TransOrd R] [Std.LawfulEqOrd R]

section

variable (hclass : ∀ l, f.classOf (renamed renames l) = f.classOf l)

include hclass

/-- Copies that are dropped keep the names of what is live: where the destination was live after
the copy, the source is live before it.  The induction is on the number of copies between the two
positions. -/
theorem exists_mem_liveAt_of_dropped (d : Nat) {m : Nat} (hm : m + d ≤ f.body.length)
    (hpos : newPosition (f.renamingEdits renames) m = newPosition (f.renamingEdits renames) (m + d))
    {l : Location R} (hl : l ∈ f.problem.liveAt (m + d)) :
    ∃ l₁ ∈ f.problem.liveAt m, renamed renames l₁ = renamed renames l := by
  induction d generalizing l with
  | zero => exact ⟨l, hl, rfl⟩
  | succ d ih =>
    have hle := newPosition_le_newPosition (f.renamingEdits renames) (j := m) (k := m + d)
      (by omega)
    have hle' := newPosition_le_newPosition (f.renamingEdits renames) (j := m + d)
      (k := m + (d + 1)) (by omega)
    -- The last of the instructions in between was dropped, so it is a copy.
    have hlt : m + d < (f.renamingEdits renames).length := by
      simp only [replacing, length_map]
      omega
    have hdropped : (f.renamingEdits renames)[m + d]? = some none := by
      cases he : (f.renamingEdits renames)[m + d] with
      | none => rw [getElem?_eq_getElem hlt, he]
      | some i' =>
        have := newPosition_succ (by rw [getElem?_eq_getElem hlt, he])
        rw [Nat.add_assoc] at this
        omega
    obtain ⟨i, hi, hself⟩ := getElem?_replacing_eq_some_none hdropped
    obtain ⟨dst, src, rfl, hsame⟩ := exists_of_isSelfMove_map hself
    have hcode := getElem?_problem_code hi
    have hnext : m + (d + 1) ∈ nextPositions Access.flow f.problem.code (m + d) := by
      simp [nextPositions, hcode, access, Nat.add_assoc]
    have hafter : l ∈ f.problem.liveAfter (m + d) := liveAt_subset hnext l hl
    have hbefore : ∃ l₁ ∈ f.problem.liveAt (m + d), renamed renames l₁ = renamed renames l := by
      rw [liveAt_of_getElem? hcode]
      by_cases hdst : l = dst
      · subst hdst
        have htracked : f.problem.isTracked src = true := by
          rw [← isTracked_renamed hclass, ← hsame, isTracked_renamed hclass]
          exact isTracked_of_mem_liveAfter hafter
        exact ⟨src, mem_liveBefore.mpr (.inr ⟨mem_singleton_self _, htracked⟩), hsame.symm⟩
      · refine ⟨l, mem_liveBefore.mpr (.inl ⟨hafter, ?_⟩), rfl⟩
        simpa [access] using hdst
    obtain ⟨l₁, hl₁, heq⟩ := hbefore
    obtain ⟨l₂, hl₂, heq₂⟩ := ih (by omega) (by omega) hl₁
    exact ⟨l₂, hl₂, heq₂.trans heq⟩

/-- What is live after renaming is the new name of something that was live before. -/
theorem exists_of_mem_liveAfter_rename {k : Nat} {i' : MoveInstr R}
    (hk : (f.renamingEdits renames)[k]? = some (some i'))
    (hl' : l' ∈ (f.rename renames).problem.liveAfter (newPosition (f.renamingEdits renames) k)) :
    ∃ l ∈ f.problem.liveAfter k, renamed renames l = l' := by
  -- Every old position that has come to a new one, those of dropped copies included, has a live
  -- location of that name.
  let named : Nat → Location R → Prop := fun m' l' =>
    ∀ m ≤ f.body.length, newPosition (f.renamingEdits renames) m = m' →
      ∃ l ∈ f.problem.liveAt m, renamed renames l = l'
  have hexit : ∀ l ∈ (f.rename renames).problem.liveAtExit,
      named (f.rename renames).problem.code.length l := by
    intro l hl m hm hpos
    obtain ⟨⟨r, hr, rfl⟩, htracked⟩ := mem_liveAtExit.mp hl
    have hlive : .reg r ∈ f.problem.liveAt (m + (f.body.length - m)) := by
      have hlength : f.problem.code.length = f.body.length := by simp [problem]
      rw [Nat.add_sub_cancel' hm, ← hlength, liveAt_length, mem_liveAtExit]
      exact ⟨⟨r, hr, rfl⟩, htracked⟩
    refine exists_mem_liveAt_of_dropped hclass (f.body.length - m) (by omega) ?_ hlive
    rw [hpos, code_rename, length_map, Nat.add_sub_cancel' hm,
      newPosition_of_length_le (by simp [replacing])]
  have hstep : ∀ k' a', (f.rename renames).problem.code[k']? = some a' → ∀ l',
      (l' ∈ a'.reads ∧ (f.rename renames).problem.isTracked l' = true) ∨
        (l' ∉ a'.writes ∧ ∃ m' ∈ nextPositions Access.flow (f.rename renames).problem.code k',
          named m' l') → named k' l' := by
    intro k' a' ha' l' hor m hm hpos
    obtain ⟨k₀, i, hi, rfl, hkept, rfl⟩ := exists_of_getElem?_code_rename ha'
    have hle : m ≤ k₀ := by
      by_contra hlt
      have := newPosition_lt_newPosition (k := m) (by omega) hkept
      omega
    have hcode := getElem?_problem_code hi
    -- At the position of the instruction itself, the name is read there or comes from later on.
    have hlive : ∃ l ∈ f.problem.liveAt k₀, renamed renames l = l' := by
      rw [access_map] at hor
      rw [liveAt_of_getElem? hcode]
      rcases hor with ⟨hread, htracked⟩ | ⟨hwrites, m', hm', hlater⟩
      · obtain ⟨l, hl, rfl⟩ := mem_map.mp hread
        refine ⟨l, mem_liveBefore.mpr (.inr ⟨hl, ?_⟩), rfl⟩
        rw [← isTracked_renamed hclass]
        exact htracked
      · obtain ⟨m₁, hm₁, hle₁, hpos₁⟩ := exists_of_mem_nextPositions_rename hkept hm'
        obtain ⟨l, hl, rfl⟩ := hlater m₁ hle₁ hpos₁
        refine ⟨l, mem_liveBefore.mpr (.inl ⟨liveAt_subset hm₁ l hl, fun hmem => ?_⟩), rfl⟩
        exact hwrites (mem_map_of_mem hmem)
    obtain ⟨l, hl, rfl⟩ := hlive
    have hlt : k₀ < f.body.length := (List.getElem?_eq_some_iff.mp hi).1
    have hsum : m + (k₀ - m) = k₀ := by omega
    exact exists_mem_liveAt_of_dropped hclass (k₀ - m) (by omega) (by rw [hpos, hsum])
      (by rwa [hsum])
  obtain ⟨m', hm', hlive⟩ := exists_next_of_mem_liveAfter named hexit hstep hl'
  obtain ⟨m, hm, hle, hpos⟩ := exists_of_mem_nextPositions_rename hk hm'
  obtain ⟨l, hl, heq⟩ := hlive m hle hpos
  exact ⟨l, liveAt_subset hm l hl, heq⟩

/-! ### Interference -/

/-- What is separated in the renamed code was separated before, under other names. -/
theorem exists_of_clash_rename {w' : Location R} (h : (f.rename renames).problem.Clash w' l') :
    ∃ w l, f.problem.Clash w l ∧ renamed renames w = w' ∧ renamed renames l = l' := by
  obtain ⟨k', a', ha', hor⟩ := h
  obtain ⟨k, i, hi, rfl, hkept, rfl⟩ := exists_of_getElem?_code_rename ha'
  have hcode := getElem?_problem_code hi
  have hconflict : ∀ {w' l' : Location R}, Conflict (i.map (renamed renames)).access
      ((f.rename renames).problem.liveAfter (newPosition (f.renamingEdits renames) k)) w' l' →
      ∃ w l, Conflict i.access (f.problem.liveAfter k) w l ∧ renamed renames w = w' ∧
        renamed renames l = l' := by
    intro w' l' hconflict
    have hwritten := hconflict.written
    have hsource := hconflict.not_source
    rw [access_map] at hwritten hsource
    obtain ⟨w, hw, rfl⟩ := mem_map.mp hwritten
    obtain ⟨l, hl, rfl⟩ := exists_of_mem_liveAfter_rename hclass hkept hconflict.live
    refine ⟨w, l, ⟨hw, hl, fun heq => hconflict.ne (heq ▸ rfl), fun heq => hsource ?_⟩, rfl, rfl⟩
    obtain ⟨move, hmove, rfl⟩ := Option.map_eq_some_iff.mp heq.symm
    simp [hmove]
  rcases hor with hor | hor
  · obtain ⟨w, l, hwl, hw, hl⟩ := hconflict hor
    exact ⟨w, l, ⟨k, _, hcode, .inl hwl⟩, hw, hl⟩
  · obtain ⟨l, w, hwl, hl, hw⟩ := hconflict hor
    exact ⟨w, l, ⟨k, _, hcode, .inr hwl⟩, hw, hl⟩

end

/-- The graph that is built after renaming is part of the graph that merging has produced, so it has
no core if that has none. -/
theorem noCore_interference_rename {graphs : List (Nat × InterferenceGraph R)}
    (hgraphs : f.problem.AllSeparate graphs) (hregular : f.problem.Regular) {c k : Nat}
    {g : InterferenceGraph R} (hg : (c, g) ∈ graphs) (hno : g.NoCore k) :
    let p := (f.rename (AllSeparate.allRenames graphs)).problem
    (p.interference p.liveness c).NoCore k := by
  intro p
  let ρ := renamed (AllSeparate.allRenames graphs)
  have hclass : ∀ l, f.classOf (ρ l) = f.classOf l := hgraphs.classOf_renamed
  have hsep := hgraphs.separates _ hg
  have hc : c ∈ f.problem.classes := hgraphs.classes_eq ▸ mem_map_of_mem hg
  obtain ⟨hbuilt, -⟩ := interference_spec (p := p) (hregular.classOf_colour c hc)
  let g' := p.interference p.liveness c
  -- The node of a location is sent to the node of that location in the old graph.
  let φ : Nat → Nat := fun n => ((g'.location? n).bind g.idOf?).getD 0
  have hnode : ∀ {n : Nat} {m : InterferenceNode R} {l : Location R} {b : Nat},
      g'.nodes[n]? = some m → ρ l = m.location → g.idOf? l = some b →
      φ n = b ∧ ∃ m₁, g.nodes[b]? = some m₁ ∧ m₁.location = m.location ∧ m₁.isMerged = false := by
    intro n m l b hm hl hb
    obtain ⟨m₁, hm₁, hmerged⟩ := hsep.wellFormed.isActive_of_idOf? hb
    have hlocation : m₁.location = m.location :=
      (hgraphs.renamed_eq hregular hg hb hm₁).symm.trans hl
    have hid := hsep.wellFormed.idOf?_of_isMerged_eq_false hm₁ hmerged
    exact ⟨by simp [φ, location?, hm, ← hlocation, hid], m₁, hm₁, hlocation, hmerged⟩
  have hedge : ∀ {n m : Nat}, m ∈ g'.neighbours n →
      ∃ x y x₁ y₁, g'.nodes[n]? = some x ∧ g'.nodes[m]? = some y ∧ g.nodes[φ n]? = some x₁ ∧
        g.nodes[φ m]? = some y₁ ∧ x₁.location = x.location ∧ y₁.location = y.location ∧
        φ m ∈ g.neighbours (φ n) := by
    intro n m hm
    obtain ⟨y, hy, -⟩ := hbuilt.wellFormed.active hm
    obtain ⟨x, hx, -⟩ := hbuilt.wellFormed.active (hbuilt.wellFormed.symmetric hm)
    obtain ⟨w, l, hclash, hw, hl⟩ := exists_of_clash_rename hclass (hbuilt.joins hx hy hm)
    have hwc : f.classOf w = some c := by
      rw [← hclass, show ρ w = x.location from hw]
      exact (hbuilt.within n x hx).1
    have hlc : f.classOf l = some c := by
      rw [← hclass, show ρ l = y.location from hl]
      exact (hbuilt.within m y hy).1
    obtain ⟨i, a, ha, hor⟩ := hclash
    obtain ⟨b, b', hb, hb', hbb⟩ : ∃ b b', g.idOf? w = some b ∧ g.idOf? l = some b' ∧
        b' ∈ g.neighbours b := by
      rcases hor with hconflict | hconflict
      · exact hsep.apart ha hconflict hwc hlc
      · obtain ⟨b', b, hb', hb, hbb⟩ := hsep.apart ha hconflict hlc hwc
        exact ⟨b, b', hb, hb', hsep.wellFormed.symmetric hbb⟩
    obtain ⟨rfl, x₁, hx₁, hxl, -⟩ := hnode hx hw hb
    obtain ⟨rfl, y₁, hy₁, hyl, -⟩ := hnode hy hl hb'
    exact ⟨x, y, x₁, y₁, hx, hy, hx₁, hy₁, hxl, hyl, hbb⟩
  refine hno.of_embedding φ (fun n hn => ?_) (fun n m hm => ?_) (fun n m hm hhard => ?_)
    fun n m m' hm hm' heq => ?_
  · obtain ⟨⟨m, hm, -⟩, hpseudo⟩ := hn
    have hlocation := isPseudo_of_isPrecoloured_eq_false hpseudo m hm
    obtain ⟨hmc, hor⟩ := hbuilt.within n m hm
    obtain ⟨a', ha', hnames⟩ := hor.resolve_left (by simp [hlocation])
    obtain ⟨i, a, l, ha, hl, hρ⟩ := exists_of_names_rename ha' hnames
    have hlc : f.classOf l = some c := by
      rw [← hclass, show ρ l = m.location from hρ]
      exact hmc
    obtain ⟨b, hb⟩ := hsep.covers ha hl hlc
    obtain ⟨rfl, m₁, hm₁, hsame, hmerged⟩ := hnode hm hρ hb
    exact ⟨⟨m₁, hm₁, hmerged⟩, by
      simp [isPrecoloured, hm₁, InterferenceNode.isPrecoloured, hsame, hlocation]⟩
  · obtain ⟨-, -, -, -, -, -, -, -, -, -, hmem⟩ := hedge hm
    exact hmem
  · obtain ⟨-, y, -, y₁, -, hy, -, hy₁, -, hsame, -⟩ := hedge hm
    rw [isPrecoloured, hy] at hhard
    rwa [isPrecoloured, hy₁, Option.any_some, InterferenceNode.isPrecoloured, hsame]
  · obtain ⟨-, y, -, y₁, -, hy, -, hy₁, -, hsame, -⟩ := hedge hm
    obtain ⟨-, z, -, z₁, -, hz, -, hz₁, -, hsame', -⟩ := hedge hm'
    rw [heq, hz₁] at hy₁
    cases hy₁
    exact hbuilt.wellFormed.location_injective hy hz (hsame.symm.trans hsame')

end MoveFunction

end ThreeAddress
