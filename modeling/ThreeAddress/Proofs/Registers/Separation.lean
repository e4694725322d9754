import ThreeAddress.Proofs.Registers.GraphOperations
import ThreeAddress.Proofs.Registers.LiveLocations
import ThreeAddress.Registers.Allocation

/-!
# What interference graphs keep apart

The graph of a register class keeps every location that an instruction writes apart from all others
of the class that are live after it.  Only the source of a copy is not kept apart from its
destination.  Merging along copies keeps all of this.  The graph that is built has no other edges.
-/

namespace ThreeAddress

open List

namespace InterferenceGraph

variable {R β : Type} [DecidableEq R] {P : Location R → Prop}
variable {l : Location R}

theorem foldl_extends (step : InterferenceGraph R → β → InterferenceGraph R)
    (good : InterferenceGraph R → Prop) (added : β → InterferenceGraph R → Prop) {bs : List β}
    (hadded : ∀ b g g', Extends g g' → added b g → added b g')
    (hstep : ∀ b ∈ bs, ∀ g, good g → good (step g b) ∧ Extends g (step g b) ∧ added b (step g b))
    {g : InterferenceGraph R} (hg : good g) :
    good (bs.foldl step g) ∧ Extends g (bs.foldl step g) ∧ ∀ b ∈ bs, added b (bs.foldl step g) := by
  induction bs generalizing g with
  | nil => exact ⟨hg, .refl g, by simp⟩
  | cons b rest ih =>
    obtain ⟨hgood, hextends, hb⟩ := hstep b mem_cons_self g hg
    obtain ⟨hgood', hextends', hrest⟩ :=
      ih (fun b' hb' => hstep b' (mem_cons_of_mem _ hb')) hgood
    refine ⟨hgood', hextends.trans hextends', fun b' hb' => ?_⟩
    rcases mem_cons.mp hb' with rfl | hb'
    · exact hadded b' _ _ hextends' hb
    · exact hrest b' hb'

/-- A graph of locations with a property, none of which was merged.  Its edges join locations that
are related. -/
structure Built (P : Location R → Prop) (E : Location R → Location R → Prop)
    (g : InterferenceGraph R) : Prop where
  wellFormed : g.WellFormed
  within : g.Within P
  isActive : ∀ {a : Nat} {m : InterferenceNode R}, g.nodes[a]? = some m → m.isMerged = false
  joins : ∀ {a b : Nat} {m n : InterferenceNode R}, g.nodes[a]? = some m → g.nodes[b]? = some n →
    b ∈ g.neighbours a → E m.location n.location

namespace Built

variable {E : Location R → Location R → Prop} {g g' : InterferenceGraph R}

omit [DecidableEq R] in
theorem empty (name : String) : Built P E (.empty name) := by
  have hnone : ∀ {a : Nat} {m : InterferenceNode R},
      (InterferenceGraph.empty name : InterferenceGraph R).nodes[a]? ≠ some m := by
    simp [InterferenceGraph.empty]
  have hneighbours : ∀ {a b : Nat},
      b ∉ (InterferenceGraph.empty name : InterferenceGraph R).neighbours a := by
    intro a b hb
    obtain ⟨m, hm, -⟩ := mem_neighbours.mp hb
    exact hnone hm
  exact ⟨⟨⟨fun hm => absurd hm hnone, fun hb => absurd hb hneighbours, hneighbours,
    fun hb => absurd hb hneighbours, fun hm => absurd hm hnone, fun hm => absurd hm hnone⟩,
    fun hm => absurd hm hnone⟩, fun _ _ hm => absurd hm hnone, fun hm => absurd hm hnone,
    fun hm => absurd hm hnone⟩

omit [DecidableEq R] in
theorem of_sameShape (h : Built P E g) (hshape : SameShape g g') (hwf : g'.WellFormed)
    (hjoins : ∀ {a b : Nat} {m n : InterferenceNode R}, g.nodes[a]? = some m →
      g.nodes[b]? = some n → b ∈ g'.neighbours a → E m.location n.location) : Built P E g' := by
  refine ⟨hwf, hshape.within h.within, fun hm => ?_, fun hm hn hb => ?_⟩
  · obtain ⟨m, hm', -, hmerged, -⟩ := hshape.exists_node hm
    exact hmerged ▸ h.isActive hm'
  · obtain ⟨m, hm', hlm, -⟩ := hshape.exists_node hm
    obtain ⟨n, hn', hln, -⟩ := hshape.exists_node hn
    exact hlm ▸ hln ▸ hjoins hm' hn' hb

theorem add (h : Built P E g) (hl : P l) : Built P E (g.add l).2 := by
  cases hid : g.idOf? l with
  | some b =>
    rw [add_of_idOf?_eq_some hid]
    exact h
  | none =>
    refine ⟨h.wellFormed.add l, h.within.add hl, fun {a m} hm => ?_, fun {a b m n} hm hn hb => ?_⟩
    · rcases node_add_cases hm with ⟨-, rfl⟩ | hm
      · rfl
      · exact h.isActive hm
    · -- The new node has no neighbours, so both ends of the edge are old.
      rw [add_of_idOf?_eq_none hid] at hm hn hb
      rw [mem_neighbours_push rfl] at hb
      have ha : a ≠ g.nodes.size := Nat.ne_of_lt (lt_size_of_mem_neighbours hb)
      have hb' : b ≠ g.nodes.size := Nat.ne_of_lt (h.wellFormed.active hb).lt_size
      rw [Array.getElem?_push, if_neg ha] at hm
      rw [Array.getElem?_push, if_neg hb'] at hn
      exact h.joins hm hn hb

theorem location_of_idOf? (h : Built P E g) {a : Nat} (hl : g.idOf? l = some a) :
    ∃ m, g.nodes[a]? = some m ∧ m.location = l := by
  obtain ⟨i, m, hm, rfl, rfl⟩ := exists_of_idOf?_eq_some hl
  rw [h.wellFormed.representative_eq hm (h.isActive hm)]
  exact ⟨m, hm, rfl⟩

theorem idOf?_ne (h : Built P E g) {k : Location R} {a b : Nat} (hl : g.idOf? l = some a)
    (hk : g.idOf? k = some b) (hne : l ≠ k) : a ≠ b := by
  rintro rfl
  obtain ⟨m, hm, rfl⟩ := h.location_of_idOf? hl
  obtain ⟨n, hn, rfl⟩ := h.location_of_idOf? hk
  rw [hm] at hn
  cases hn
  exact hne rfl

end Built

/-! ### The steps in which a graph is built -/

def countUse (g : InterferenceGraph R) (l : Location R) : InterferenceGraph R :=
  (g.add l).2.bumpCost (g.add l).1 1

def connect (w : Nat) (g : InterferenceGraph R) (l : Location R) : InterferenceGraph R :=
  (g.add l).2.addEdge w (g.add l).1

def connectAll (others : Location R → List (Location R)) (g : InterferenceGraph R)
    (l : Location R) : InterferenceGraph R :=
  (others l).foldl (connect (g.add l).1) (g.add l).2

namespace Built

variable {E : Location R → Location R → Prop} {g : InterferenceGraph R}

theorem countUse (h : Built P E g) (hl : P l) :
    Built P E (g.countUse l) ∧ Extends g (g.countUse l) ∧ ∃ n, (g.countUse l).idOf? l = some n := by
  have hbump := Extends.bumpCost (g.add l).2 (g.add l).1 1
  refine ⟨(h.add hl).of_sameShape (sameShape_bumpCost _ _) ((h.add hl).wellFormed.bumpCost _ _)
    fun hm hn hb => ?_, (Extends.add g l).trans hbump, _, hbump.idOf? (idOf?_add g l)⟩
  rw [InterferenceGraph.countUse, neighbours_bumpCost] at hb
  exact (h.add hl).joins hm hn hb

theorem connect (h : Built P E g) {k : Location R} {w : Nat} (hk : P k) (hl : g.idOf? l = some w)
    (hne : l ≠ k) (hE : E l k ∧ E k l) :
    Built P E (g.connect w k) ∧ Extends g (g.connect w k) ∧ (g.connect w k).Apart l k := by
  have hadd := h.add hk
  have hextends := Extends.add g k
  have hw := hextends.idOf? hl
  have hn := idOf?_add g k
  have hwactive := hadd.wellFormed.isActive_of_idOf? hw
  have hnactive := hadd.wellFormed.isActive_of_idOf? hn
  have hextends' := Extends.addEdge hwactive.lt_size hnactive.lt_size
  have hneighbours {c x : Nat} := mem_neighbours_addEdge (c := c) (x := x) hwactive.lt_size
    hnactive.lt_size (hadd.idOf?_ne hw hn hne)
  refine ⟨hadd.of_sameShape (.addEdge _ _) (hadd.wellFormed.addEdge hwactive hnactive)
    fun {a b m m'} hm hm' hb => ?_,
    hextends.trans hextends', _, _, hextends'.idOf? hw, hextends'.idOf? hn,
    hneighbours.mpr (.inr (.inl ⟨rfl, rfl⟩))⟩
  obtain ⟨mw, hmw, rfl⟩ := hadd.location_of_idOf? hw
  obtain ⟨mn, hmn, rfl⟩ := hadd.location_of_idOf? hn
  rcases hneighbours.mp hb with hb | ⟨rfl, rfl⟩ | ⟨rfl, rfl⟩
  · exact hadd.joins hm hm' hb
  · cases hm.symm.trans hmw
    cases hm'.symm.trans hmn
    exact hE.1
  · cases hm.symm.trans hmn
    cases hm'.symm.trans hmw
    exact hE.2

theorem connectAll (h : Built P E g) (hl : P l) {others : Location R → List (Location R)}
    (hothers : ∀ k ∈ others l, P k ∧ l ≠ k ∧ E l k ∧ E k l) :
    Built P E (g.connectAll others l) ∧ Extends g (g.connectAll others l) ∧
      ∀ k ∈ others l, (g.connectAll others l).Apart l k := by
  -- The location keeps its node while others are added.
  obtain ⟨⟨hbuilt, -⟩, hextends, hapart⟩ := foldl_extends (.connect (g.add l).1)
    (fun g' => Built P E g' ∧ g'.idOf? l = some (g.add l).1) (fun k g' => g'.Apart l k)
    (fun _ _ _ hextends hapart => hextends.apart hapart)
    (fun k hk g' hg' => by
      obtain ⟨hP, hne, hE⟩ := hothers k hk
      obtain ⟨hbuilt, hextends, hapart⟩ := hg'.1.connect hP hg'.2 hne hE
      exact ⟨⟨hbuilt, hextends.idOf? hg'.2⟩, hextends, hapart⟩)
    ⟨h.add hl, idOf?_add g l⟩
  exact ⟨hbuilt, (Extends.add g l).trans hextends, hapart⟩

end Built

/-! ### Merging along a copy -/

/-- A merge that coalescing may make: of a pseudo register into another node that it does not
interfere with, if the test for such nodes allows it. -/
structure Mergeable (g : InterferenceGraph R) (k s t : Nat) : Prop where
  source : g.IsActive s
  target : g.IsActive t
  ne : s ≠ t
  not_mem : t ∉ g.neighbours s
  pseudo : g.isPrecoloured s = false
  test : (g.isPrecoloured t = true ∧ g.george k s t = true) ∨
    (g.isPrecoloured t = false ∧ g.briggs k t s = true)

theorem WellFormed.coalesceMove_cases {g : InterferenceGraph R} (h : g.WellFormed) (k : Nat)
    (dst src : Location R) :
    g.coalesceMove k dst src = g ∨
      ∃ s t, g.Mergeable k s t ∧ g.coalesceMove k dst src = g.merge s t := by
  unfold coalesceMove
  split
  · rename_i a b ha hb
    have hdst := h.isActive_of_idOf? ha
    have hsrc := h.isActive_of_idOf? hb
    unfold coalesceNodes
    split
    · exact .inl rfl
    · rename_i hapart
      obtain ⟨hne, hedge⟩ : a ≠ b ∧ b ∉ g.neighbours a := by
        simpa [interferes] using hapart
      have hedge' : a ∉ g.neighbours b := fun hmem => hedge (h.symmetric hmem)
      cases hd : g.isPrecoloured a <;> cases hs : g.isPrecoloured b <;> dsimp only
      · split
        · rename_i htest
          exact .inr ⟨b, a, ⟨hsrc, hdst, hne.symm, hedge', hs, .inr ⟨hd, htest⟩⟩, rfl⟩
        · exact .inl rfl
      · split
        · rename_i htest
          exact .inr ⟨a, b, ⟨hdst, hsrc, hne, hedge, hd, .inl ⟨hs, htest⟩⟩, rfl⟩
        · exact .inl rfl
      · split
        · rename_i htest
          exact .inr ⟨b, a, ⟨hsrc, hdst, hne.symm, hedge', hs, .inl ⟨hd, htest⟩⟩, rfl⟩
        · exact .inl rfl
      · exact .inl rfl
  · exact .inl rfl

end InterferenceGraph

def Access.Names {R L : Type} (a : Access R L) (l : Location R) : Prop :=
  l ∈ a.reads ∨ l ∈ a.writes

namespace AllocationProblem

open InterferenceGraph

variable {R C L : Type} [Ord R] [Std.TransOrd R] [Std.LawfulEqOrd R] [DecidableEq R]
  [DecidableEq C] [DecidableEq L] {p : AllocationProblem R C L} {c : C}
variable {graphs : List (C × InterferenceGraph R)}

/-! ### Building -/

/-- An instruction separates a location it writes from another one that is live after it, unless it
copies the other to the first. -/
structure Conflict (a : Access R L) (after : LocationSet R) (w l : Location R) : Prop where
  written : w ∈ a.writes
  live : l ∈ after
  ne : l ≠ w
  not_source : some l ≠ a.move?.map Prod.snd

omit [Std.LawfulEqOrd R] [DecidableEq L] in
/-- The graph is built in two rounds: locations are counted, then those that are written are
connected to those that are live. -/
theorem interfere_eq (p : AllocationProblem R C L) (c : C) (g : InterferenceGraph R)
    (a : Access R L) (after : LocationSet R) :
    p.interfere c g a after =
      (a.writes.filter fun l => p.classOf l == some c).foldl
        (connectAll fun w => (after.toList.filter fun l => p.classOf l == some c).filter
          fun l => l ≠ w ∧ some l ≠ a.move?.map Prod.snd)
        ((a.reads.filter (fun l => p.classOf l == some c) ++
          a.writes.filter fun l => p.classOf l == some c).foldl countUse g) := rfl

omit [DecidableEq L] in
/-- The locations of a class that an instruction names have nodes, what it separates is kept apart,
and nothing else is added. -/
theorem interfere_spec {P : Location R → Prop} {E : Location R → Location R → Prop}
    {g : InterferenceGraph R} (h : Built P E g) (a : Access R L) (after : LocationSet R)
    (hnames : ∀ l, a.Names l → p.classOf l = some c → P l)
    (hconflicts : ∀ w l, Conflict a after w l → p.classOf w = some c → p.classOf l = some c →
      P l ∧ E w l ∧ E l w) :
    Built P E (p.interfere c g a after) ∧ Extends g (p.interfere c g a after) ∧
      (∀ l, a.Names l → p.classOf l = some c → ∃ n, (p.interfere c g a after).idOf? l = some n) ∧
      ∀ w l, Conflict a after w l → p.classOf w = some c → p.classOf l = some c →
        (p.interfere c g a after).Apart w l := by
  have hin : ∀ {ls : List (Location R)} {l : Location R},
      l ∈ ls.filter (fun l => p.classOf l == some c) ↔ l ∈ ls ∧ p.classOf l = some c := by
    simp
  let uses := a.reads.filter (fun l => p.classOf l == some c) ++
    a.writes.filter fun l => p.classOf l == some c
  have huses : ∀ {l : Location R}, l ∈ uses ↔ a.Names l ∧ p.classOf l = some c := by
    intro l
    rw [mem_append, hin, hin, ← or_and_right, Access.Names]
  let others : Location R → List (Location R) := fun w =>
    (after.toList.filter fun l => p.classOf l == some c).filter
      fun l => l ≠ w ∧ some l ≠ a.move?.map Prod.snd
  have hothers : ∀ {w l : Location R}, l ∈ others w ↔
      (l ∈ after ∧ p.classOf l = some c) ∧ l ≠ w ∧ some l ≠ a.move?.map Prod.snd := by
    intro w l
    rw [mem_filter, hin, Std.ExtTreeSet.mem_toList, decide_eq_true_iff]
  obtain ⟨hused, hextends, hcovered⟩ := foldl_extends countUse (Built P E)
    (fun l g => ∃ n, g.idOf? l = some n)
    (fun _ _ _ hextends ⟨n, hn⟩ => ⟨n, hextends.idOf? hn⟩)
    (fun l (hl : l ∈ uses) g hg => hg.countUse (hnames l (huses.mp hl).1 (huses.mp hl).2)) h
  obtain ⟨hbuilt, hextends', hapart⟩ := foldl_extends (connectAll others) (Built P E)
    (fun w g => ∀ l ∈ others w, g.Apart w l)
    (fun _ _ _ hextends hapart l hl => hextends.apart (hapart l hl))
    (fun w hw g hg => by
      obtain ⟨hw, hclass⟩ := hin.mp hw
      refine hg.connectAll (hnames w (Or.inr hw) hclass) fun l hl => ?_
      obtain ⟨⟨hlive, hl⟩, hne, hsource⟩ := hothers.mp hl
      obtain ⟨hP, hE⟩ := hconflicts w l ⟨hw, hlive, hne, hsource⟩ hclass hl
      exact ⟨hP, hne.symm, hE⟩) hused
  refine ⟨hbuilt, hextends.trans hextends', fun l hl hclass => ?_, fun w l hconflict hw hl => ?_⟩
  · obtain ⟨n, hn⟩ := hcovered l (huses.mpr ⟨hl, hclass⟩)
    exact ⟨n, hextends'.idOf? hn⟩
  · exact hapart w (hin.mpr ⟨hconflict.written, hw⟩) l
      (hothers.mpr ⟨⟨hconflict.live, hl⟩, hconflict.ne, hconflict.not_source⟩)

/-- The graph of a class keeps apart what some instruction separates. -/
structure Separates (p : AllocationProblem R C L) (c : C) (g : InterferenceGraph R) : Prop where
  wellFormed : g.WellFormed
  within : g.Within (p.classOf · = some c)
  covers : ∀ {k : Nat} {a : Access R L} {l : Location R}, p.code[k]? = some a → a.Names l →
    p.classOf l = some c → ∃ n, g.idOf? l = some n
  apart : ∀ {k : Nat} {a : Access R L} {w l : Location R}, p.code[k]? = some a →
    Conflict a (p.liveAfter k) w l → p.classOf w = some c → p.classOf l = some c → g.Apart w l

/-- A location of a class that is a machine register or occurs in the code. -/
def Occurs (p : AllocationProblem R C L) (c : C) (l : Location R) : Prop :=
  p.classOf l = some c ∧ (l.isPseudo = false ∨ ∃ a ∈ p.code, a.Names l)

/-- Two locations that some instruction separates. -/
def Clash (p : AllocationProblem R C L) (w l : Location R) : Prop :=
  ∃ k a, p.code[k]? = some a ∧ (Conflict a (p.liveAfter k) w l ∨ Conflict a (p.liveAfter k) l w)

/-- The graph that is built has nodes for the registers of the class and for what occurs in the
code.  It has edges between the locations that some instruction separates, and no others. -/
theorem built_interference {P : Location R → Prop} (hcolours : ∀ r ∈ p.colours c, P (.reg r))
    (hoccurs : ∀ l, p.Occurs c l → P l) :
    Built P p.Clash (p.interference p.liveness c) ∧ ∀ {k : Nat} {a : Access R L},
      p.code[k]? = some a →
        (∀ l, a.Names l → p.classOf l = some c →
          ∃ n, (p.interference p.liveness c).idOf? l = some n) ∧
        ∀ w l, Conflict a (p.liveAfter k) w l → p.classOf w = some c → p.classOf l = some c →
          (p.interference p.liveness c).Apart w l := by
  obtain ⟨hregisters, -, -⟩ := foldl_extends (fun g r => (g.add (.reg r)).2)
    (Built P p.Clash) (fun _ _ => True) (fun _ _ _ _ _ => trivial)
    (fun r hr g hg => ⟨hg.add (hcolours r hr), .add g _, trivial⟩)
    (.empty (p.className c))
  obtain ⟨hbuilt, -, hadded⟩ := foldl_extends
    (fun g (x : Access R L × Live R) => p.interfere c g x.1 x.2.after) (Built P p.Clash)
    (fun x g => (∀ l, x.1.Names l → p.classOf l = some c → ∃ n, g.idOf? l = some n) ∧
      ∀ w l, Conflict x.1 x.2.after w l → p.classOf w = some c → p.classOf l = some c → g.Apart w l)
    (fun _ _ _ hextends hadded => ⟨fun l hl hclass => by
        obtain ⟨n, hn⟩ := hadded.1 l hl hclass
        exact ⟨n, hextends.idOf? hn⟩,
      fun w l hconflict hw hl => hextends.apart (hadded.2 w l hconflict hw hl)⟩)
    (fun x hx g hg => by
      obtain ⟨k, ha, hafter⟩ := exists_of_mem_zip_liveness hx
      refine interfere_spec hg x.1 x.2.after (fun l hl hclass => ?_)
        fun w l hconflict hw hl => ?_
      · exact hoccurs l ⟨hclass, .inr ⟨x.1, mem_of_getElem? ha, hl⟩⟩
      · rw [hafter] at hconflict
        refine ⟨hoccurs l ⟨hl, ?_⟩, ⟨k, x.1, ha, .inl hconflict⟩, k, x.1, ha, .inr hconflict⟩
        exact (occurs_of_mem_liveAfter hconflict.live).imp_right fun ⟨a, ha, hl⟩ =>
          ⟨a, ha, .inl hl⟩) hregisters
  refine ⟨hbuilt, fun {k a} ha => ?_⟩
  obtain ⟨live, hlive, hafter⟩ := exists_getElem?_zip_liveness ha
  exact hafter ▸ hadded (a, live) (mem_of_getElem? hlive)

theorem interference_spec (hcolours : ∀ r ∈ p.colours c, p.classOf (.reg r) = some c) :
    Built (p.Occurs c) p.Clash (p.interference p.liveness c) ∧
      p.Separates c (p.interference p.liveness c) := by
  obtain ⟨hbuilt, hadded⟩ := built_interference (fun r hr => ⟨hcolours r hr, .inl rfl⟩) fun _ => id
  exact ⟨hbuilt, hbuilt.wellFormed, fun a m hm => (hbuilt.within a m hm).1,
    fun ha => (hadded ha).1 _, fun ha => (hadded ha).2 _ _⟩

/-! ### Coalescing -/

namespace Separates

variable {g : InterferenceGraph R}

omit [DecidableEq C] in
theorem merge (h : p.Separates c g) {k s t : Nat} (hmerge : g.Mergeable k s t) :
    p.Separates c (g.merge s t) where
  wellFormed := h.wellFormed.merge hmerge.source hmerge.target hmerge.ne
    (isPseudo_of_isPrecoloured_eq_false hmerge.pseudo)
  within := h.within.merge
  covers := fun ha hl hclass => by
    obtain ⟨n, hn⟩ := h.covers ha hl hclass
    exact ⟨_, h.wellFormed.idOf?_merge hmerge.source hmerge.target hmerge.ne hn⟩
  apart := fun ha hconflict hw hl => h.wellFormed.apart_merge hmerge.source hmerge.target hmerge.ne
    hmerge.not_mem (h.apart ha hconflict hw hl)

omit [DecidableEq C] in
theorem coalesceMove (h : p.Separates c g) (k : Nat) (dst src : Location R) :
    p.Separates c (g.coalesceMove k dst src) := by
  rcases h.wellFormed.coalesceMove_cases k dst src with heq | ⟨s, t, hmerge, heq⟩
  · rwa [heq]
  · rw [heq]
    exact h.merge hmerge

end Separates

theorem map_fst_modifyFirst {G : Type} (c : C) (f : G → G) (graphs : List (C × G)) :
    (modifyFirst c f graphs).map Prod.fst = graphs.map Prod.fst := by
  induction graphs with
  | nil => rfl
  | cons x rest ih =>
    rw [modifyFirst]
    split
    · rfl
    · simp [ih]

theorem forall_mem_modifyFirst {G : Type} {good : C → G → Prop} {f : G → G}
    {graphs : List (C × G)} (hf : ∀ g, good c g → good c (f g))
    (h : ∀ x ∈ graphs, good x.1 x.2) : ∀ x ∈ modifyFirst c f graphs, good x.1 x.2 := by
  induction graphs with
  | nil => exact h
  | cons x rest ih =>
    obtain ⟨hx, hrest⟩ := forall_mem_cons.mp h
    rw [modifyFirst]
    split
    · rename_i heq
      exact forall_mem_cons.mpr ⟨heq ▸ hf _ (heq ▸ hx), hrest⟩
    · exact forall_mem_cons.mpr ⟨hx, ih hrest⟩

omit [Ord R] [Std.TransOrd R] [Std.LawfulEqOrd R] [DecidableEq L] in
/-- What merging along a copy keeps of every graph, coalescing keeps.  There still is one graph for
each class. -/
theorem coalesce_induction (good : C → InterferenceGraph R → Prop)
    (hgood : ∀ c g dst src, good c g → good c (g.coalesceMove (p.colours c).length dst src))
    (h : ∀ x ∈ graphs, good x.1 x.2) :
    (p.coalesce graphs).map Prod.fst = graphs.map Prod.fst ∧
      ∀ x ∈ p.coalesce graphs, good x.1 x.2 := by
  unfold coalesce
  induction p.code generalizing graphs with
  | nil => exact ⟨rfl, h⟩
  | cons a rest ih =>
    have hone : (p.coalesceOne graphs a).map Prod.fst = graphs.map Prod.fst ∧
        ∀ x ∈ p.coalesceOne graphs a, good x.1 x.2 := by
      unfold coalesceOne
      split
      · exact ⟨rfl, h⟩
      · split
        · split
          · exact ⟨map_fst_modifyFirst _ _ _, forall_mem_modifyFirst (fun g => hgood _ g _ _) h⟩
          · exact ⟨rfl, h⟩
        · exact ⟨rfl, h⟩
    obtain ⟨hclasses, hall⟩ := ih hone.2
    exact ⟨hclasses.trans hone.1, hall⟩

/-- The graphs of different classes, each of which keeps apart what it should. -/
structure AllSeparate (p : AllocationProblem R C L) (graphs : List (C × InterferenceGraph R)) :
    Prop where
  classes_eq : graphs.map Prod.fst = p.classes
  separates : ∀ x ∈ graphs, p.Separates x.1 x.2

/-- Merging along all copies keeps apart what was apart. -/
theorem AllSeparate.coalesce (h : p.AllSeparate graphs) : p.AllSeparate (p.coalesce graphs) := by
  obtain ⟨hclasses, hall⟩ :=
    coalesce_induction p.Separates
      (fun c g dst src hg => hg.coalesceMove (p.colours c).length dst src) h.separates
  exact ⟨hclasses.trans h.classes_eq, hall⟩

theorem allSeparate_graphs
    (hcolours : ∀ c ∈ p.classes, ∀ r ∈ p.colours c, p.classOf (.reg r) = some c) :
    p.AllSeparate p.graphs := by
  refine ⟨(map_map ..).trans (map_id _), fun x hx => ?_⟩
  obtain ⟨c, hc, rfl⟩ := mem_map.mp hx
  exact (interference_spec (hcolours c hc)).2

end AllocationProblem

end ThreeAddress
