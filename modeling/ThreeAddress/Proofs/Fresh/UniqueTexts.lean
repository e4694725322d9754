import Mathlib.Data.List.Perm.Subperm
import Mathlib.Order.Bounds.Defs
import Std.Data.String.ToNat
import ThreeAddress.Fresh.NameSupply
import ThreeAddress.Instr.Text
import ThreeAddress.Proofs.Fresh.DrawnLabels

/-!
# Texts of fresh labels and names

Labels and temporaries are told apart by their text alone.  The text of a label can be read back,
whatever its name looks like, since the last underscore is followed by the subscript.  So it is
enough that a supply asked to reserve and to generate labels, in any order, generates none that it
has seen.  A supply of names tries one number after another, and finds one with a name that is not
avoided as there are only finitely many names to avoid.
-/

namespace ThreeAddress

open List

/-! ### The text of a label -/

/-- A list is split at an element in two ways: they are the same, or the one that is split later has
the element before it as well. -/
theorem append_cons_cases {α : Type} {x : α} {front front' back back' : List α}
    (h : front ++ x :: back = front' ++ x :: back') :
    (front = front' ∧ back = back') ∨ (∃ r, front' = front ++ x :: r ∧ back = r ++ x :: back') ∨
      ∃ r, front = front' ++ x :: r ∧ back' = r ++ x :: back := by
  rcases append_eq_append_iff.mp h with ⟨rest, rfl, hrest⟩ | ⟨rest, rfl, hrest⟩
  · cases rest with
    | nil => exact .inl ⟨(append_nil front).symm, (cons.inj hrest).2⟩
    | cons y r =>
      obtain ⟨rfl, hback⟩ := cons.inj hrest
      exact .inr (.inl ⟨r, rfl, hback⟩)
  · cases rest with
    | nil => exact .inl ⟨append_nil front', (cons.inj hrest).2.symm⟩
    | cons y r =>
      obtain ⟨rfl, hback⟩ := cons.inj hrest
      exact .inr (.inr ⟨r, rfl, hback⟩)

theorem Label.text_injective : Function.Injective Label.text := by
  rintro ⟨x, m⟩ ⟨y, n⟩ h
  have hchars : x.toList ++ '_' :: Nat.toDigits 10 m = y.toList ++ '_' :: Nat.toDigits 10 n := by
    simpa [text] using congrArg String.toList h
  rcases append_cons_cases hchars with ⟨hname, hdigits⟩ | ⟨r, -, hr⟩ | ⟨r, -, hr⟩
  · have hsubscript : m.repr.toList = n.repr.toList := by
      rw [Nat.toList_repr, Nat.toList_repr, hdigits]
    rw [String.toList_inj.mp hname, Nat.repr_injective (String.toList_inj.mp hsubscript)]
  all_goals exact absurd (hr ▸ mem_append_right r (.head _)) Nat.underscore_not_in_toDigits

namespace LabelSupply

variable {s s' : LabelSupply} {name : String} {l : Label} {body : Listing Instr}

/-! ### The life of a supply -/

/-- How a label becomes known to a supply. -/
inductive Event where
  | reserved (l : Label)
  | generated (l : Label)

def Event.label : Event → Label
  | reserved l | generated l => l

/-- What has happened to a supply for a listing, the latest first.  The labels of the listing are
reserved, and after them labels are reserved and generated in any order. -/
inductive History (body : Listing Instr) : List Event → LabelSupply → Prop
  | start : History body ((body.filterMap Instr.label?).map .reserved) (ofListing body)
  | reserve {events : List Event} {s : LabelSupply} (l : Label) (h : History body events s) :
      History body (.reserved l :: events) (s.reserve l)
  | generate {events : List Event} {s s' : LabelSupply} {l : Label} (name : String)
      (h : History body events s) (hnext : s.next? name = some (l, s')) :
      History body (.generated l :: events) s'

namespace History

variable {events : List Event} {e : Event}

/-- A supply knows the greatest subscript of every name, and nothing else. -/
theorem highestOf_le_iff (h : History body events s) {n : Nat} :
    s.highestOf name ≤ n ↔ ∀ e ∈ events, e.label.name = name → e.label.subscript ≤ n := by
  induction h with
  | start =>
    constructor
    · rintro hle _ he rfl
      obtain ⟨l, hl, rfl⟩ := mem_map.mp he
      exact Nat.le_trans (le_highestOf_ofListing hl) hle
    · exact fun h => highestOf_ofListing_le fun l hl => h _ (mem_map_of_mem hl)
  | reserve l _ ih =>
    rw [highestOf_reserve, forall_mem_cons, ← ih]
    show _ ↔ (l.name = name → l.subscript ≤ n) ∧ _
    split
    · rename_i heq
      simp only [heq, true_implies]
      omega
    · simp_all
  | @generate _ s _ _ x _ hnext ih =>
    obtain ⟨-, rfl, rfl⟩ := next?_eq_some_iff.mp hnext
    rw [highestOf_insert, forall_mem_cons, ← ih]
    show _ ↔ (x = name → s.highestOf x + 1 ≤ n) ∧ _
    split
    · rename_i heq
      simp only [heq, true_implies]
      omega
    · simp_all

theorem label_ne (h : History body events s) (hnext : s.next? name = some (l, s'))
    (he : e ∈ events) : l ≠ e.label := by
  rintro rfl
  have hle := h.highestOf_le_iff.mp (Nat.le_refl _) e he rfl
  obtain ⟨-, heq, -⟩ := next?_eq_some_iff.mp hnext
  rw [heq] at hle
  exact Nat.not_succ_le_self _ hle

/-- Every label generated looks different from all labels known by then. -/
theorem texts_apart (h : History body events s) :
    events.Pairwise fun e e' => ∀ l, e = .generated l → l.text ≠ e'.label.text := by
  induction h with
  | start =>
    refine pairwise_map.mpr (pairwise_of_forall fun _ _ => ?_)
    rintro _ ⟨⟩
  | reserve l _ ih =>
    refine pairwise_cons.mpr ⟨?_, ih⟩
    rintro _ _ _ ⟨⟩
  | generate _ h hnext ih =>
    refine pairwise_cons.mpr ⟨?_, ih⟩
    rintro e he _ ⟨⟩ htext
    exact h.label_ne hnext he (Label.text_injective htext)

/-- While no subscript is the greatest one, there is another label of every name. -/
theorem exists_next? (h : History body events s)
    (hlast : ∀ e ∈ events, e.label.subscript < Label.maxSubscript) (name : String) :
    ∃ l s', s.next? name = some (l, s') ∧ l.name = name := by
  have hle : s.highestOf name ≤ Label.maxSubscript - 1 :=
    h.highestOf_le_iff.mpr fun e he _ => Nat.le_pred_of_lt (hlast e he)
  have hlt : s.highestOf name < Label.maxSubscript := Nat.lt_of_le_pred (by decide) hle
  exact ⟨_, _, if_pos hlt, rfl⟩

end History

end LabelSupply

/-! ### Names of temporaries -/

namespace NameSupply

theorem temporary_injective {m n : Nat} (h : temporary m = temporary n) : m = n := by
  unfold temporary at h
  rw [String.append_right_inj] at h
  exact Nat.repr_inj.mp h

theorem isPrefix_temporary (n : Nat) : "%t".toList <+: (temporary n).toList := by
  rw [temporary, String.toList_append]
  exact prefix_append _ _

theorem le_firstFree (avoided : NameSet) (fuel n : Nat) : n ≤ firstFree avoided fuel n := by
  induction fuel generalizing n with
  | zero => exact Nat.le_refl n
  | succ fuel ih =>
    rw [firstFree]
    split
    · exact Nat.le_trans (Nat.le_succ n) (ih (n + 1))
    · exact Nat.le_refl n

/-- The search passes over names to avoid only. -/
theorem temporary_mem_of_lt_firstFree {avoided : NameSet} {fuel n m : Nat} (hn : n ≤ m)
    (hm : m < firstFree avoided fuel n) : temporary m ∈ avoided := by
  induction fuel generalizing n with
  | zero => exact absurd hm (Nat.not_lt.mpr hn)
  | succ fuel ih =>
    rw [firstFree] at hm
    split at hm
    · rename_i hmem
      rcases Nat.eq_or_lt_of_le hn with rfl | hlt
      · exact hmem
      · exact ih hlt hm
    · exact absurd hm (Nat.not_lt.mpr hn)

/-- If the search ends at a name to avoid, it has used up its steps. -/
theorem firstFree_eq_of_mem {avoided : NameSet} {fuel n : Nat}
    (h : temporary (firstFree avoided fuel n) ∈ avoided) : firstFree avoided fuel n = n + fuel := by
  induction fuel generalizing n with
  | zero => rfl
  | succ fuel ih =>
    rw [firstFree] at h ⊢
    split at h
    · rename_i hmem
      rw [if_pos hmem, ih h]
      omega
    · exact absurd h ‹_›

/-- With as many steps as there are names to avoid, the search finds another name. -/
theorem temporary_firstFree_not_mem (avoided : NameSet) (n : Nat) :
    temporary (firstFree avoided avoided.size n) ∉ avoided := by
  intro h
  have heq := firstFree_eq_of_mem h
  -- One name more than there are names to avoid would have to be avoided.
  have hsubset : (range' n (avoided.size + 1)).map temporary ⊆ avoided.toList := by
    intro x hx
    obtain ⟨m, hm, rfl⟩ := mem_map.mp hx
    have hbounds := mem_range'_1.mp hm
    refine Std.ExtTreeSet.mem_toList.mpr ?_
    rcases Nat.lt_or_ge m (firstFree avoided avoided.size n) with hlt | hge
    · exact temporary_mem_of_lt_firstFree hbounds.1 hlt
    · have hlast : m = firstFree avoided avoided.size n := by omega
      rw [hlast]
      exact h
  have hnodup : ((range' n (avoided.size + 1)).map temporary).Nodup :=
    (nodup_range' 1 Nat.one_pos).map fun _ _ => temporary_injective
  have hlength := (subperm_of_subset hnodup hsubset).length_le
  rw [length_map, length_range', Std.ExtTreeSet.length_toList] at hlength
  omega

/-- The name given has the first number beyond the last one whose name is not avoided. -/
theorem exists_next (s : NameSupply) :
    ∃ n, IsLeast {m | s.last < m ∧ temporary m ∉ s.avoided} n ∧
      s.next = (temporary n, ⟨n, s.avoided⟩) := by
  refine ⟨_, ⟨⟨le_firstFree _ _ _, temporary_firstFree_not_mem _ _⟩, ?_⟩, rfl⟩
  intro m hm
  by_contra hlt
  exact hm.2 (temporary_mem_of_lt_firstFree hm.1 (Nat.lt_of_not_le hlt))

theorem exists_of_mem_take {s : NameSupply} {count : Nat} {name : String}
    (h : name ∈ take count s) : ∃ n, s.last < n ∧ temporary n ∉ s.avoided ∧ name = temporary n := by
  induction count generalizing s with
  | zero => cases h
  | succ count ih =>
    obtain ⟨n, ⟨⟨hlt, hn⟩, -⟩, hnext⟩ := s.exists_next
    rw [take, hnext] at h
    rcases mem_cons.mp h with rfl | h
    · exact ⟨n, hlt, hn, rfl⟩
    · obtain ⟨m, hm, hfree, rfl⟩ := ih h
      exact ⟨m, Nat.lt_trans hlt hm, hfree, rfl⟩

theorem nodup_take (s : NameSupply) (count : Nat) : (take count s).Nodup := by
  induction count generalizing s with
  | zero => exact .nil
  | succ count ih =>
    obtain ⟨n, -, hnext⟩ := s.exists_next
    rw [take, hnext]
    refine nodup_cons.mpr ⟨fun h => ?_, ih _⟩
    -- Numbers only grow.
    obtain ⟨m, hm, -, heq⟩ := exists_of_mem_take h
    exact Nat.lt_irrefl n (temporary_injective heq ▸ hm)

end NameSupply

open LabelSupply NameSupply

/-- A label generated looks different from every label defined in the listing, reserved before or
generated otherwise, and there is always another one while no subscript reaches the greatest.  Names
for temporaries are always found, none of them is avoided, and no two are the same. -/
theorem generated_texts_unique :
    (∀ (body : Listing Instr) (events : List Event) (s : LabelSupply), History body events s →
      (events.Pairwise fun e e' => ∀ l, e = .generated l → l.text ≠ e'.label.text) ∧
      ((∀ e ∈ events, e.label.subscript < Label.maxSubscript) →
        ∀ name, ∃ l s', s.next? name = some (l, s') ∧ l.name = name)) ∧
    (∀ s : NameSupply, ∃ n, IsLeast {m | s.last < m ∧ temporary m ∉ s.avoided} n ∧
      s.next = (temporary n, ⟨n, s.avoided⟩)) ∧
    ∀ (names : NameSet) (count : Nat), (take count (avoiding names)).Nodup ∧
      ∀ name ∈ take count (avoiding names), name ∉ names := by
  refine ⟨fun body events s h => ⟨h.texts_apart, h.exists_next?⟩, exists_next, fun names count =>
    ⟨nodup_take _ _, fun name hname => ?_⟩⟩
  obtain ⟨n, -, hfree, rfl⟩ := exists_of_mem_take hname
  exact hfree

/-- A label is generated whose name is the text of another. -/
theorem nestedNames_unique : ∃ events s,
    History [.label ⟨"nan", 3⟩, .jump ⟨"end", 1⟩] events s ∧
      events.map (fun e => e.label.text) = ["nan_5", "nan_4_2", "nan_4_1", "nan_4", "nan_3"] ∧
      (events.Pairwise fun e e' => ∀ l, e = .generated l → l.text ≠ e'.label.text) ∧
      ∃ l s', s.next? "end" = some (l, s') ∧ l.name = "end" := by
  obtain ⟨events, s, h, htexts, hlast⟩ : ∃ events s,
      History [.label ⟨"nan", 3⟩, .jump ⟨"end", 1⟩] events s ∧
        events.map (fun e => e.label.text) = ["nan_5", "nan_4_2", "nan_4_1", "nan_4", "nan_3"] ∧
        ∀ e ∈ events, e.label.subscript < Label.maxSubscript :=
    ⟨_, _, .generate "nan" (.generate "nan_4" (.reserve ⟨"nan_4", 1⟩ (.generate "nan" .start rfl))
      rfl) rfl, by decide +kernel, by decide +kernel⟩
  obtain ⟨hapart, hnext⟩ := generated_texts_unique.1 _ _ _ h
  exact ⟨events, s, h, htexts, hapart, hnext hlast "end"⟩

end ThreeAddress
