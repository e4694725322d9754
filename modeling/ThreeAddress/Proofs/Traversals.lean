import Mathlib.Tactic.FinCases

/-!
# Partial functions on lists

A partial function is applied to a list if it has a result on every element.  The results correspond
to the elements one by one, so that what relates an element to its result relates the lists.
-/

namespace ThreeAddress

open List

variable {α α' β β' : Type} {f g : α → Option β} {xs : List α} {ys : List β}

theorem forall₂_of_mapM_eq_some (h : xs.mapM f = some ys) :
    List.Forall₂ (fun x y => f x = some y) xs ys := by
  induction xs generalizing ys with
  | nil =>
    cases h
    exact .nil
  | cons x rest ih =>
    rw [mapM_cons] at h
    obtain ⟨y, hy, hrest⟩ := Option.bind_eq_some_iff.mp h
    obtain ⟨later, hlater, hys⟩ := Option.bind_eq_some_iff.mp hrest
    obtain rfl := Option.some.inj hys
    exact .cons hy (ih hlater)

theorem exists_of_forall₂_of_mem {R : α → β → Prop} (h : List.Forall₂ R xs ys) {y : β}
    (hy : y ∈ ys) : ∃ x ∈ xs, R x y := by
  induction h with
  | nil => cases hy
  | cons hx _ ih =>
    rcases mem_cons.mp hy with rfl | hy
    · exact ⟨_, mem_cons_self, hx⟩
    · obtain ⟨x, hmem, hxy⟩ := ih hy
      exact ⟨x, mem_cons_of_mem _ hmem, hxy⟩

theorem mapM_map_eq_some {g : α' → Option β'} {φ : α → α'} {ψ : β → β'}
    (h : ∀ x ∈ xs, ∀ y, f x = some y → g (φ x) = some (ψ y)) (hys : xs.mapM f = some ys) :
    (xs.map φ).mapM g = some (ys.map ψ) := by
  have hall := forall₂_of_mapM_eq_some hys
  clear hys
  induction hall with
  | nil => rfl
  | cons hx _ ih =>
    obtain ⟨hhead, hrest⟩ := forall_mem_cons.mp h
    simp [mapM_cons, hhead _ hx, ih hrest]

theorem mapM_eq_some_of_imp (h : ∀ x y, f x = some y → g x = some y) (hxs : xs.mapM f = some ys) :
    xs.mapM g = some ys := by
  have hmap := mapM_map_eq_some (φ := id) (ψ := id) (fun x _ y => h x y) hxs
  rwa [map_id, map_id] at hmap

theorem mapM_congr (h : ∀ x ∈ xs, f x = g x) : xs.mapM f = xs.mapM g := by
  induction xs with
  | nil => rfl
  | cons x rest ih =>
    obtain ⟨hx, hrest⟩ := forall_mem_cons.mp h
    rw [mapM_cons, mapM_cons, hx, ih hrest]

theorem exists_mem_of_mapM (hys : xs.mapM f = some ys) {x : α} (hx : x ∈ xs) :
    ∃ y ∈ ys, f x = some y :=
  exists_of_forall₂_of_mem (forall₂_of_mapM_eq_some hys).flip hx

theorem pairwise_of_mapM {R : α → α → Prop} {S : β → β → Prop}
    (hRS : ∀ x x' y y', f x = some y → f x' = some y' → R x x' → S y y') (hxs : xs.Pairwise R)
    (hys : xs.mapM f = some ys) : ys.Pairwise S := by
  have hall := forall₂_of_mapM_eq_some hys
  clear hys
  induction hall with
  | nil => exact .nil
  | @cons x y rest results hx hrest ih =>
    obtain ⟨hhead, htail⟩ := pairwise_cons.mp hxs
    refine pairwise_cons.mpr ⟨fun y' hy' => ?_, ih htail⟩
    obtain ⟨x', hx', hfound⟩ := exists_of_forall₂_of_mem hrest hy'
    exact hRS x x' y y' hx hfound (hhead x' hx')

end ThreeAddress
