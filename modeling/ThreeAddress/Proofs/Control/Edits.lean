import Mathlib.Data.List.ReduceOption
import ThreeAddress.Proofs.Control.Positions

/-!
# Edits of code

A pass that replaces and removes instructions is described by a list of what becomes of each
position: another instruction, or nothing.  The edited code is what remains.
-/

namespace ThreeAddress

open List

variable {α β L : Type} {edits : List (Option β)} {k : Nat} {b : β}

/-- The position in the edited code of what was at a position, or of what follows it if nothing
is left of it. -/
def newPosition (edits : List (Option β)) (k : Nat) : Nat := (edits.take k).reduceOption.length

@[simp] theorem newPosition_zero (edits : List (Option β)) : newPosition edits 0 = 0 := rfl

theorem newPosition_succ (h : edits[k]? = some (some b)) :
    newPosition edits (k + 1) = newPosition edits k + 1 := by
  simp [newPosition, take_add_one, h, reduceOption_append]

theorem newPosition_succ_none (h : edits[k]? = some none) :
    newPosition edits (k + 1) = newPosition edits k := by
  simp [newPosition, take_add_one, h, reduceOption_append]

theorem newPosition_of_length_le (h : edits.length ≤ k) :
    newPosition edits k = edits.reduceOption.length := by
  rw [newPosition, take_of_length_le h]

theorem newPosition_le_newPosition (edits : List (Option β)) {j : Nat} (h : j ≤ k) :
    newPosition edits j ≤ newPosition edits k := by
  obtain ⟨d, rfl⟩ := Nat.exists_eq_add_of_le h
  rw [newPosition, newPosition, take_add, reduceOption_append, length_append]
  omega

theorem newPosition_lt_newPosition {j : Nat} (h : j < k) (hj : edits[j]? = some (some b)) :
    newPosition edits j < newPosition edits k := by
  have := newPosition_le_newPosition edits h
  rw [newPosition_succ hj] at this
  omega

/-- A position that is kept holds its new instruction. -/
theorem getElem?_newPosition (h : edits[k]? = some (some b)) :
    edits.reduceOption[newPosition edits k]? = some b := by
  obtain ⟨hk, hget⟩ := List.getElem?_eq_some_iff.mp h
  have hsplit : edits.reduceOption
      = (edits.take k).reduceOption ++ b :: (edits.drop (k + 1)).reduceOption := by
    rw [← reduceOption_cons_of_some, ← reduceOption_append, ← hget,
      getElem_cons_drop, take_append_drop]
  rw [hsplit]
  simp [newPosition]

theorem exists_of_getElem?_reduceOption {m : Nat} (h : edits.reduceOption[m]? = some b) :
    ∃ k, edits[k]? = some (some b) ∧ newPosition edits k = m := by
  induction edits generalizing m with
  | nil => simp at h
  | cons e rest ih =>
    cases e with
    | none =>
      obtain ⟨k, hk, hm⟩ := ih (by simpa using h)
      exact ⟨k + 1, by simpa using hk, by simpa [newPosition] using hm⟩
    | some c =>
      cases m with
      | zero => exact ⟨0, by simpa using h, rfl⟩
      | succ m =>
        obtain ⟨k, hk, hm⟩ := ih (by simpa using h)
        exact ⟨k + 1, by simpa using hk, by simpa [newPosition] using hm⟩

theorem exists_kept_between {t j : Nat} (hj : j < newPosition edits t - newPosition edits k) :
    ∃ q b, k ≤ q ∧ q < t ∧ edits[q]? = some (some b) ∧
      edits.reduceOption[newPosition edits k + j]? = some b := by
  have hlt : newPosition edits k + j < edits.reduceOption.length := by
    have hle := newPosition_le_newPosition edits (j := t) (k := max t edits.length) (by omega)
    rw [newPosition_of_length_le (k := max t edits.length) (by omega)] at hle
    omega
  have hget := getElem?_eq_getElem hlt
  obtain ⟨q, hq, hpos⟩ := exists_of_getElem?_reduceOption hget
  refine ⟨q, _, ?_, ?_, hq, hget⟩
  · by_contra hlt'
    have := newPosition_lt_newPosition (k := k) (by omega) hq
    omega
  · by_contra hle
    have := newPosition_le_newPosition edits (j := t) (k := q) (by omega)
    omega

section

variable [DecidableEq L] {flow : α → Flow L} {flow' : β → Flow L} {code : List α}
  {edits : List (Option β)} {l : L}

/-- Jumps go to the new place of where they went, if the definition they went to is kept and no
definition is added. -/
theorem targetPosition_reduceOption (hlength : edits.length = code.length)
    (hold : ∀ (k : Nat) b, edits[k]? = some (some b) → flow' b = .label l →
      ∃ a, code[k]? = some a ∧ flow a = .label l)
    (hkept : ∀ a, code[targetPosition flow code l]? = some a →
      ∃ b, edits[targetPosition flow code l]? = some (some b) ∧ flow' b = .label l) :
    targetPosition flow' edits.reduceOption l = newPosition edits (targetPosition flow code l) := by
  unfold targetPosition at hkept ⊢
  cases hl : lastPosition? (fun a => decide (flow a = .label l)) code with
  | none =>
    -- Without a definition in the old code there is none in the new one.
    have hnone : lastPosition? (fun b => decide (flow' b = .label l))
      edits.reduceOption = none := by
      rw [lastPosition?_eq_none_iff]
      intro b hb
      obtain ⟨m, hm⟩ := mem_iff_getElem?.mp hb
      obtain ⟨k, hk, -⟩ := exists_of_getElem?_reduceOption hm
      rw [decide_eq_false_iff_not]
      intro hfl
      obtain ⟨a, ha, hfa⟩ := hold k b hk hfl
      have := lastPosition?_eq_none_iff.mp hl a (mem_of_getElem? ha)
      simp [hfa] at this
    rw [hnone, Option.getD_none, Option.getD_none, newPosition_of_length_le (by omega)]
  | some k =>
    obtain ⟨⟨a, ha, -⟩, hlater⟩ := lastPosition?_eq_some_iff.mp hl
    rw [hl] at hkept
    obtain ⟨b, hb, hfl⟩ := hkept a ha
    have hsome : lastPosition? (fun b => decide (flow' b = .label l)) edits.reduceOption
        = some (newPosition edits k) := by
      rw [lastPosition?_eq_some_iff]
      refine ⟨⟨b, getElem?_newPosition hb, by simp [hfl]⟩, fun j c hj hc => ?_⟩
      obtain ⟨i, hi, rfl⟩ := exists_of_getElem?_reduceOption hc
      rw [decide_eq_false_iff_not]
      intro hfc
      obtain ⟨d, hd, hfd⟩ := hold i c hi hfc
      have hki : k < i := by
        by_contra hle
        have := newPosition_le_newPosition edits (j := i) (k := k) (by omega)
        omega
      have := hlater i d hki hd
      simp [hfd] at this
    rw [hsome, Option.getD_some, Option.getD_some]

end

end ThreeAddress
