import Std.Data.String.ToNat
import ThreeAddress.Amd64.Generate
import ThreeAddress.Proofs.Amd64.LoweredForms

/-!
# Numbered constants

The double constants of a program are named by their place in the pool.  Lowering adds to the pool,
and never takes anything away, so the names are distinct at all times.
-/

namespace ThreeAddress.Amd64

open List

/-! ### The pool -/

/-- The constants of a platform's pool have the names of their places. -/
structure ConstantPool.Numbered (platform : Platform) (pool : ConstantPool) : Prop where
  platform_eq : pool.platform = platform
  names_eq : pool.entries.map PoolEntry.name =
    (List.range pool.entries.length).map (entryName platform)

namespace ConstantPool

variable {platform : Platform} {pool : ConstantPool}

theorem numbered_empty (platform : Platform) : (empty platform).Numbered platform := ⟨rfl, rfl⟩

theorem entryName_injective (platform : Platform) : Function.Injective (entryName platform) := by
  intro m n h
  unfold entryName at h
  rw [String.append_right_inj] at h
  exact Nat.repr_inj.mp h

theorem Numbered.nodup (h : pool.Numbered platform) : (pool.entries.map PoolEntry.name).Nodup := by
  rw [h.names_eq]
  exact .map (entryName_injective platform) nodup_range

/-- A constant has the name of an entry, or it becomes the last one. -/
theorem intern_cases (pool : ConstantPool) (x : Binary64) (alignment : Nat) :
    (∃ e ∈ pool.entries, pool.intern x alignment = (e.name, pool)) ∨
      pool.intern x alignment = (entryName pool.platform pool.entries.length,
        { pool with entries := pool.entries ++
          [⟨entryName pool.platform pool.entries.length, x, alignment⟩] }) := by
  unfold ConstantPool.intern
  split
  · rename_i entry hfind
    exact .inl ⟨entry, mem_of_find?_eq_some hfind, rfl⟩
  · exact .inr rfl

theorem Numbered.intern (h : pool.Numbered platform) (x : Binary64) (alignment : Nat) :
    (pool.intern x alignment).2.Numbered platform := by
  rcases pool.intern_cases x alignment with ⟨_, -, heq⟩ | heq
  · rwa [heq]
  · rw [heq]
    refine ⟨h.platform_eq, ?_⟩
    simp only [map_append, map_cons, map_nil, length_append, length_singleton, range_succ,
      h.names_eq, h.platform_eq]

/-- Constants are only added, and a pool that has all constants stays as it is. -/
theorem intern_prefix (pool : ConstantPool) (x : Binary64) (alignment : Nat) :
    pool.entries <+: (pool.intern x alignment).2.entries ∧
      ∀ pool' : ConstantPool, (pool.intern x alignment).2.entries <+: pool'.entries →
        pool'.intern x alignment = ((pool.intern x alignment).1, pool') := by
  unfold ConstantPool.intern
  split
  · rename_i entry hfind
    refine ⟨prefix_rfl, ?_⟩
    rintro pool' ⟨rest, heq⟩
    rw [← heq, find?_append, hfind]
    rfl
  · rename_i hfind
    refine ⟨prefix_append .., ?_⟩
    rintro pool' ⟨rest, heq⟩
    rw [← heq, find?_append, find?_append, hfind]
    simp

end ConstantPool

/-! ### Programs -/

section

variable {p : Program} {platform : Platform} {f : Function} {fs rest : List Function}
  {constants constants' : ConstantPool} {qs : List Procedure} {I : ConstantPool → Prop}
  {P : Function → Procedure → Prop}

theorem exists_of_lowerFunctions_cons
    (h : lowerFunctions p platform (f :: rest) constants = .ok (qs, constants')) :
    ∃ q constants₁ qs', lowerFunction p platform f constants = .ok (q, constants₁) ∧
      lowerFunctions p platform rest constants₁ = .ok (qs', constants') ∧ qs = q :: qs' := by
  rw [lowerFunctions] at h
  cases hq : lowerFunction p platform f constants with
  | error err =>
    rw [hq] at h
    cases h
  | ok first =>
    rw [hq] at h
    cases hqs : lowerFunctions p platform rest first.2 with
    | error err =>
      simp only [bind, Except.bind, hqs] at h
      cases h
    | ok others =>
      simp only [bind, Except.bind, hqs] at h
      cases h
      exact ⟨first.1, first.2, others.1, rfl, hqs, rfl⟩

/-- The functions of a program are lowered one after another.  What holds of the pool before each of
them holds in the end, and what each of them gives is known. -/
theorem lowerFunctions_induction (hstep : ∀ f ∈ fs, ∀ {constants q constants'}, I constants →
      lowerFunction p platform f constants = .ok (q, constants') → I constants' ∧ P f q)
    (hI : I constants) (h : lowerFunctions p platform fs constants = .ok (qs, constants')) :
    I constants' ∧ List.Forall₂ P fs qs := by
  induction fs generalizing constants qs with
  | nil =>
    cases h
    exact ⟨hI, .nil⟩
  | cons f rest ih =>
    obtain ⟨hf, hrest⟩ := forall_mem_cons.mp hstep
    obtain ⟨q, constants₁, qs, hq, hqs, rfl⟩ := exists_of_lowerFunctions_cons h
    obtain ⟨hI₁, hP⟩ := hf hI hq
    obtain ⟨hI₂, hall⟩ := ih hrest hI₁ hqs
    exact ⟨hI₂, .cons hP hall⟩

/-- Functions are lowered one after another, if each of them is lowered with the constants that the
ones before it leave. -/
theorem exists_lowerFunctions (hstep : ∀ f ∈ fs, ∀ constants, I constants → ∃ q constants',
      lowerFunction p platform f constants = .ok (q, constants') ∧ I constants' ∧ P f q)
    (hI : I constants) : ∃ qs constants',
      lowerFunctions p platform fs constants = .ok (qs, constants') ∧ List.Forall₂ P fs qs := by
  induction fs generalizing constants with
  | nil => exact ⟨[], constants, rfl, .nil⟩
  | cons f rest ih =>
    obtain ⟨hf, hrest⟩ := forall_mem_cons.mp hstep
    obtain ⟨q, constants₁, hq, hI₁, hP⟩ := hf constants hI
    obtain ⟨qs, constants', hqs, hall⟩ := ih hrest hI₁
    refine ⟨q :: qs, constants', ?_, .cons hP hall⟩
    simp only [lowerFunctions, hq, hqs, bind, Except.bind]
    rfl

end

end ThreeAddress.Amd64
