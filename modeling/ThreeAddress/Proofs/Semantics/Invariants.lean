import ThreeAddress.Proofs.Semantics.Execution

/-!
# Invariants of runs

Facts about what an instruction can do to memory.  Addresses only come from instructions that
take them, so pointers stay confined to variables whose address is taken.  Variables keep their
types.  An instruction depends on the variables it reads and on those that pointers can reach, and
on nothing else.
-/

namespace ThreeAddress

open Environment Memory

variable {x : String} {d p : Datum} {i : Instr} {args : List Datum}

@[simp] theorem Memory.set_store_self (m : Memory) (x : String) (d : Datum) :
    (m.set x d).store x = d := by
  simp [set]

theorem Memory.set_store_of_ne (m : Memory) {y : String} (h : y ≠ x) (d : Datum) :
    (m.set x d).store y = m.store y := by
  simp [set, h]

/-! ### Where pointers can point to -/

/-- All pointers point to variables of the set. -/
structure Confined (names : Set String) (m : Memory) : Prop where
  origins : ∀ x, (m.store x).origins ⊆ names
  escaped : m.escaped ⊆ names

namespace Confined

variable {names : Set String} {e : Environment} {m m' : Memory}

section

variable (h : Confined names m)

include h

theorem eval_origins (v : Value) : (m.eval v).origins ⊆ names := by
  cases v with
  | const c => exact Set.empty_subset names
  | var v => exact h.origins v.name

theorem set (hd : d.origins ⊆ names) : Confined names (m.set x d) where
  origins := by
    intro y
    by_cases hy : y = x
    · subst hy
      rwa [set_store_self]
    · rw [set_store_of_ne m hy]
      exact h.origins y
  escaped := h.escaped

theorem load_origins {t : ScalarType} (hload : e.load m t p = some d) : d.origins ⊆ names := by
  simp only [load] at hload
  split at hload
  · split at hload
    · cases hload
      exact h.origins _
    · cases hload
  · obtain ⟨bits, -, rfl⟩ := Option.map_eq_some_iff.mp hload
    exact h.escaped
  · cases hload

/-- What an instruction assigns points to variables of the set, if the variable whose address it
takes is one of them. -/
theorem result_origins (haddressed : ∀ v, i.addressed? = some (.var v) → v.name ∈ names)
    (hresult : result? e m i = some d) : d.origins ⊆ names := by
  cases i with
  | unary dst op src | convert dst op src =>
    obtain ⟨c, -, rfl⟩ := Option.map_eq_some_iff.mp hresult
    exact h.eval_origins src
  | binary dst op lhs rhs =>
    obtain ⟨c, -, rfl⟩ := Option.map_eq_some_iff.mp hresult
    exact Set.union_subset (h.eval_origins lhs) (h.eval_origins rhs)
  | copy dst src =>
    cases hresult
    exact h.eval_origins src
  | addressOf dst src =>
    cases src with
    | const c => cases hresult
    | var v =>
      cases hresult
      exact Set.singleton_subset_iff.mpr (haddressed v rfl)
  | load dst ptr => exact h.load_origins hresult
  | _ => cases hresult

theorem reachable_subset (hstatics : e.statics ⊆ names) (hargs : ∀ d ∈ args, d.origins ⊆ names) :
    e.reachable m args ⊆ names := by
  intro x hx
  induction hx with
  | static hx => exact hstatics hx
  | escaped hx => exact h.escaped hx
  | argument hd hx => exact hargs _ hd hx
  | content _ hx _ => exact h.origins _ hx

theorem evals_origins (args : List Value) : ∀ d ∈ args.map m.eval, d.origins ⊆ names := by
  intro d hd
  obtain ⟨v, -, rfl⟩ := List.mem_map.mp hd
  exact h.eval_origins v

theorem afterCall (hstatics : e.statics ⊆ names) {callee : String}
    (hargs : ∀ d ∈ args, d.origins ⊆ names) (a : Answer) :
    Confined names (e.afterCall m callee args a) where
  origins := by
    intro x
    by_cases hmem : x ∈ e.reachable m args
    · rw [afterCall_store_of_mem hmem]
      exact h.reachable_subset hstatics hargs
    · rw [afterCall_store_of_not_mem hmem]
      exact h.origins x
  escaped := h.reachable_subset hstatics hargs

theorem receive (dst : Option Variable) (a : Answer) : Confined names (m.receive dst a) := by
  cases dst with
  | none => exact h
  | some v => exact h.set h.escaped

theorem execute (hstatics : e.statics ⊆ names)
    (haddressed : ∀ v, i.addressed? = some (.var v) → v.name ∈ names)
    (hnext : execute e m i = .next m') : Confined names m' := by
  rcases execute_next_cases hnext with ⟨rfl, -⟩ | ⟨v, d, -, -, hd, rfl⟩ |
    ⟨ptr, src, -, hwrite⟩ | ⟨dst, callee, args, a, -, rfl⟩
  · exact h
  · have hd' := h.result_origins haddressed hd
    exact h.set hd'
  · rcases write_cases hwrite with ⟨x, offset, -, rfl⟩ | rfl
    · exact h.set (Set.union_subset (h.origins x) (h.eval_origins src))
    · exact ⟨h.origins, Set.union_subset h.escaped (h.eval_origins src)⟩
  · exact (h.afterCall hstatics (h.evals_origins args) a).receive dst a

end

end Confined

/-! ### Types -/

/-- Every variable holds a value of its type. -/
def HoldsTypes (types : String → ScalarType) (m : Memory) : Prop :=
  ∀ x, (m.store x).value.type = types x

namespace HoldsTypes

variable {types : String → ScalarType} {e : Environment} {m m' : Memory}

section

variable (h : HoldsTypes types m)

include h

theorem set (hd : d.value.type = types x) : HoldsTypes types (m.set x d) := by
  intro y
  by_cases hy : y = x
  · subst hy
    rwa [set_store_self]
  · rw [set_store_of_ne m hy]
    exact h y

theorem afterCall (callee : String) (args : List Datum) (a : Answer) :
    HoldsTypes types (e.afterCall m callee args a) := by
  intro x
  by_cases hmem : x ∈ e.reachable m args
  · rw [afterCall_store_of_mem hmem]
    exact h x
  · rw [afterCall_store_of_not_mem hmem]
    exact h x

theorem receive {dst : Option Variable} (hdst : ∀ v, dst = some v → types v.name = v.type)
    (a : Answer) : HoldsTypes types (m.receive dst a) := by
  cases dst with
  | none => exact h
  | some v => exact h.set (hdst v rfl).symm

theorem execute (hwritten : ∀ v, i.written? = some v → types v.name = v.type)
    (hnext : execute e m i = .next m') : HoldsTypes types m' := by
  rcases execute_next_cases hnext with ⟨rfl, -⟩ | ⟨v, d, -, hv, -, rfl⟩ |
    ⟨ptr, src, -, hwrite⟩ | ⟨dst, callee, args, a, rfl, rfl⟩
  · exact h
  · exact h.set (hwritten v hv).symm
  · rcases write_cases hwrite with ⟨x, offset, -, rfl⟩ | rfl
    · exact h.set (h x)
    · exact h
  · exact (h.afterCall callee _ a).receive (fun v hv => hwritten v hv) a

theorem eval_var {v : Variable} (hv : types v.name = v.type) :
    m.eval (.var v) = m.store v.name := by
  have htype : (m.store v.name).value.type = v.type := (h v.name).trans hv
  simp [eval, Const.as_eq_self htype]

end

theorem assign_eq {v : Variable} (hd : d.value.type = v.type) : m.assign v d = m.set v.name d := by
  simp [assign, Const.as_eq_self hd]

end HoldsTypes

/-! ### What an instruction leaves alone -/

/-- Whether an instruction may change variables other than the one it names. -/
def Instr.mayChangeAliased : Instr → Bool
  | .call .. | .store .. => true
  | _ => false

/-- A call or a store changes variables of a set only, apart from the one it assigns. -/
def ChangesWithin (names : Set String) (i : Instr) (m m' : Memory) : Prop :=
  i.mayChangeAliased = true → ∀ x ∉ names, (∀ v, i.written? = some v → v.name ≠ x) →
    m'.store x = m.store x

/-- Calls and stores change what pointers can reach. -/
theorem Confined.changesWithin {names : Set String} {e : Environment} {m m' : Memory}
    (hconfined : Confined names m) (hstatics : e.statics ⊆ names)
    (hnext : ThreeAddress.execute e m i = .next m') : ChangesWithin names i m m' := by
  intro hmay x hx hwritten
  rcases execute_next_cases hnext with ⟨rfl, -⟩ | ⟨v, d, -, hv, -, rfl⟩ |
    ⟨ptr, src, rfl, hwrite⟩ | ⟨dst, callee, args, a, rfl, rfl⟩
  · rfl
  · exact set_store_of_ne m (hwritten v hv).symm _
  · rcases write_cases hwrite with ⟨y, offset, haccess, rfl⟩ | rfl
    · have hy : y ∈ names := haccess.1.elim (fun hy => hstatics hy)
        (fun hy => hconfined.eval_origins ptr hy)
      have hne : x ≠ y := by
        rintro rfl
        exact hx hy
      exact set_store_of_ne m hne _
    · rfl
  · have hx : x ∉ e.reachable m (args.map m.eval) := fun hmem =>
      hx (hconfined.reachable_subset hstatics (hconfined.evals_origins args) hmem)
    cases dst with
    | none => exact afterCall_store_of_not_mem hx
    | some v =>
      exact (set_store_of_ne _ (hwritten v rfl).symm _).trans (afterCall_store_of_not_mem hx)

/-- An instruction leaves a variable alone unless it assigns it, or changes variables of the set it
is in. -/
theorem execute_store_eq {names : Set String} {e : Environment} {m m' : Memory}
    (hchanges : ChangesWithin names i m m') (hnext : execute e m i = .next m')
    (hwritten : ∀ v, i.written? = some v → v.name ≠ x)
    (haliased : i.mayChangeAliased = true → x ∉ names) : m'.store x = m.store x := by
  rcases execute_next_cases hnext with ⟨rfl, -⟩ | ⟨v, d, -, hv, -, rfl⟩ |
    ⟨ptr, src, rfl, -⟩ | ⟨dst, callee, args, a, rfl, -⟩
  · rfl
  · exact set_store_of_ne m (hwritten v hv).symm _
  · exact hchanges rfl x (haliased rfl) hwritten
  · exact hchanges rfl x (haliased rfl) hwritten

/-! ### What an instruction depends on -/

/-- Memories that differ only in variables outside a set. -/
structure Agree (names : Set String) (m m' : Memory) : Prop where
  store : ∀ x ∈ names, m.store x = m'.store x
  escaped : m.escaped = m'.escaped
  trace : m.trace = m'.trace

/-- Outcomes that agree on a set of variables. -/
inductive OutcomesAgree (names : Set String) : Effect → Effect → Prop
  | next {m m' : Memory} (h : Agree names m m') : OutcomesAgree names (.next m) (.next m')
  | jump {m m' : Memory} (l : Label) (h : Agree names m m') :
    OutcomesAgree names (.jump l m) (.jump l m')
  | stop {m m' : Memory} (ending : Ending Result) (h : m.trace = m'.trace) :
    OutcomesAgree names (.stop m ending) (.stop m' ending)

namespace Agree

variable {names : Set String} {e : Environment} {m m' : Memory}

section

variable (h : Agree names m m')

include h

theorem eval {val : Value} (hval : ∀ v, val = .var v → v.name ∈ names) :
    m.eval val = m'.eval val := by
  cases val with
  | const c => rfl
  | var v => simp [Memory.eval, h.store v.name (hval v rfl)]

theorem set (x : String) (d : Datum) : Agree (insert x names) (m.set x d) (m'.set x d) where
  store := by
    intro y hy
    by_cases hxy : y = x
    · subst hxy
      rw [set_store_self, set_store_self]
    · rw [set_store_of_ne m hxy, set_store_of_ne m' hxy]
      exact h.store y (hy.resolve_left hxy)
  escaped := h.escaped
  trace := h.trace

theorem mono {names' : Set String} (hsub : names' ⊆ names) : Agree names' m m' :=
  ⟨fun x hx => h.store x (hsub hx), h.escaped, h.trace⟩

theorem contents_eq {xs : Set String} (hxs : xs ⊆ names) : m.contents xs = m'.contents xs := by
  ext ⟨x, c⟩
  refine and_congr_right fun hx => ?_
  rw [h.store x (hxs hx)]

theorem accessible_iff (hstatics : e.statics ⊆ names) (hp : p.origins ⊆ names) {offset size : Nat} :
    e.Accessible m p x offset size ↔ e.Accessible m' p x offset size := by
  refine and_congr_right fun hx => ?_
  rw [h.store x (hx.elim (fun hx => hstatics hx) (fun hx => hp hx))]

theorem load_eq (hstatics : e.statics ⊆ names) (hp : p.origins ⊆ names) (t : ScalarType) :
    e.load m t p = e.load m' t p := by
  have haccessible : ∀ {x : String} {offset size : Nat},
      e.Accessible m p x offset size ↔ e.Accessible m' p x offset size :=
        h.accessible_iff hstatics hp
  simp only [load, h.trace, h.escaped]
  split
  · rename_i x offset hregion
    by_cases haccess : e.Accessible m p x offset t.size
    · rw [if_pos haccess, if_pos (haccessible.mp haccess),
        h.store x (haccess.1.elim (fun hx => hstatics hx) (fun hx => hp hx))]
    · rw [if_neg haccess, if_neg (mt haccessible.mpr haccess)]
  · rfl
  · rfl

theorem result_eq (hconfined : Confined names m) (hstatics : e.statics ⊆ names)
    (hreads : ∀ v, .var v ∈ i.reads → v.name ∈ names) : result? e m i = result? e m' i := by
  have heval : ∀ val ∈ i.reads, m.eval val = m'.eval val := fun val hval =>
    h.eval fun v hv => hreads v (hv ▸ hval)
  cases i with
  | unary dst op src | convert dst op src | copy dst src =>
    simp only [result?, heval src (by simp [Instr.reads])]
  | binary dst op lhs rhs =>
    simp only [result?, heval lhs (by simp [Instr.reads]), heval rhs (by simp [Instr.reads])]
  | load dst ptr =>
    simp only [result?]
    rw [h.load_eq hstatics (hconfined.eval_origins ptr), heval ptr (by simp [Instr.reads])]
  | _ => rfl

theorem write (hstatics : e.statics ⊆ names) (hp : p.origins ⊆ names) (d : Datum) :
    (∃ m₁ m₁', e.write m p d = some m₁ ∧ e.write m' p d = some m₁' ∧ Agree names m₁ m₁') ∨
      (e.write m p d = none ∧ e.write m' p d = none) := by
  have haccessible : ∀ {x : String} {offset size : Nat},
      e.Accessible m p x offset size ↔ e.Accessible m' p x offset size :=
        h.accessible_iff hstatics hp
  simp only [Environment.write, ← h.trace]
  split
  · rename_i x offset hregion
    by_cases haccess : e.Accessible m p x offset d.value.type.size
    · have hx : x ∈ names := haccess.1.elim (fun hx => hstatics hx) (fun hx => hp hx)
      rw [if_pos haccess, if_pos (haccessible.mp haccess), ← h.store x hx]
      refine .inl ⟨_, _, rfl, rfl, ?_⟩
      exact (h.set x _).mono (Set.subset_insert x names)
    · rw [if_neg haccess, if_neg (mt haccessible.mpr haccess)]
      exact .inr ⟨rfl, rfl⟩
  · cases e.outside m.trace (p.value.bits.setWidth 64) d.value.type.size with
    | none => exact .inr ⟨rfl, rfl⟩
    | some bits =>
      refine .inl ⟨_, _, rfl, rfl, h.store, ?_, ?_⟩
      · simp [writeOutside, h.escaped]
      · simp [writeOutside, h.trace]
  · exact .inr ⟨rfl, rfl⟩

section

variable (hconfined : Confined names m) (hstatics : e.statics ⊆ names)
  (hargs : ∀ d ∈ args, d.origins ⊆ names)

include hconfined hstatics hargs

theorem reachable_eq : e.reachable m args = e.reachable m' args := by
  have hsub := hconfined.reachable_subset hstatics hargs
  ext x
  constructor
  · intro hx
    induction hx with
    | static hx => exact .static hx
    | escaped hx => exact .escaped (h.escaped ▸ hx)
    | argument hd hx => exact .argument hd hx
    | @content x y hy hx ih => exact .content ih (h.store y (hsub hy) ▸ hx)
  · intro hx
    induction hx with
    | static hx => exact .static hx
    | escaped hx => exact .escaped (h.escaped ▸ hx)
    | argument hd hx => exact .argument hd hx
    | @content x y hy hx ih => exact .content ih (h.store y (hsub ih) ▸ hx)

theorem afterCall (callee : String) (a : Answer) :
    Agree names (e.afterCall m callee args a) (e.afterCall m' callee args a) := by
  have hreachable := h.reachable_eq hconfined hstatics hargs
  have hevent : e.callEvent m callee args = e.callEvent m' callee args := by
    rw [callEvent, callEvent, ← hreachable,
      h.contents_eq (hconfined.reachable_subset hstatics hargs)]
  refine ⟨fun x hx => ?_, ?_, ?_⟩
  · by_cases hmem : x ∈ e.reachable m args
    · rw [afterCall_store_of_mem hmem,
        afterCall_store_of_mem (hreachable ▸ hmem), h.store x hx, hreachable]
    · rw [afterCall_store_of_not_mem hmem,
        afterCall_store_of_not_mem (hreachable ▸ hmem), h.store x hx]
  · simp only [Environment.afterCall, hreachable]
  · simp only [Environment.afterCall, hevent, h.trace]

end

theorem receive (dst : Option Variable) (a : Answer) :
    Agree (names ∪ {x | ∃ v, dst = some v ∧ v.name = x}) (m.receive dst a) (m'.receive dst a) := by
  cases dst with
  | none => exact h.mono (by simp)
  | some v =>
    simp only [Memory.receive, h.escaped]
    refine (h.set v.name _).mono ?_
    rintro x (hx | ⟨w, hw, rfl⟩)
    · exact .inr hx
    · cases hw
      exact .inl rfl

def written (i : Instr) : Set String := {x | ∃ v, i.written? = some v ∧ v.name = x}

/-- Memories that agree on what an instruction reads, and on all that pointers can reach, agree on
these and on what it assigns afterwards. -/
theorem execute (hconfined : Confined names m) (hstatics : e.statics ⊆ names)
    (hreads : ∀ v, .var v ∈ i.reads → v.name ∈ names) :
    OutcomesAgree (names ∪ written i) (execute e m i) (execute e m' i) := by
  have heval : ∀ val ∈ i.reads, m.eval val = m'.eval val := fun val hval =>
    h.eval fun v hv => hreads v (hv ▸ hval)
  have hkeep : i.written? = none → Agree (names ∪ written i) m m' :=
    fun hnone => h.mono (by simp [written, hnone])
  have hresult := h.result_eq hconfined hstatics hreads
  -- The instructions that only assign a variable assign the same to it.
  have hassign : ∀ {v : Variable}, i.written? = some v → OutcomesAgree (names ∪ written i)
      (m.assign? v (result? e m i)) (m'.assign? v (result? e m' i)) := by
    intro v hv
    rw [hresult]
    cases result? e m' i with
    | none => exact .stop .undefined h.trace
    | some d =>
      refine .next ((h.set v.name _).mono ?_)
      rintro x (hx | ⟨w, hw, rfl⟩)
      · exact .inr hx
      · rw [hv] at hw
        cases hw
        exact .inl rfl
  cases i with
  | unary | binary | copy | addressOf | load | convert => exact hassign rfl
  | ret value =>
    have hvalue : finish e m value = finish e m' value := by
      rw [finish, finish, h.contents_eq hstatics]
      cases value with
      | none => rfl
      | some val => simp [heval val (by simp [Instr.reads])]
    simp only [execute, hvalue]
    exact .stop _ h.trace
  | jump l => exact .jump l (hkeep rfl)
  | label l => exact .next (hkeep rfl)
  | jumpIfZero cond l =>
    simp only [execute, heval cond (by simp [Instr.reads])]
    split
    · exact .jump l (hkeep rfl)
    · exact .next (hkeep rfl)
  | jumpIfNotZero cond l =>
    simp only [execute, heval cond (by simp [Instr.reads])]
    split
    · exact .next (hkeep rfl)
    · exact .jump l (hkeep rfl)
  | store ptr src =>
    simp only [execute, heval src (by simp [Instr.reads]),
      ← heval ptr (by simp [Instr.reads])]
    rcases h.write hstatics (hconfined.eval_origins ptr) (m'.eval src) with
      ⟨m₁, m₁', h₁, h₁', hagree⟩ | ⟨h₁, h₁'⟩
    · rw [h₁, h₁']
      exact .next (hagree.mono (by simp [written, Instr.written?]))
    · rw [h₁, h₁']
      exact .stop _ h.trace
  | call dst callee args =>
    have hargs : args.map m'.eval = args.map m.eval :=
      List.map_congr_left fun val hval => (heval val hval).symm
    have horigins := hconfined.evals_origins args
    have hevent : e.callEvent m' callee (args.map m.eval) =
      e.callEvent m callee (args.map m.eval) := by
      rw [callEvent, callEvent, ← h.reachable_eq hconfined hstatics horigins,
        h.contents_eq (hconfined.reachable_subset hstatics horigins)]
    simp only [execute, call, hargs, hevent, ← h.trace]
    cases e.respond (m.trace ++ [e.callEvent m callee (args.map m.eval)]) with
    | none => exact .stop _ rfl
    | some a => exact .next ((h.afterCall hconfined hstatics horigins callee a).receive dst a)

end

end Agree

end ThreeAddress
