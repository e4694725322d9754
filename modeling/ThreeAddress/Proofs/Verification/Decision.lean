import Mathlib.Order.Bounds.Basic
import ThreeAddress.Proofs.Verification.Accepted

/-!
# What verification decides

Verification goes through a function once, with a table of types that grows along the body.  What it
decides can be said without an order: every instruction obeys its rules, and all of them agree on
the types of names.  A program is accepted exactly if this holds of all its functions.  Otherwise
the first function of which it does not hold is reported, and the first position at which it could
be noticed.
-/

namespace ThreeAddress

open ScalarType Instr List Option

variable {n : Nat}

/-! ### Rules -/

/-- An operator with the types of its operand and its result. -/
inductive UnaryOp.HasTypes : UnaryOp → ScalarType → ScalarType → Prop
  | not {t : ScalarType} : HasTypes .not t .int
  | negate {t : ScalarType} : HasTypes .negate t t
  | complement {t : ScalarType} (h : t ≠ .double) : HasTypes .complement t t

/-- An operator with the types of its operands and its result. -/
inductive BinaryOp.HasTypes (op : BinaryOp) : ScalarType → ScalarType → ScalarType → Prop
  | shift {t count : ScalarType} (hop : op.isShift = true) (ht : t ≠ .double)
    (hcount : count ∉ [.double, .pointer]) : HasTypes op t count t
  | comparison {t : ScalarType} (hop : op.isComparison = true) : HasTypes op t t .int
  | other {t : ScalarType} (hshift : op.isShift = false) (hcomparison : op.isComparison = false)
    (ht : op.isIntegerOnly = true → t ≠ .double) : HasTypes op t t t

/-- A conversion with the types that it converts from and to. -/
inductive Conversion.HasTypes : Conversion → ScalarType → ScalarType → Prop
  | extend {c : Conversion} {src dst : ScalarType} (hc : c ∈ [signExtend, zeroExtend])
    (hsrc : src ≠ .double) (hdst : dst ≠ .double) (hsize : src.size < dst.size) :
    HasTypes c src dst
  | truncate {src dst : ScalarType} (hsrc : src ≠ .double) (hdst : dst ≠ .double)
    (hsize : dst.size < src.size) : HasTypes .truncate src dst
  | toDouble {c : Conversion} {t : ScalarType} (hc : c ∈ [intToDouble, uintToDouble])
    (ht : t ∉ [.double, .pointer]) : HasTypes c t .double
  | ofDouble {c : Conversion} {t : ScalarType} (hc : c ∈ [doubleToInt, doubleToUInt])
    (ht : t ∉ [.double, .pointer]) : HasTypes c .double t

namespace Instr

/-- The values an instruction mentions. -/
inductive Mentions (i : Instr) : Value → Prop
  | written {v : Variable} (h : i.written? = some v) : Mentions i (.var v)
  | read {x : Value} (h : x ∈ i.reads) : Mentions i x
  | addressed {x : Value} (h : i.addressed? = some x) : Mentions i x

section

variable (returns : Option ScalarType) (arity : String → Nat → Prop)

/-- The typing rule of every form, in a function that returns `returns`.  Callees have the given
numbers of parameters, as far as they are known. -/
inductive HasTypes : Instr → Prop
  | ret {value : Option Value} (h : value.map Value.type = returns) : HasTypes (.ret value)
  | unary {dst : Variable} {op : UnaryOp} {src : Value} (h : op.HasTypes src.type dst.type) :
    HasTypes (.unary dst op src)
  | binary {dst : Variable} {op : BinaryOp} {lhs rhs : Value}
    (h : op.HasTypes lhs.type rhs.type dst.type) : HasTypes (.binary dst op lhs rhs)
  | copy {dst : Variable} {src : Value} (hsize : dst.type.size = src.type.size)
    (hdouble : dst.type = .double ↔ src.type = .double) : HasTypes (.copy dst src)
  | addressOf {dst v : Variable} (h : dst.type = .pointer) : HasTypes (.addressOf dst (.var v))
  | load {dst : Variable} {ptr : Value} (h : ptr.type = .pointer) : HasTypes (.load dst ptr)
  | store {ptr src : Value} (h : ptr.type = .pointer) : HasTypes (.store ptr src)
  | jump {l : Label} : HasTypes (.jump l)
  | jumpIfZero {cond : Value} {l : Label} : HasTypes (.jumpIfZero cond l)
  | jumpIfNotZero {cond : Value} {l : Label} : HasTypes (.jumpIfNotZero cond l)
  | label {l : Label} : HasTypes (.label l)
  | call {dst : Option Variable} {callee : String} {args : List Value}
    (h : ∀ n, arity callee n → args.length = n) : HasTypes (.call dst callee args)
  | convert {dst : Variable} {c : Conversion} {src : Value} (h : c.HasTypes src.type dst.type) :
    HasTypes (.convert dst c src)

end

end Instr

/-- The number of parameters of the last function of a name. -/
def Program.HasArity (p : Program) (callee : String) (n : Nat) : Prop :=
  ∃ before f after, p.functions = before ++ f :: after ∧ f.name = callee ∧
    (∀ g ∈ after, g.name ≠ callee) ∧ f.params.length = n

namespace Function

variable (p : Program) (floatingPoint : Bool) (f : Function)

/-- The instructions obey the rules for the body of a function. -/
structure Obeys (code : Listing Instr) : Prop where
  noDouble : floatingPoint = true ∨ ∀ i ∈ code, ∀ x, i.Mentions x → x.type ≠ .double
  targets : ∀ i ∈ code, ∀ l, i.target? = some l → .label l ∈ f.body
  declared : ∀ i ∈ code, ∀ v, i.Mentions (.var v) → ∀ t,
    declaredType? f.params p.statics v.name = some t → v.type = t
  /-- A name has one type. -/
  consistent : ∀ i ∈ code, ∀ j ∈ code, ∀ v w, i.Mentions (.var v) → j.Mentions (.var w) →
    v.name = w.name → v.type = w.type
  types : ∀ i ∈ code, i.HasTypes f.returnType p.HasArity

/-- The positions of labels that are defined before. -/
def repeatedLabels : Set Nat :=
  {n | ∃ l, f.body[n]? = some (.label l) ∧ ∃ m < n, f.body[m]? = some (.label l)}

/-- The positions up to which the body does not obey the rules. -/
def violations : Set Nat :=
  {n | n < f.body.length ∧ ¬ f.Obeys p floatingPoint (f.body.take (n + 1))}

/-- A function without defects. -/
structure IsWellFormed : Prop where
  labels : f.repeatedLabels = ∅
  params : (f.params.map Variable.name).Nodup
  obeys : f.Obeys p floatingPoint f.body

/-- Where a defect of a function is reported. -/
inductive ReportedAt : Nat → Prop
  | label {n : Nat} (h : IsLeast f.repeatedLabels n) : ReportedAt n
  | parameter (hlabels : f.repeatedLabels = ∅) (h : ¬ (f.params.map Variable.name).Nodup) :
    ReportedAt 0
  | instruction {n : Nat} (hlabels : f.repeatedLabels = ∅)
    (hparams : (f.params.map Variable.name).Nodup) (h : IsLeast (f.violations p floatingPoint) n) :
    ReportedAt n

end Function

/-- A program without defects, which uses no feature that is switched off. -/
structure Program.IsWellFormed (p : Program) (c : Config) : Prop where
  statics : c.floatingPoint = true ∨ ∀ s ∈ p.statics, s.type ≠ .double
  functions : ∀ f ∈ p.functions, f.IsWellFormed p c.floatingPoint

variable {p : Program} {floatingPoint : Bool} {f : Function}

/-! ### Instructions -/

theorem Program.arity?_eq_some_iff {callee : String} :
    p.arity? callee = some n ↔ p.HasArity callee n := by
  simp only [arity?, findRev?_eq_find?_reverse, map_eq_some_iff, find?_eq_some_iff_append]
  constructor
  · rintro ⟨f, ⟨hname, after, before, hfunctions, hafter⟩, rfl⟩
    refine ⟨before.reverse, f, after.reverse, ?_, eq_of_beq hname, fun g hg => ?_, rfl⟩
    · simpa using congrArg reverse hfunctions
    · simpa using hafter g (mem_reverse.mp hg)
  · rintro ⟨before, f, after, hfunctions, rfl, hafter, rfl⟩
    refine ⟨f, ⟨by simp, after.reverse, before.reverse, by simp [hfunctions], fun g hg => ?_⟩, rfl⟩
    simpa using hafter g (mem_reverse.mp hg)

theorem ScalarType.isInteger_iff (t : ScalarType) :
    t.isInteger = true ↔ t ∉ [.double, .pointer] := by
  cases t <;> decide

theorem ScalarType.copiesTo_iff (src dst : ScalarType) :
    src.copiesTo dst = true ↔ dst.size = src.size ∧ (dst = .double ↔ src = .double) := by
  cases src <;> cases dst <;> decide

theorem UnaryOp.hasTypes_of_typeDefect? {returns : Option ScalarType} {arity? : String → Option Nat}
    {op : UnaryOp} {dst : Variable} {src : Value}
    (h : (Instr.unary dst op src).typeDefect? returns arity? = none) :
    op.HasTypes src.type dst.type := by
  cases op with
  | not => exact eq_of_mismatch? h ▸ .not
  | negate => exact eq_of_mismatch? h ▸ .negate
  | complement =>
    simp only [typeDefect?] at h
    split at h
    · cases h
    · rename_i hdouble
      rw [eq_of_mismatch? h]
      exact .complement (mt (isDouble_iff _).mpr hdouble)

theorem BinaryOp.hasTypes_iff {op : BinaryOp} {dst lhs rhs : ScalarType} :
    binaryDefect? dst op lhs rhs = none ↔ op.HasTypes lhs rhs dst := by
  have hshifts : op.isShift = true → op.isIntegerOnly = true ∧ op.isComparison = false := by
    cases op <;> decide
  have hcomparisons : op.isComparison = true → op.isIntegerOnly = false ∧ op.isShift = false := by
    cases op <;> decide
  rw [binaryDefect?_eq_none_iff, isInteger_iff]
  constructor
  · rintro ⟨hinteger, hrhs, rfl⟩
    by_cases hshift : op.isShift = true
    · rw [if_pos hshift] at hrhs
      rw [(hshifts hshift).2]
      exact .shift hshift (hinteger (hshifts hshift).1).1 hrhs
    · rw [if_neg hshift] at hrhs
      subst hrhs
      split
      · exact .comparison ‹_›
      · rename_i hcomparison
        exact .other (Bool.eq_false_iff.mpr hshift) (Bool.eq_false_iff.mpr hcomparison)
          fun h => (hinteger h).1
  · rintro (⟨hop, ht, hcount⟩ | hop | ⟨hshift, hcomparison, ht⟩) <;> simp_all

theorem Conversion.isValid_iff {c : Conversion} {src dst : ScalarType} :
    c.isValid src dst = true ↔ c.HasTypes src dst := by
  constructor
  · intro h
    cases c <;> simp only [isValid, Bool.and_eq_true, Bool.not_eq_true', isInteger_iff,
      ← Bool.not_eq_true, isDouble_iff, decide_eq_true_eq] at h
    · exact .extend (by decide) h.1.1 h.1.2 h.2
    · exact .extend (by decide) h.1.1 h.1.2 h.2
    · exact .truncate h.1.1 h.1.2 h.2
    · exact h.2 ▸ .toDouble (by decide) h.1
    · exact h.2 ▸ .toDouble (by decide) h.1
    · exact h.1 ▸ .ofDouble (by decide) h.2
    · exact h.1 ▸ .ofDouble (by decide) h.2
  · rintro (⟨hc, hsrc, hdst, hsize⟩ | ⟨hsrc, hdst, hsize⟩ | ⟨hc, ht⟩ | ⟨hc, ht⟩)
    · cases c <;> simp_all [isValid, isDouble]
    · simp [isValid, isDouble, hsrc, hdst, hsize]
    · rw [← isInteger_iff] at ht
      cases c <;> simp_all [isValid, isDouble]
    · rw [← isInteger_iff] at ht
      cases c <;> simp_all [isValid, isDouble]

theorem Value.var?_eq_some_iff {x : Value} {v : Variable} : x.var? = some v ↔ x = .var v := by
  cases x <;> simp [var?]

namespace Instr

variable {i : Instr}

theorem mem_variables_iff {v : Variable} : v ∈ i.variables ↔ i.Mentions (.var v) := by
  simp only [Instr.variables, readVars, mem_append, mem_toList, mem_filterMap,
    bind_eq_some_iff, Value.var?_eq_some_iff, exists_eq_right]
  constructor
  · rintro ((h | h) | h)
    exacts [.written h, .read h, .addressed h]
  · rintro (h | h | h)
    exacts [.inl (.inl h), .inl (.inr h), .inr h]

theorem usesDouble_iff : i.usesDouble = true ↔ ∃ x, i.Mentions x ∧ x.type = .double := by
  simp only [usesDouble, Bool.or_eq_true, Option.any_eq_true, List.any_eq_true,
    isDouble_iff]
  constructor
  · rintro ((⟨v, hv, h⟩ | ⟨x, hx, h⟩) | ⟨x, hx, h⟩)
    exacts [⟨.var v, .written hv, h⟩, ⟨x, .read hx, h⟩, ⟨x, .addressed hx, h⟩]
  · rintro ⟨_, hv | hx | hx, h⟩
    exacts [.inl (.inl ⟨_, hv, h⟩), .inl (.inr ⟨_, hx, h⟩), .inr ⟨_, hx, h⟩]

theorem typeDefect?_eq_none_iff {returns : Option ScalarType} :
    i.typeDefect? returns p.arity? = none ↔ i.HasTypes returns p.HasArity := by
  constructor
  · intro h
    cases i with
    | ret value => exact .ret (by simpa [typeDefect?] using h)
    | unary dst op src => exact .unary (UnaryOp.hasTypes_of_typeDefect? h)
    | binary dst op lhs rhs => exact .binary (BinaryOp.hasTypes_iff.mp h)
    | copy dst src =>
      have hcopies : src.type.copiesTo dst.type = true := by simpa [typeDefect?] using h
      rw [copiesTo_iff] at hcopies
      exact .copy hcopies.1 hcopies.2
    | addressOf dst src =>
      cases src with
      | const c => cases h
      | var v => exact .addressOf (eq_of_mismatch? h)
    | load dst ptr => exact .load (eq_of_mismatch? h)
    | store ptr src => exact .store (eq_of_mismatch? h)
    | jump l => exact .jump
    | jumpIfZero cond l => exact .jumpIfZero
    | jumpIfNotZero cond l => exact .jumpIfNotZero
    | label l => exact .label
    | call dst callee args =>
      refine .call fun n hn => ?_
      rw [← Program.arity?_eq_some_iff] at hn
      simpa [typeDefect?, hn, eq_comm] using h
    | convert dst c src => exact .convert (Conversion.isValid_iff.mp (isValid_of_typeDefect? h))
  · intro h
    cases h with
    | ret h => simpa [typeDefect?] using h
    | @unary dst op src h =>
      generalize hdst : dst.type = t' at h
      cases h <;> simp_all [typeDefect?, mismatch?, isDouble]
    | binary h => exact BinaryOp.hasTypes_iff.mpr h
    | copy hsize hdouble => simp [typeDefect?, (copiesTo_iff _ _).mpr ⟨hsize, hdouble⟩]
    | addressOf h | load h | store h => simpa [typeDefect?, mismatch?] using h
    | jump | jumpIfZero | jumpIfNotZero | label => rfl
    | @call dst callee args h =>
      cases hn : p.arity? callee with
      | none => simp [typeDefect?, hn]
      | some n => simp [typeDefect?, hn, h n (Program.arity?_eq_some_iff.mp hn)]
    | convert h => simpa [typeDefect?] using Conversion.isValid_iff.mpr h

end Instr

/-! ### Repetitions -/

section

variable {α : Type} {seen : List α} {entries : List (Nat × α)}

/-- The positions of entries whose content occurred before. -/
def repeats (seen : List α) (entries : List (Nat × α)) : Set Nat :=
  {n | ∃ a, (n, a) ∈ entries ∧ (a ∈ seen ∨ ∃ m < n, (m, a) ∈ entries)}

theorem repeats_cons {k : Nat} {b : α} (hb : b ∉ seen) (hfirst : ∀ entry ∈ entries, k < entry.1) :
    repeats seen ((k, b) :: entries) = repeats (b :: seen) entries := by
  ext n
  constructor
  · rintro ⟨a, _ | ⟨_, ha⟩, hbefore⟩
    · -- No entry is before the first.
      rcases hbefore with ha | ⟨m, hm, _ | ⟨_, ha⟩⟩
      · exact absurd ha hb
      · exact absurd hm (Nat.lt_irrefl k)
      · exact absurd (hfirst _ ha) hm.asymm
    · refine ⟨a, ha, ?_⟩
      rcases hbefore with ha' | ⟨m, hm, _ | ⟨_, ha'⟩⟩
      · exact .inl (.tail _ ha')
      · exact .inl (.head _)
      · exact .inr ⟨m, hm, ha'⟩
  · rintro ⟨a, ha, (_ | ⟨_, ha'⟩) | ⟨m, hm, ha'⟩⟩
    · exact ⟨b, .tail _ ha, .inr ⟨k, hfirst _ ha, .head _⟩⟩
    · exact ⟨a, .tail _ ha, .inl ha'⟩
    · exact ⟨a, .tail _ ha, .inr ⟨m, hm, .tail _ ha'⟩⟩

theorem firstRepeat?_cases [DecidableEq α] (seen : List α)
    (hsorted : entries.Pairwise (·.1 < ·.1)) :
    (firstRepeat? seen entries = none ∧ repeats seen entries = ∅) ∨
      ∃ n a, firstRepeat? seen entries = some (n, a) ∧ IsLeast (repeats seen entries) n := by
  induction entries generalizing seen with
  | nil => exact .inl ⟨rfl, by simp [repeats]⟩
  | cons entry rest ih =>
    obtain ⟨k, b⟩ := entry
    obtain ⟨hfirst, hrest⟩ := pairwise_cons.mp hsorted
    rw [firstRepeat?]
    by_cases hb : b ∈ seen
    · rw [if_pos hb]
      refine .inr ⟨k, b, rfl, ⟨b, .head _, .inl hb⟩, ?_⟩
      rintro n ⟨a, _ | ⟨_, ha⟩, -⟩
      · exact Nat.le_refl k
      · exact (hfirst _ ha).le
    · rw [if_neg hb, repeats_cons hb hfirst]
      exact ih (b :: seen) hrest

end

theorem mem_numbered {body : Listing Instr} {i : Instr} :
    (n, i) ∈ body.numbered ↔ body[n]? = some i := by
  simp [Listing.numbered, mem_zipIdx_iff_getElem?]

theorem Function.repeatedLabels_eq (f : Function) :
    f.repeatedLabels = repeats [] (definedLabels f.body) := by
  have hmem {n : Nat} {l : Label} :
      (n, l) ∈ definedLabels f.body ↔ f.body[n]? = some (.label l) := by
    simp only [definedLabels, mem_filterMap, Prod.exists, mem_numbered, map_eq_some_iff]
    constructor
    · rintro ⟨n', i, hi, l', hl, heq⟩
      cases heq
      cases i <;> cases hl
      exact hi
    · exact fun h => ⟨n, _, h, l, rfl, rfl⟩
  simp [repeatedLabels, repeats, hmem]

theorem sorted_definedLabels (body : Listing Instr) :
    (definedLabels body).Pairwise (·.1 < ·.1) := by
  have hsorted : body.numbered.Pairwise (·.1 < ·.1) := by
    rw [← pairwise_map]
    simp [Listing.numbered, Function.comp_def, zipIdx_map_snd, pairwise_lt_range']
  refine hsorted.filterMap _ fun a b hab a' ha' b' hb' => ?_
  obtain ⟨_, -, rfl⟩ := map_eq_some_iff.mp ha'
  obtain ⟨_, -, rfl⟩ := map_eq_some_iff.mp hb'
  exact hab

/-! ### Bodies -/

theorem Function.Obeys.subset {code code' : Listing Instr} (h : f.Obeys p floatingPoint code)
    (hsub : code' ⊆ code) : f.Obeys p floatingPoint code' where
  noDouble := h.noDouble.imp_right fun hall i hi => hall i (hsub hi)
  targets i hi := h.targets i (hsub hi)
  declared i hi := h.declared i (hsub hi)
  consistent i hi j hj := h.consistent i (hsub hi) j (hsub hj)
  types i hi := h.types i (hsub hi)

theorem Function.Obeys.exists_types {code : Listing Instr} (h : f.Obeys p floatingPoint code) :
    ∃ types : String → ScalarType,
      (∀ x t, declaredType? f.params p.statics x = some t → types x = t) ∧
      ∀ i ∈ code, ∀ v, i.Mentions (.var v) → types v.name = v.type := by
  have hexists : ∀ x, ∃ t, (∀ t', declaredType? f.params p.statics x = some t' → t = t') ∧
      ∀ i ∈ code, ∀ v, i.Mentions (.var v) → x = v.name → t = v.type := by
    intro x
    by_cases hx : ∃ i ∈ code, ∃ v, i.Mentions (.var v) ∧ x = v.name
    · obtain ⟨i, hi, v, hv, rfl⟩ := hx
      exact ⟨v.type, h.declared i hi v hv, fun j hj w hw => h.consistent i hi j hj v w hv hw⟩
    · refine ⟨(declaredType? f.params p.statics x).getD .int, fun t ht => by rw [ht]; rfl, ?_⟩
      exact fun i hi v hv hname => absurd ⟨i, hi, v, hv, hname⟩ hx
  choose types htypes using hexists
  exact ⟨types, fun x => (htypes x).1, fun i hi v hv => (htypes v.name).2 i hi v hv rfl⟩

theorem checkFrom_eq_ok_iff (hparams : (f.params.map Variable.name).Nodup)
    {entries : List (Nat × Instr)} :
    (p.surroundings floatingPoint f).checkFrom (.initial f.params p.statics) entries = .ok () ↔
      f.Obeys p floatingPoint (entries.map Prod.snd) := by
  have hdeclared := TypeTable.getElem?_initial hparams p.statics
  have hlabels {l : Label} : l ∈ (p.surroundings floatingPoint f).labels ↔ .label l ∈ f.body := by
    rw [← mem_labels_iff, ← map_snd_definedLabels]
    rfl
  constructor
  · -- The table after the last instruction has the type of every name.
    intro h
    obtain ⟨⟨final, hfinal⟩, hall⟩ := Surroundings.checkFrom_eq_ok_iff.mp h
    obtain ⟨hextends, htypes⟩ := TypeTable.foldlM_use?_eq_ok hfinal
    have htype {i : Instr} (hi : i ∈ entries.map Prod.snd) {v : Variable}
        (hv : i.Mentions (.var v)) : final[v.name]? = some v.type :=
      htypes v (mem_flatMap.mpr ⟨i, hi, mem_variables_iff.mpr hv⟩)
    constructor
    case noDouble =>
      refine or_iff_not_imp_left.mpr fun hoff i hi x hx hdouble => ?_
      have hnone := (hall i hi).noDouble.resolve_left hoff
      cases hnone.symm.trans (usesDouble_iff.mpr ⟨x, hx, hdouble⟩)
    case targets => exact fun i hi l hl => hlabels.mp ((hall i hi).target_defined l hl)
    case declared =>
      intro i hi v hv t ht
      have hfinal := hextends v.name t ((hdeclared v.name).trans ht)
      exact some.inj ((htype hi hv).symm.trans hfinal)
    case consistent =>
      intro i hi j hj v w hv hw hname
      exact some.inj ((htype hi hv).symm.trans (hname ▸ htype hj hw))
    case types => exact fun i hi => typeDefect?_eq_none_iff.mp (hall i hi).typeDefect?_eq
  · -- The types that all agree on bound every table on the way.
    intro h
    obtain ⟨types, hwithin, hnames⟩ := h.exists_types
    have hinitial : (TypeTable.initial f.params p.statics).Within types :=
      fun x t ht => hwithin x t ((hdeclared x).symm.trans ht)
    obtain ⟨final, hfinal, -⟩ := TypeTable.foldlM_use?_of_within hinitial fun v hv => by
      obtain ⟨i, hi, hv⟩ := mem_flatMap.mp hv
      exact hnames i hi v (mem_variables_iff.mp hv)
    refine Surroundings.checkFrom_eq_ok_iff.mpr ⟨⟨final, hfinal⟩, fun i hi =>
      ⟨typeDefect?_eq_none_iff.mpr (h.types i hi),
        fun l hl => hlabels.mpr (h.targets i hi l hl), h.noDouble.imp_right fun hall => ?_⟩⟩
    rw [← Bool.not_eq_true, usesDouble_iff]
    exact fun ⟨x, hx, hdouble⟩ => hall i hi x hx hdouble

namespace Surroundings

variable {s : Surroundings} {types : TypeTable} {r : Rejection}

theorem check_eq_error {i : Instr} (h : s.check types n i = .error r) :
    r.function = s.function ∧ r.position = n := by
  unfold check at h
  iterate 4
    split at h
    · cases h
      exact ⟨rfl, rfl⟩
  cases h

theorem checkFrom_eq_error {entries : List (Nat × Instr)}
    (h : s.checkFrom types entries = .error r) :
    r.function = s.function ∧ ∃ n entry, entries[n]? = some entry ∧ r.position = entry.1 ∧
      s.checkFrom types (entries.take n) = .ok () ∧
      s.checkFrom types (entries.take (n + 1)) = .error r := by
  induction entries generalizing types with
  | nil => cases h
  | cons entry rest ih =>
    obtain ⟨k, i⟩ := entry
    rw [checkFrom] at h
    cases hcheck : s.check types k i with
    | error r' =>
      rw [hcheck] at h
      cases h
      obtain ⟨hfunction, hposition⟩ := check_eq_error hcheck
      exact ⟨hfunction, 0, (k, i), rfl, hposition, rfl, by simp [checkFrom, hcheck]⟩
    | ok next =>
      rw [hcheck] at h
      obtain ⟨hfunction, n, entry, hentry, hposition, hok, herror⟩ := ih h
      exact ⟨hfunction, n + 1, entry, hentry, hposition, by simp [checkFrom, hcheck, hok],
        by simp [checkFrom, hcheck, herror]⟩

end Surroundings

/-! ### Functions and programs -/

theorem Function.ReportedAt.not_isWellFormed (h : f.ReportedAt p floatingPoint n) :
    ¬ f.IsWellFormed p floatingPoint := by
  rintro ⟨hlabels, hparams, hobeys⟩
  cases h with
  | label h => exact (hlabels ▸ h.1 : n ∈ (∅))
  | parameter _ h => exact h hparams
  | instruction _ _ h => exact h.1.2 (hobeys.subset (take_subset _ _))

/-- The instructions of a function are accepted if they obey the rules, and the first position up to
which they do not is reported otherwise. -/
theorem checkFrom_cases (hlabels : f.repeatedLabels = ∅)
    (hparams : (f.params.map Variable.name).Nodup) {result : Except Rejection Unit}
    (h : (p.surroundings floatingPoint f).checkFrom (.initial f.params p.statics)
      f.body.numbered = result) :
    (result = .ok () ∧ f.IsWellFormed p floatingPoint) ∨
      ∃ r, result = .error r ∧ r.function = f.name ∧ f.ReportedAt p floatingPoint r.position := by
  have htake (n : Nat) : (p.surroundings floatingPoint f).checkFrom (.initial f.params p.statics)
      (f.body.numbered.take n) = .ok () ↔ f.Obeys p floatingPoint (f.body.take n) := by
    rw [checkFrom_eq_ok_iff hparams, map_take, map_snd_numbered]
  cases result with
  | ok _ =>
    rw [checkFrom_eq_ok_iff hparams, map_snd_numbered] at h
    exact .inl ⟨rfl, hlabels, hparams, h⟩
  | error r =>
    obtain ⟨hname, n, ⟨k, i⟩, hentry, hposition, hok, herror⟩ := Surroundings.checkFrom_eq_error h
    obtain ⟨hi, rfl⟩ : f.body[n]? = some i ∧ n = k := by
      simpa [Listing.numbered] using hentry
    refine .inr ⟨r, rfl, hname, .instruction hlabels hparams ⟨⟨?_, fun hobeys => ?_⟩, ?_⟩⟩
    · exact hposition ▸ (List.getElem?_eq_some_iff.mp hi).1
    · rw [hposition, ← htake, herror] at hobeys
      cases hobeys
    · rintro m ⟨-, hm⟩
      refine Nat.le_of_not_lt fun hlt => hm (((htake n).mp hok).subset ?_)
      exact take_subset_take_left _ (by omega)

theorem Program.verifyFunction_cases (p : Program) (floatingPoint : Bool) (f : Function) :
    (p.verifyFunction floatingPoint f = .ok () ∧ f.IsWellFormed p floatingPoint) ∨
      ∃ r, p.verifyFunction floatingPoint f = .error r ∧ r.function = f.name ∧
        f.ReportedAt p floatingPoint r.position := by
  rw [verifyFunction]
  rcases firstRepeat?_cases [] (sorted_definedLabels f.body) with
    ⟨hrepeat, hlabels⟩ | ⟨n, l, hrepeat, hleast⟩
  · rw [← f.repeatedLabels_eq] at hlabels
    rw [hrepeat]
    cases hnames : firstRepeat? [] (Listing.numbered (f.params.map (·.name))) with
    | some entry =>
      refine .inr ⟨_, rfl, rfl, .parameter hlabels fun hnodup => ?_⟩
      cases hnames.symm.trans ((firstRepeat?_params _).mpr hnodup)
    | none => exact checkFrom_cases hlabels ((firstRepeat?_params _).mp hnames) rfl
  · rw [← f.repeatedLabels_eq] at hleast
    rw [hrepeat]
    exact .inr ⟨_, rfl, rfl, .label hleast⟩

theorem Program.verifyFunctions_cases (p : Program) (floatingPoint : Bool) (fs : List Function) :
    (p.verifyFunctions floatingPoint fs = .ok () ∧ ∀ f ∈ fs, f.IsWellFormed p floatingPoint) ∨
      ∃ before f after r, fs = before ++ f :: after ∧
        (∀ g ∈ before, g.IsWellFormed p floatingPoint) ∧
        p.verifyFunctions floatingPoint fs = .error r ∧ r.function = f.name ∧
        f.ReportedAt p floatingPoint r.position := by
  induction fs with
  | nil => exact .inl ⟨rfl, by simp⟩
  | cons f rest ih =>
    rw [verifyFunctions]
    rcases p.verifyFunction_cases floatingPoint f with ⟨hok, hf⟩ | ⟨r, herror, hname, hposition⟩
    · rw [hok]
      rcases ih with ⟨hrest, hall⟩ | ⟨before, g, after, r, rfl, hall, hreport⟩
      · exact .inl ⟨hrest, forall_mem_cons.mpr ⟨hf, hall⟩⟩
      · exact .inr ⟨f :: before, g, after, r, rfl, forall_mem_cons.mpr ⟨hf, hall⟩, hreport⟩
    · rw [herror]
      exact .inr ⟨[], f, rest, r, rfl, by simp, rfl, hname, hposition⟩

/-- Verification accepts exactly the programs without defects.  If the statics are not the reason to
reject a program, the first function with a defect is reported, and where it is noticed first. -/
theorem Program.verify_decides (p : Program) (c : Config) :
    (p.verify c = .ok () ↔ p.IsWellFormed c) ∧
      ((c.floatingPoint = true ∨ ∀ s ∈ p.statics, s.type ≠ .double) → ¬ p.IsWellFormed c →
        ∃ before f after r, p.functions = before ++ f :: after ∧
          (∀ g ∈ before, g.IsWellFormed p c.floatingPoint) ∧
          ¬ f.IsWellFormed p c.floatingPoint ∧ p.verify c = .error r ∧ r.function = f.name ∧
          f.ReportedAt p c.floatingPoint r.position) := by
  have hstatics : (p.statics.find? fun s => !c.floatingPoint && s.type.isDouble) = none ↔
      c.floatingPoint = true ∨ ∀ s ∈ p.statics, s.type ≠ .double := by
    cases c.floatingPoint <;> simp [isDouble]
  -- Statics are checked first, and a defect there hides those of the functions.
  unfold verify
  cases hfind : p.statics.find? fun s => !c.floatingPoint && s.type.isDouble with
  | some s =>
    have hrejected : ¬ (c.floatingPoint = true ∨ ∀ s ∈ p.statics, s.type ≠ .double) := by
      simp [← hstatics, hfind]
    exact ⟨⟨by simp, fun h => absurd h.statics hrejected⟩, fun h => absurd h hrejected⟩
  | none =>
    have hallowed := hstatics.mp hfind
    rcases p.verifyFunctions_cases c.floatingPoint p.functions with
      ⟨hok, hall⟩ | ⟨before, f, after, r, hsplit, hbefore, herror, hreport⟩
    · exact ⟨⟨fun _ => ⟨hallowed, hall⟩, fun _ => hok⟩, fun _ h => absurd ⟨hallowed, hall⟩ h⟩
    · have hf := hreport.2.not_isWellFormed
      have hmem : f ∈ p.functions := hsplit ▸ mem_append_right _ (.head _)
      refine ⟨⟨fun h => ?_, fun h => absurd (h.functions f hmem) hf⟩,
        fun _ _ => ⟨before, f, after, r, hsplit, hbefore, hf, herror, hreport⟩⟩
      cases herror.symm.trans h

/-- The second function uses its parameter with two types. -/
def retypingProgram : Program where
  functions := [
    { name := "f", isGlobal := true, params := [], returnType := none, body := [.ret none] },
    { name := "g", isGlobal := true, params := [⟨"x", .int⟩], returnType := some .int
      body := [.copy ⟨"x", .int⟩ (.var ⟨"x", .uint⟩), .ret (some (.var ⟨"x", .int⟩))] }]
  statics := []

theorem retypingProgram_reported : ¬ retypingProgram.IsWellFormed {} ∧
    ∃ before f after r, retypingProgram.functions = before ++ f :: after ∧
      (∀ g ∈ before, g.IsWellFormed retypingProgram true) ∧
      ¬ f.IsWellFormed retypingProgram true ∧ retypingProgram.verify {} = .error r ∧
      r.function = f.name ∧ f.ReportedAt retypingProgram true r.position := by
  have hrejected : retypingProgram.verify {} ≠ .ok () := by decide
  have hnot : ¬ retypingProgram.IsWellFormed {} := fun h =>
    hrejected ((retypingProgram.verify_decides {}).1.mpr h)
  exact ⟨hnot, (retypingProgram.verify_decides {}).2 (Or.inl rfl) hnot⟩

end ThreeAddress
