import ThreeAddress.Proofs.Amd64.LoweredInstructions
import ThreeAddress.Proofs.Optimise.Verified

/-!
# Folding and the machine

An instruction whose operands are known can be folded, or it can be run as machine code.  Both give
the same result: what a folded assignment copies is what the machine code leaves in the variable,
and a folded jump is taken exactly if the machine code takes it.  It does not matter which of the
operands are constants and which are variables that have these values, nor where the variables are.

The temporaries of the machine code must not be variables of the instruction.
-/

namespace ThreeAddress.Amd64

open SourceState

/-- An operand, with its value in its place if it has one. -/
def SourceState.known (ctx : LoweringContext) (e : Setting) (s : SourceState) (x : Value) : Value :=
  match s.eval? ctx e x with
  | some c => .const c
  | none => x

section

variable {ctx : LoweringContext} {e : Setting} {L : Layout ctx e} {s : SourceState}
  {i : ThreeAddress.Instr} {returns : Option ScalarType} {arity? : String → Option Nat}
  {dst : Variable} {c : Const} {x : Value} {l : Label}

/-- What folds to a copy of a constant assigns its destination, and the constant has the right
type. -/
theorem type_of_fold (htype : i.typeDefect? returns arity? = none) (hdouble : i.usesDouble = false)
    (hfold : i.fold = some (.copy dst (.const c))) : i.written? = some dst ∧ c.type = dst.type := by
  rcases fold_cases htype hfold with rfl | ⟨_, _, heq, hcomputes, hc⟩ | ⟨l, heq, -⟩
  · -- A copy that stays as it is has the type already, or it would have been brought to it.
    refine ⟨rfl, ?_⟩
    by_contra hne
    simp only [Instr.fold, if_neg hne, Option.some.injEq] at hfold
    have hc : c.type ≠ .double := ne_double_of_mem_reads hdouble (.const c) (.head _)
    have hsize : c.reinterpret? dst.type ≠ none := by
      simp only [Instr.typeDefect?] at htype
      split at htype
      · rename_i hcopies
        simp only [ScalarType.copiesTo, Bool.and_eq_true, beq_iff_eq, Value.type] at hcopies
        have hdouble := ScalarType.isDouble_eq_false hc
        simp [Const.reinterpret?, hcopies.1, hcopies.2, hdouble, Const.toInt?_eq hc]
      · cases htype
    obtain ⟨d, hd⟩ := Option.ne_none_iff_exists'.mp hsize
    rw [hd] at hfold
    cases hfold
    exact hne (congrArg Const.type (Const.reinterpret?_eq_some hd))
  · cases heq
    exact ⟨hcomputes.written?_eq, hc⟩
  · cases heq

namespace SourceState

theorem eval?_known : s.eval? ctx e (s.known ctx e x) = s.eval? ctx e x := by
  unfold known
  split
  · rename_i hx
    exact hx.symm
  · rfl

theorem type_known (x : Value) : (s.known ctx e x).type = x.type := by
  unfold known
  split
  · rename_i hx
    exact eval?_type hx
  · rfl

theorem result?_mapReads_known : s.result? ctx e (i.mapReads (s.known ctx e)) =
    s.result? ctx e i := by
  cases i <;> simp only [Instr.mapReads, result?, eval?_known]

theorem typeDefect?_mapReads_known : (i.mapReads (s.known ctx e)).typeDefect? returns arity? =
    i.typeDefect? returns arity? := typeDefect?_mapReads type_known i

theorem usesDouble_mapReads_known : (i.mapReads (s.known ctx e)).usesDouble = i.usesDouble :=
  usesDouble_mapReads type_known i

theorem result?_of_fold (htype : i.typeDefect? returns arity? = none)
    (hfold : i.fold = some (.copy dst (.const c))) :
    ∃ a, s.result? ctx e i = some a ∧ a.as dst.type = c.as dst.type := by
  rcases fold_cases htype hfold with rfl | ⟨_, _, heq, hcomputes, -⟩ | ⟨l, heq, -⟩
  · exact ⟨c, rfl, rfl⟩
  · cases heq
    cases hcomputes with
    | unary h | binary h | convert h => exact ⟨c, h, rfl⟩
    | copy => exact ⟨_, rfl, (Const.as_as_self _ _).symm⟩
  · cases heq

end SourceState

/-! ### Agreement -/

theorem written?_of_target? (h : i.target? = some l) : i.written? = none := by
  cases i with
  | jump | jumpIfZero | jumpIfNotZero => rfl
  | _ => cases h

theorem target?_of_isPure (h : i.isPure = true) : i.target? = none := by
  cases i with
  | jump | jumpIfZero | jumpIfNotZero => cases h
  | _ => rfl

theorem Layout.Assigns.reads_of_fold {p : Procedure} {code : List Instr} {top : Option Const}
    {m : Storage} (h : L.Assigns code dst fun s => s.result? ctx e i) (hp : p.Hosts L)
    (hdst : L.Has dst) (hm : L.Matches top s m) (htype : i.typeDefect? returns arity? = none)
    (hc : c.type = dst.type)
    (hfold : (i.mapReads (s.known ctx e)).fold = some (.copy dst (.const c))) :
    ∃ m', (p.machine e (e.checks true)).block m code = .next m' ∧
      p.read? e (e.checks true) m' (ctx.variableOperandOf dst) (.ofType dst.type) = some c.raw := by
  rw [← typeDefect?_mapReads_known] at htype
  obtain ⟨a, ha, heq⟩ := result?_of_fold htype hfold
  rw [result?_mapReads_known] at ha
  rw [Const.as_eq_self hc] at heq
  obtain ⟨A, hdescribes, hA⟩ := hm
  obtain ⟨B, hrun, hB⟩ := h hp hA ha
  obtain ⟨m', hblock, hm'⟩ := hrun m hdescribes
  have heval : (s.assign ctx e dst a).eval? ctx e (.var dst) = some c := by
    rw [eval?_assign_self, heq]
  exact ⟨m', hblock, hm'.read? (hB.read?_variable hp hdst heval)⟩

theorem SourceState.execute_of_fold (htarget : i.target? = some l)
    (hknown : ∀ x ∈ i.reads, s.eval? ctx e x ≠ none) :
    s.execute ctx e i =
      if (i.mapReads (s.known ctx e)).fold = some (.jump l) then .jump l s else .next s := by
  cases i with
  | jump l' =>
    cases htarget
    exact (if_pos rfl).symm
  | jumpIfZero cond l' | jumpIfNotZero cond l' =>
    cases htarget
    obtain ⟨c, hc⟩ := Option.ne_none_iff_exists'.mp (hknown cond (.head _))
    simp only [execute, withValue, hc, Instr.mapReads, known, Instr.fold]
    cases c.isZero <;> simp
  | _ => cases htarget

/-- Folding agrees with machine code.  If an instruction is folded to the copy of a constant, its
code leaves this constant in the destination.  A conditional jump is folded to a jump exactly if its
code jumps. -/
theorem LoweringContext.code_agrees_with_fold {st : LoweringState} (hL : L.Ordinary)
    (hst : ctx.Sound st) (hvars : ∀ v ∈ i.variables, L.Has v)
    (hused : ∀ x ∈ L.used, ∃ v ∈ i.variables, v.name = x) (hdouble : i.usesDouble = false)
    (htype : i.typeDefect? returns arity? = none)
    (hkind : i.isPure = true ∨ ∃ l, i.target? = some l) :
    ∃ code st', (ctx.instr i).run st = .ok (code, st') ∧
      ∀ p : Procedure, p.pseudos = st'.pseudos → ∀ top s m, L.Matches top s m →
        (∀ dst c, (i.mapReads (s.known ctx e)).fold = some (.copy dst (.const c)) →
          ∃ m', (p.machine e (e.checks true)).block m code = .next m' ∧ c.type = dst.type ∧
            p.read? e (e.checks true) m' (ctx.variableOperandOf dst) (.ofType dst.type) =
              some c.raw) ∧
        ∀ l, i.target? = some l → (∀ x ∈ i.reads, s.eval? ctx e x ≠ none) →
          ∃ m', (p.machine e (e.checks true)).block m code =
            if (i.mapReads (s.known ctx e)).fold = some (.jump l) then .jump (ctx.qualified l) m'
            else .next m' := by
  have hhosts {st' : LoweringState} {p : Procedure} (h : ctx.Extends i.variables st st')
      (hp : p.pseudos = st'.pseudos) : p.Hosts L := by
    refine (h.sound hst).hosts hL hp fun x hx => ?_
    obtain ⟨v, hv, rfl⟩ := hused x hx
    exact h.noted v hv
  rcases hkind with hpure | ⟨l, hl⟩
  · obtain ⟨dst, hdst⟩ := exists_written?_of_isPure hpure
    obtain ⟨code, st', hrun, hext, hassigns⟩ : Lower.Gives (ctx.instr i) st _ :=
      gives_assignment hL hvars hdouble htype hpure hdst
    refine ⟨code, st', hrun, fun p hp top s m hm => ⟨fun dst' c hfold => ?_, fun l hl => ?_⟩⟩
    · obtain ⟨hdst', hc⟩ := type_of_fold (typeDefect?_mapReads_known.trans htype)
        (usesDouble_mapReads_known.trans hdouble) hfold
      rw [ThreeAddress.Instr.written?_mapReads, hdst] at hdst'
      cases hdst'
      obtain ⟨m', hblock, hread⟩ := hassigns.reads_of_fold (hhosts hext hp)
        (Layout.has_of_written? hvars hdst) hm htype hc hfold
      exact ⟨m', hblock, hc, hread⟩
    · rw [target?_of_isPure hpure] at hl
      cases hl
  · obtain ⟨code, st', hrun, hext, hsimulates⟩ : Lower.Gives (ctx.instr i) st _ :=
      gives_jump hL hvars hdouble hl
    refine ⟨code, st', hrun, fun p hp top s m hm => ⟨fun dst c hfold => ?_, ?_⟩⟩
    · -- A jump writes nothing, so it is not folded to a copy.
      have hdst := (type_of_fold (typeDefect?_mapReads_known.trans htype)
        (usesDouble_mapReads_known.trans hdouble) hfold).1
      rw [ThreeAddress.Instr.written?_mapReads, written?_of_target? hl] at hdst
      cases hdst
    · intro l' hl' hknown
      cases hl.symm.trans hl'
      have hfollows := hsimulates (hhosts hext hp) top hm
      -- The code follows the instruction, which jumps exactly if it is folded to a jump.
      rw [execute_of_fold hl hknown] at hfollows
      split at hfollows
      · rename_i hjump
        obtain ⟨m', hblock, -⟩ := hfollows.exists_jump
        exact ⟨m', by rw [hblock, if_pos hjump]⟩
      · rename_i hjump
        obtain ⟨m', hblock, -⟩ := hfollows.exists_next
        exact ⟨m', by rw [hblock, if_neg hjump]⟩

end

/-! ### An example, and a variable with the name of a temporary -/

/-- A function without statics whose variables are never accessed through pointers. -/
def plainContext : LoweringContext := ⟨.linux, "f", ∅, ∅, ∅⟩

/-- A setting in which nothing is called. -/
def quietSetting : Setting where
  hardware :=
    { double := fun _ x _ => x
      compare := fun x y => .ofSub x y
      toInteger := fun _ x => x
      ofInteger := fun _ x => x
      flags := fun _ _ _ old => old }
  symbols := fun _ => 0
  homes := fun _ => 0
  region := fun _ => .shared
  takes := fun _ _ => []
  respond := fun _ => none
  takesResults := fun _ => []

/-- The layout of a single variable that is not in memory. -/
def plainLayout (v : Variable) : Layout plainContext quietSetting where
  used := {v.name}
  types := fun _ => v.type
  shared := by
    intro x _ a ha
    cases ha
  apart := by
    intro x _ y _ _ a b ha
    cases ha

/-- The state in which every variable has one and the same value. -/
def uniformState (c : Const) : SourceState := ⟨fun _ => some c, fun _ => 0#8, []⟩

/-- A storage in which every location has one and the same value. -/
def uniformStorage (c : Const) : Storage where
  cells := fun _ => c.raw
  determined := fun _ => 64
  bytes := fun _ => 0#8
  settled := fun _ => true
  flags := .ofBitwise 0#8
  trace := []

/-- What is known about a uniform storage. -/
def uniformSketch (c : Const) : Sketch := ⟨fun _ => some c, fun _ => 0#8, none, []⟩

theorem describes_uniform (c : Const) :
    (uniformSketch c).Describes quietSetting (uniformStorage c) := by
  refine ⟨?_, ?_, fun _ _ => rfl, (fun f hf => nomatch hf), rfl⟩
  · intro l c' hc'
    exact c'.type.width_le
  · intro l c' hc'
    cases hc'
    exact c.low_raw

theorem matches_uniform (x : String) (c : Const) :
    (plainLayout ⟨x, c.type⟩).Matches (some c) (uniformState c) (uniformStorage c) := by
  refine ⟨uniformSketch c, describes_uniform c, fun _ _ _ => rfl, ?_, rfl, rfl, rfl⟩
  intro x _ _ c' hc'
  cases hc'
  rfl

/-- The state in which the lowering of a function without labels starts. -/
def plainState : LoweringState := ⟨∅, .empty, .fresh, .empty .linux, ∅⟩

theorem sound_plainState : plainContext.Sound plainState := by
  intro x info hx
  simp [plainState] at hx

/-- A quotient of bytes that replaces its dividend. -/
def byteQuotient : ThreeAddress.Instr :=
  .binary ⟨"x", .char⟩ .divide (.var ⟨"x", .char⟩) (.const (.ofInt .char (-3)))

/-- The quotient of 100 and -3 is folded to -33, and its code leaves -33 in the variable. -/
theorem byteQuotient_agrees_with_fold :
    (byteQuotient.mapReads
        ((uniformState (.ofInt .char 100)).known plainContext quietSetting)).fold =
        some (.copy ⟨"x", .char⟩ (.const (.ofInt .char (-33)))) ∧
      ∃ code st', (plainContext.instr byteQuotient).run plainState = .ok (code, st') ∧
        ∀ p : Procedure, p.pseudos = st'.pseudos →
          ∃ m', (p.machine quietSetting (quietSetting.checks true)).block
              (uniformStorage (.ofInt .char 100)) code = .next m' ∧
            p.read? quietSetting (quietSetting.checks true) m' (.pseudo "x") .byte =
              some (Const.ofInt .char (-33)).raw := by
  have hfold : (byteQuotient.mapReads ((uniformState (.ofInt .char 100)).known plainContext
      quietSetting)).fold = some (.copy ⟨"x", .char⟩ (.const (.ofInt .char (-33)))) := by
    decide
  refine ⟨hfold, ?_⟩
  have hvars : ∀ v ∈ byteQuotient.variables, v = ⟨"x", .char⟩ := by decide
  have htype : byteQuotient.typeDefect? none (fun _ => none) = none := by decide
  obtain ⟨code, st', hrun, hcode⟩ := LoweringContext.code_agrees_with_fold
    (L := plainLayout ⟨"x", .char⟩) (i := byteQuotient)
    (Layout.ordinary_of_not_isPrefix fun x hx => by
      rw [Set.mem_singleton_iff.mp hx]
      decide)
    sound_plainState (fun v hv => hvars v hv ▸ ⟨rfl, rfl⟩)
    (fun x hx => ⟨⟨"x", .char⟩, by decide, (Set.mem_singleton_iff.mp hx).symm⟩)
    (by decide) htype (Or.inl rfl)
  refine ⟨code, st', hrun, fun p hp => ?_⟩
  obtain ⟨m', hblock, -, hread⟩ :=
    (hcode p hp _ _ _ (matches_uniform "x" (.ofInt .char 100))).1 _ _ hfold
  exact ⟨m', hblock, hread⟩

/-- A difference that replaces its subtrahend, a variable with the name of the first temporary. -/
def clashingDifference : ThreeAddress.Instr :=
  .binary ⟨"%t1", .int⟩ .subtract (.const (.ofInt .int 5)) (.var ⟨"%t1", .int⟩)

/-- The difference of 5 and 3 is folded to 2, but its code leaves 0 in the variable: it builds the
difference in the temporary, which is the subtrahend. -/
theorem clashingDifference_disagrees_with_fold :
    (clashingDifference.mapReads ((uniformState (.ofInt .int 3)).known plainContext
        quietSetting)).fold = some (.copy ⟨"%t1", .int⟩ (.const (.ofInt .int 2))) ∧
      ∃ code st', (plainContext.instr clashingDifference).run plainState = .ok (code, st') ∧
        ∀ p : Procedure, p.pseudos = st'.pseudos →
          ∃ m', (p.machine quietSetting (quietSetting.checks true)).block
              (uniformStorage (.ofInt .int 3)) code = .next m' ∧
            p.read? quietSetting (quietSetting.checks true) m' (.pseudo "%t1") .long =
              some (Const.ofInt .int 0).raw := by
  refine ⟨by decide, [⟨.mov, .long, [.pseudo "%t1", .imm 5]⟩,
    ⟨.sub, .long, [.pseudo "%t1", .pseudo "%t1"]⟩], _, rfl, fun p hp => ?_⟩
  have haliased : p.isAliased "%t1" = false := by
    rw [Procedure.isAliased, hp]
    rfl
  have hplace (A : Sketch) : A.place? p quietSetting (.pseudo "%t1") =
      some (.cell (.pseudo "%t1")) := by
    simp [Sketch.place?, haliased]
  have hread (A : Sketch) (c : Const) : (A.set (.cell (.pseudo "%t1")) c).read? p quietSetting
      (.pseudo "%t1") c.type = some c := by
    rw [Sketch.read?, hplace, Option.bind_some]
    exact Sketch.fetch?_set_self trivial
  have hmove : p.Runs quietSetting [⟨.mov, .long, [.pseudo "%t1", .imm 5]⟩]
      (uniformSketch (.ofInt .int 3)) _ :=
    Procedure.Runs.move (t := .int) (c := .ofInt .int 5) rfl (hplace _) trivial
  have hsub : p.Runs quietSetting [⟨.sub, .long, [.pseudo "%t1", .pseudo "%t1"]⟩] _ _ :=
    Procedure.Runs.arithmetic .sub (a := .ofInt .int 5) (b := .ofInt .int 5) rfl (by decide) rfl
      (hread (uniformSketch (.ofInt .int 3)) _) (hread _ _) (hplace _) trivial
  obtain ⟨m', hblock, hm'⟩ := (hmove.cons hsub) _ (describes_uniform _)
  exact ⟨m', hblock, hm'.read? (t := .int) (c := .ofInt .int 0) (hread _ (.ofInt .int 0))⟩

end ThreeAddress.Amd64
