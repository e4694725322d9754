import ThreeAddress.Proofs.Amd64.AllocatedBodies
import ThreeAddress.Proofs.Amd64.EncodableParts
import ThreeAddress.Proofs.Amd64.GeneratedLabels
import ThreeAddress.Proofs.Fresh.UniqueTexts

/-!
# Labels of an assembly file

The labels of all functions live together in the assembly file, beside the names of the double
constants.  The labels of one function are distinct, and no label looks like a constant.  Labels of
two functions differ unless the name of one function continues the name of the other with a dot, and
the label of the other has the rest before its own name.
-/

namespace ThreeAddress

open List LabelSupply

variable {platform : Platform}

namespace Amd64

variable {c : Config} {doubles stack : Bool} {l m : Label} {targets : Label → Prop} {f : Function}
  {g : String} {p : Program} {a : Assembly} {i : Instr} {stackSize : Nat}

/-- A label of a function as it stands in the assembly file. -/
def localText (platform : Platform) (function : String) (l : Label) : String :=
  Label.text ⟨platform.localMark ++ function ++ "." ++ l.name, l.subscript⟩

/-- One function's name continues the other's, and the label of the other has the rest before the
name of the one's label. -/
def Continues (f : String) (l : Label) (g : String) (m : Label) : Prop :=
  ∃ r, g = f ++ "." ++ r ∧ l.name = r ++ "." ++ m.name ∧ l.subscript = m.subscript

theorem Continues.ne {f : String} (h : Continues f l g m) : f ≠ g := by
  rintro rfl
  obtain ⟨r, hr, -⟩ := h
  have hlength := congrArg String.length hr
  rw [String.length_append, String.length_append] at hlength
  have hdot : ".".length = 1 := rfl
  omega

theorem Continues.localText_eq {f : String} (h : Continues f l g m) :
    localText platform f l = localText platform g m := by
  obtain ⟨r, rfl, hname, hsubscript⟩ := h
  simp only [localText, hname, hsubscript, String.append_assoc]

/-- Labels of two functions look alike if they are the same label of the same function, or the name
of one function continues the name of the other. -/
theorem localText_eq_iff {f : String} : localText platform f l = localText platform g m ↔
      (f = g ∧ l = m) ∨ Continues f l g m ∨ Continues g m f l := by
  constructor
  · intro h
    obtain ⟨hname, hsubscript⟩ := Label.mk.inj (Label.text_injective h)
    obtain ⟨x, n⟩ := l
    obtain ⟨y, k⟩ := m
    cases hsubscript
    have hchars : f.toList ++ '.' :: x.toList = g.toList ++ '.' :: y.toList := by
      simpa using congrArg String.toList hname
    rcases append_cons_cases hchars with ⟨hfunction, hlabel⟩ | ⟨r, hg, hx⟩ | ⟨r, hf, hy⟩
    · exact .inl ⟨String.toList_inj.mp hfunction, by rw [String.toList_inj.mp hlabel]⟩
    · exact .inr (.inl ⟨.ofList r, String.toList_inj.mp (by simpa using hg),
        String.toList_inj.mp (by simpa using hx), rfl⟩)
    · exact .inr (.inr ⟨.ofList r, String.toList_inj.mp (by simpa using hf),
        String.toList_inj.mp (by simpa using hy), rfl⟩)
  · rintro (⟨rfl, rfl⟩ | h | h)
    · rfl
    · exact h.localText_eq
    · exact h.localText_eq.symm

theorem localText_ne_entryName (platform : Platform) (f : String) (l : Label) (n : Nat) :
    localText platform f l ≠ ConstantPool.entryName platform n := by
  intro h
  have hchars : '_' ∈ (ConstantPool.entryName platform n).toList := by
    rw [← h]
    simp [localText, Label.text]
  have hdigits := Nat.underscore_not_in_toDigits (n := n)
  cases platform <;>
    simp [ConstantPool.entryName, Platform.localMark, Nat.toList_repr, hdigits] at hchars

/-! ### Labels of a procedure -/

theorem Instr.IsLowered.eq_label (h : i.IsLowered doubles stack targets) (hop : i.op = .label) :
    ∃ l, i = .label l := by
  cases h with
  | label => exact ⟨_, rfl⟩
  | combine hop' | modify hop' | shift hop' | shiftByRegister _ hop' | extend hop' | divide _ hop'
  | moveStack hop' => simp_all
  | _ => cases hop

section

variable (h : i.IsLowered doubles stack targets) {g : Operand → Operand} (hg : Settled g stackSize)

include h hg

theorem Instr.IsLowered.legalise_label :
    (∃ l, i = .label l ∧ (i.mapOperands g).legalise = [.label l]) ∨
      i.op ≠ .label ∧ ∀ j ∈ (i.mapOperands g).legalise, j.op ≠ .label := by
  by_cases hop : i.op = .label
  · obtain ⟨l, rfl⟩ := h.eq_label hop
    have hfixed : (Instr.label l).mapOperands g = .label l :=
      hg.mapOperands_eq (by simp [Operand.pseudo?, Instr.label, bare])
    exact .inl ⟨l, rfl, by rw [hfixed]; rfl⟩
  · refine .inr ⟨hop, fun j hj => ?_⟩
    have hpart : Part (i.mapOperands g) j := by
      refine part_of_mem_legalise hj ?_
      rw [operandWidths_mapOperands, mapOperands, length_map]
      exact h.operandWidths_length
    rcases hpart.op_cases with hj | hj | hj
    · rwa [hj]
    all_goals simp [hj]

theorem Instr.IsLowered.codeLabels_legalise :
    codeLabels (i.mapOperands g).legalise = i.defined?.toList := by
  rcases h.legalise_label hg with ⟨l, rfl, hlegal⟩ | ⟨hop, hnone⟩
  · rw [hlegal]
    rfl
  · rw [defined?_of_op hop]
    exact codeLabels_of_forall hnone

end

theorem Replaced.codeLabels_legaliseAll {g : Operand → Operand} (hg : Settled g stackSize)
    {code code' : List Instr} (h : Replaced g code code')
    (hcode : ∀ i ∈ code, i.IsLowered doubles stack targets) :
    codeLabels (legaliseAll code') = codeLabels code := by
  induction h with
  | nil => rfl
  | keep i h ih =>
    obtain ⟨hi, hrest⟩ := forall_mem_cons.mp hcode
    rw [legaliseAll, flatMap_cons, codeLabels_append, codeLabels_cons, ← legaliseAll, ih hrest,
      hi.codeLabels_legalise hg]
  | @drop i _ _ hself h ih =>
    obtain ⟨hi, hrest⟩ := forall_mem_cons.mp hcode
    have hop : i.op = .mov := (Instr.isSelfMove_iff.mp hself).1
    rw [codeLabels_cons, ih hrest, Instr.defined?_of_op (by simp [hop])]
    rfl

/-- Finished code defines labels in the way that lowering does. -/
theorem eq_label_of_mem_finish {q : Procedure}
    (hforms : ∀ i ∈ q.body, i.IsLowered doubles stack targets) {j : Instr}
    (hj : j ∈ (finish c q).emitted.procedure.body) (hop : j.op = .label) : ∃ l, j = .label l := by
  obtain ⟨g, hg, hreplaced⟩ := q.replaced_assignRegisters
  obtain ⟨k, hk, hjk⟩ := mem_flatMap.mp hj
  obtain ⟨i, hi, rfl⟩ := hreplaced.exists_of_mem hk
  rcases (hforms i hi).legalise_label hg with ⟨l, -, hlegal⟩ | ⟨-, hnone⟩
  · rw [hlegal] at hjk
    exact ⟨l, mem_singleton.mp hjk⟩
  · exact absurd hop (hnone j hjk)

/-! ### Labels of a function -/

/-- The labels that lowering draws for the instructions of a function. -/
def drawnLabels (f : Function) : List Label :=
  ((LabelSupply.ofListing f.body).draw? (f.body.flatMap labelNames)).elim [] Prod.fst

def functionLabels (f : Function) : List Label :=
  f.body.filterMap ThreeAddress.Instr.label? ++ drawnLabels f

/-- The labels of a function that is lowered are those that it defines and those that are drawn. -/
theorem labels_finish {constants constants' : ConstantPool} {q : Procedure}
    {returns : Option ScalarType} {arity? : String → Option Nat}
    (htype : ∀ i ∈ f.body, i.typeDefect? returns arity? = none)
    (hconstants : constants.Numbered c.platform)
    (hq : lowerFunction p c.platform f constants = .ok (q, constants')) :
    ((codeLabels (finish c q).emitted.procedure.body).map Label.text).Perm
      ((functionLabels f).map (localText c.platform f.name)) := by
  obtain ⟨g, hg, hreplaced⟩ := q.replaced_assignRegisters
  have hkept : codeLabels (finish c q).emitted.procedure.body = codeLabels q.body :=
    hreplaced.codeLabels_legaliseAll hg (isLowered_of_lowerFunction hq htype)
  rw [hkept]
  have hlabels := labels_lowerFunction (p := p) htype hconstants
  unfold functionLabels drawnLabels
  cases hdraw : (ofListing f.body).draw? (f.body.flatMap labelNames) with
  | none =>
    rw [hdraw] at hlabels
    exact nomatch hlabels.symm.trans hq
  | some drawn =>
    rw [hdraw] at hlabels
    obtain ⟨q', constants'', hq', -, hperm⟩ := hlabels
    cases hq'.symm.trans hq
    have htexts := hperm.map Label.text
    rw [map_map] at htexts
    exact htexts

theorem dot_not_mem_labelNames (i : ThreeAddress.Instr) : ∀ x ∈ labelNames i, '.' ∉ x.toList := by
  intro x hx
  have hname := (labelNames_sublist i).subset hx
  clear hx
  revert x
  decide

theorem dot_not_mem_of_mem_drawnLabels (hl : l ∈ drawnLabels f) : '.' ∉ l.name.toList := by
  unfold drawnLabels at hl
  cases hdraw : (ofListing f.body).draw? (f.body.flatMap labelNames) with
  | none =>
    rw [hdraw] at hl
    cases hl
  | some drawn =>
    rw [hdraw] at hl
    obtain ⟨i, -, hi⟩ := mem_flatMap.mp (name_mem_of_draw? hdraw hl)
    exact dot_not_mem_labelNames i l.name hi

theorem nodup_functionLabels (h : (f.body.filterMap ThreeAddress.Instr.label?).Nodup) :
    (functionLabels f).Nodup := by
  unfold functionLabels drawnLabels
  cases hdraw : (ofListing f.body).draw? (f.body.flatMap labelNames) with
  | none => simpa using h
  | some drawn =>
    refine nodup_append'.mpr ⟨h, nodup_of_draw? hdraw, fun l hl hdrawn => ?_⟩
    have hlt := lt_of_mem_of_draw? hdraw hdrawn
    have hle := le_highestOf_ofListing hl
    omega

/-! ### Labels of a file -/

/-- The local labels that an assembly file defines: those of the code and the names of the double
constants. -/
def Assembly.localLabels (a : Assembly) : List String :=
  a.procedures.flatMap (fun e => (codeLabels e.procedure.body).map Label.text) ++
    a.constants.entries.map PoolEntry.name

def Assembly.lines (a : Assembly) : List String :=
  [Directive.intelSyntax.line, ""] ++ a.procedures.flatMap (EmittedProcedure.lines a.platform) ++
    a.statics.flatMap (staticLines a.platform) ++ poolLines a.constants ++ trailerLines a.platform

theorem Assembly.text_eq_render (a : Assembly) : a.text = Listing.render id a.lines := rfl

/-- Every label of a procedure has a line of its own. -/
theorem EmittedProcedure.sublist_lines {e : EmittedProcedure} (platform : Platform)
    (h : ∀ i ∈ e.procedure.body, i.op = .label → ∃ l, i = .label l) :
    ((codeLabels e.procedure.body).map fun l => l.text ++ ":").Sublist (e.lines platform) := by
  refine .trans ?_ ((sublist_append_right _ _).trans (sublist_append_left _ _))
  generalize e.procedure.body = code at h
  induction code with
  | nil => exact .slnil
  | cons i rest ih =>
    obtain ⟨hi, hrest⟩ := forall_mem_cons.mp h
    rw [codeLabels_cons, map_append]
    refine .append ?_ (ih hrest)
    by_cases hop : i.op = .label
    · obtain ⟨l, rfl⟩ := hi hop
      exact .refl _
    · rw [Instr.defined?_of_op hop]
      exact nil_sublist _

/-- Every double constant has a line of its own. -/
theorem ConstantPool.sublist_poolLines (pool : ConstantPool) :
    (pool.entries.map fun e => e.name ++ ":").Sublist (poolLines pool) := by
  unfold poolLines
  split
  · rename_i hempty
    rw [isEmpty_iff.mp hempty]
    exact .slnil
  · refine .trans ?_ ((sublist_append_right _ _).trans (sublist_append_left _ _))
    generalize pool.entries = entries
    induction entries with
    | nil => exact .slnil
    | cons e rest ih =>
      have hname : [e.name ++ ":"].Sublist (poolEntryLines pool.platform e) :=
        singleton_sublist.mpr (by simp [poolEntryLines, Directive.line])
      exact hname.append ih

def assembly? (p : Program) (c : Config) : Except LoweringError Assembly := do
  let (procedures, constants) ← lowerFunctions p c.platform p.functions (.empty c.platform)
  return ⟨c.platform, procedures.map fun q => (finish c q).emitted, p.statics, constants⟩

/-- What is generated for a program is the text of its assembly file. -/
theorem generate_fst (p : Program) (c : Config) :
    (generate p c).map Prod.fst = (assembly? p c).map Assembly.text := by
  unfold generate assembly?
  cases lowerFunctions p c.platform p.functions (.empty c.platform) with
  | error err => rfl
  | ok lowered =>
    show Except.ok (Assembly.text _) = .ok (Assembly.text _)
    rw [map_map]
    rfl

theorem forall₂_of_assembly? {P : Function → EmittedProcedure → Prop}
    (hverify : p.verify c = .ok ()) (ha : assembly? p c = .ok a)
    (hfunction : ∀ f ∈ p.functions, (∀ i ∈ f.body, i.typeDefect? f.returnType p.arity? = none) →
      ∀ {constants q constants'}, ConstantPool.Numbered c.platform constants →
        lowerFunction p c.platform f constants = .ok (q, constants') → P f (finish c q).emitted) :
    a.constants.Numbered c.platform ∧ List.Forall₂ P p.functions a.procedures := by
  unfold assembly? at ha
  cases hlower : lowerFunctions p c.platform p.functions (.empty c.platform) with
  | error err =>
    rw [hlower] at ha
    cases ha
  | ok lowered =>
    rw [hlower] at ha
    cases ha
    simp only [forall₂_map_right_iff]
    refine lowerFunctions_induction ?_ (ConstantPool.numbered_empty c.platform) hlower
    intro f hf constants q constants' hconstants hq
    obtain ⟨_, -, haccepted, -, -⟩ := p.accepted_of_verify hverify hf
    exact ⟨numbered_lowerFunction haccepted.typeDefect?_eq hconstants hq,
      hfunction f hf haccepted.typeDefect?_eq hconstants hq⟩

theorem localLabels_perm (hverify : p.verify c = .ok ()) (ha : assembly? p c = .ok a) :
    a.constants.Numbered c.platform ∧
      a.localLabels.Perm
        (p.functions.flatMap (fun f => (functionLabels f).map (localText c.platform f.name)) ++
          a.constants.entries.map PoolEntry.name) := by
  obtain ⟨hnumbered, hlabels⟩ := forall₂_of_assembly? hverify ha
    (P := fun f e => ((codeLabels e.procedure.body).map Label.text).Perm
      ((functionLabels f).map (localText c.platform f.name)))
    fun f _ htype _ _ _ hconstants hq => labels_finish htype hconstants hq
  refine ⟨hnumbered, .append_right _ ?_⟩
  generalize a.procedures = procedures at hlabels ⊢
  generalize p.functions = functions at hlabels ⊢
  induction hlabels with
  | nil => exact .nil
  | cons hf _ ih => exact hf.append ih

/-- Every local label has a line of its own in the assembly file. -/
theorem sublist_lines_of_assembly? (hverify : p.verify c = .ok ()) (ha : assembly? p c = .ok a) :
    (a.localLabels.map (· ++ ":")).Sublist a.lines := by
  obtain ⟨-, hprocedures⟩ := forall₂_of_assembly? hverify ha
    (P := fun _ e => ((codeLabels e.procedure.body).map fun l => l.text ++ ":").Sublist
      (e.lines a.platform))
    fun f _ htype _ _ _ _ hq => EmittedProcedure.sublist_lines a.platform fun _ hi hop =>
      eq_label_of_mem_finish (isLowered_of_lowerFunction hq htype) hi hop
  have hcode : ((a.procedures.flatMap fun e => (codeLabels e.procedure.body).map Label.text).map
      (· ++ ":")).Sublist (a.procedures.flatMap (EmittedProcedure.lines a.platform)) := by
    generalize a.procedures = procedures at hprocedures ⊢
    generalize p.functions = functions at hprocedures
    induction hprocedures with
    | nil => exact .slnil
    | cons he _ ih =>
      rw [flatMap_cons, map_append, map_map]
      exact he.append ih
  unfold Assembly.localLabels Assembly.lines
  rw [map_append, map_map]
  refine .trans ?_ (sublist_append_left _ _)
  refine .append ?_ a.constants.sublist_poolLines
  exact .trans (.trans hcode (sublist_append_right _ _)) (sublist_append_left _ _)

/-- Labels of two functions look alike only if one of them belongs to the function itself, as the
names of drawn labels have no dots. -/
theorem Continues.mem_of_mem_functionLabels (h : Continues f.name l g m)
    (hl : l ∈ functionLabels f) : l ∈ f.body.filterMap ThreeAddress.Instr.label? := by
  rcases mem_append.mp hl with hl | hl
  · exact hl
  · obtain ⟨r, -, hname, -⟩ := h
    refine absurd ?_ (dot_not_mem_of_mem_drawnLabels hl)
    simp [hname]

/-- The local labels in the assembly file of an accepted program with distinct functions differ
if and only if no function defines a label that continues to a label of another function. -/
theorem nodup_localLabels_iff {p : Program} {c : Config} {a : Assembly}
    (hverify : p.verify c = .ok ()) (hnames : (p.functions.map Function.name).Nodup)
    (ha : assembly? p c = .ok a) :
    a.localLabels.Nodup ↔ ∀ f ∈ p.functions, ∀ l ∈ f.body.filterMap ThreeAddress.Instr.label?,
      ∀ g ∈ p.functions, ∀ m ∈ functionLabels g, ¬Continues f.name l g.name m := by
  obtain ⟨hnumbered, hperm⟩ := localLabels_perm hverify ha
  have hconstants : Disjoint
      (p.functions.flatMap fun f => (functionLabels f).map (localText c.platform f.name))
      (a.constants.entries.map PoolEntry.name) := by
    intro x hx hx'
    obtain ⟨f, -, hf⟩ := mem_flatMap.mp hx
    obtain ⟨l, -, rfl⟩ := mem_map.mp hf
    rw [hnumbered.names_eq] at hx'
    obtain ⟨n, -, hn⟩ := mem_map.mp hx'
    exact localText_ne_entryName c.platform f.name l n hn.symm
  have hfunction : ∀ f ∈ p.functions,
      ((functionLabels f).map (localText c.platform f.name)).Nodup := by
    intro f hf
    obtain ⟨_, -, haccepted, -, -⟩ := p.accepted_of_verify hverify hf
    refine (nodup_functionLabels haccepted.nodup_labels).map fun l m h => ?_
    rcases localText_eq_iff.mp h with ⟨-, heq⟩ | h | h
    · exact heq
    all_goals exact absurd rfl h.ne
  -- Labels can only clash between two functions.
  rw [hperm.nodup_iff, nodup_append', nodup_flatMap]
  constructor
  · rintro ⟨⟨-, hpairwise⟩, -, -⟩ f hf l hl g hg m hm hcontinues
    have hne : f ≠ g := fun h => hcontinues.ne (congrArg Function.name h)
    have : Std.Symm (Function.onFun Disjoint fun f : Function =>
        (functionLabels f).map (localText c.platform f.name)) := ⟨fun _ _ h => List.Disjoint.symm h⟩
    refine hpairwise.forall hf hg hne (mem_map_of_mem (mem_append_left _ hl)) ?_
    rw [hcontinues.localText_eq]
    exact mem_map_of_mem hm
  · intro hcontinues
    refine ⟨⟨hfunction, ?_⟩, hnumbered.nodup, hconstants⟩
    refine (pairwise_map.mp hnames).imp_of_mem ?_
    intro f g hf hg hne x hx hx'
    obtain ⟨l, hl, rfl⟩ := mem_map.mp hx
    obtain ⟨m, hm, hsame⟩ := mem_map.mp hx'
    rcases localText_eq_iff.mp hsame with ⟨hname, -⟩ | hgf | hfg
    · exact hne hname.symm
    · exact hcontinues g hg m (hgf.mem_of_mem_functionLabels hm) f hf l hl hgf
    · exact hcontinues f hf l (hfg.mem_of_mem_functionLabels hl) g hg m hm hfg

/-- Two functions with the same label, which also need a label for the same comparison. -/
def sameLabels : Program where
  functions := ["f", "g"].map fun name => ⟨name, true, [⟨"x", .double⟩], none,
    [.jumpIfZero (.var ⟨"x", .double⟩) ⟨"end", 1⟩, .label ⟨"end", 1⟩, .ret none]⟩
  statics := []

theorem nodup_localLabels_sameLabels : ∃ a, assembly? sameLabels {} = .ok a ∧
    a.localLabels.length = 5 ∧ a.localLabels.Nodup := by
  obtain ⟨a, ha, hlength⟩ : ∃ a, assembly? sameLabels {} = .ok a ∧ a.localLabels.length = 5 :=
    ⟨_, rfl, by decide +kernel⟩
  refine ⟨a, ha, hlength, (nodup_localLabels_iff (by decide) (by decide) ha).mpr ?_⟩
  rintro f hf l - g hg m - ⟨r, hr, -⟩
  have hnames : ∀ f ∈ sameLabels.functions, f.name.length = 1 := by decide
  have hlength := congrArg String.length hr
  rw [String.length_append, String.length_append, hnames f hf, hnames g hg] at hlength
  have hdot : ".".length = 1 := rfl
  omega

/-- Two functions with labels that look alike. -/
def dottedLabels : Program where
  functions := [⟨"f", true, [], none, [.label ⟨"a.b", 1⟩, .ret none]⟩,
    ⟨"f.a", true, [], none, [.label ⟨"b", 1⟩, .ret none]⟩]
  statics := []

/-- Not all labels are distinct. -/
theorem dottedLabels_localLabels : dottedLabels.verify {} = .ok () ∧
    (dottedLabels.functions.map Function.name).Nodup ∧ ∃ a, assembly? dottedLabels {} = .ok a ∧
      a.localLabels = [".Lf.a.b_1", ".Lf.a.b_1"] :=
  ⟨by decide, by decide, _, rfl, by decide +kernel⟩

end Amd64

end ThreeAddress
