import Std.Data.ExtTreeMap
import ThreeAddress.Config
import ThreeAddress.Program
import ThreeAddress.Verification.Defect

/-!
# Verification

Decides whether a program is well-formed and uses only enabled features, and reports the first
violation.  Functions are checked in order.  In a function, repeated labels come first, then
repeated parameters, then the instructions from the first to the last, each against the names and
types met before it.
-/

namespace ThreeAddress

/-! ### Typing rules -/

/-- The defect of a place that must have a prescribed type. -/
def mismatch? (role : Role) (actual expected : ScalarType) : Option Defect :=
  if actual = expected then none else some (.wrongType role actual expected)

/-- Whether a conversion is defined between two types.  Widening and narrowing change the size,
and a double is only converted from and to integers. -/
def Conversion.isValid (c : Conversion) (src dst : ScalarType) : Bool :=
  match c with
  | .signExtend | .zeroExtend => !src.isDouble && !dst.isDouble && src.size < dst.size
  | .truncate => !src.isDouble && !dst.isDouble && dst.size < src.size
  | .intToDouble | .uintToDouble => src.isInteger && dst.isDouble
  | .doubleToInt | .doubleToUInt => src.isDouble && dst.isInteger

/-- Whether a copy between two types keeps the bits: the sizes agree, and both or neither are
doubles. -/
def ScalarType.copiesTo (src dst : ScalarType) : Bool :=
  dst.size == src.size && dst.isDouble == src.isDouble

/-- The typing rule of a binary operation.  The count of a shift has a type of its own. -/
def binaryDefect? (dst : ScalarType) (op : BinaryOp) (lhs rhs : ScalarType) : Option Defect :=
  if op.isIntegerOnly && (lhs.isDouble || rhs.isDouble) then some (.integerOnly op)
  else
    (if op.isShift then (if rhs.isInteger then none else some .shiftCount)
      else mismatch? .rightOperand rhs lhs) <|>
    (if op.isComparison then mismatch? .comparisonResult dst .int
      else mismatch? .destination dst lhs)

/-- What is wrong with the types of an instruction, in a function that returns `returns`.  The
number of parameters is known only for functions of the program. -/
def Instr.typeDefect? (returns : Option ScalarType) (arity? : String → Option Nat) :
    Instr → Option Defect
  | .ret value =>
    if value.map Value.type = returns then none
    else some (.returnType (value.map Value.type) returns)
  | .unary dst .not _ => mismatch? .notResult dst.type .int
  | .unary dst .complement src =>
    if src.type.isDouble then some .complementOfDouble
    else mismatch? .destination dst.type src.type
  | .unary dst .negate src => mismatch? .destination dst.type src.type
  | .binary dst op lhs rhs => binaryDefect? dst.type op lhs.type rhs.type
  | .copy dst src =>
    if src.type.copiesTo dst.type then none else some (.copyBetween src.type dst.type)
  | .addressOf dst src =>
    match src with
    | .const _ => some .addressOfConstant
    | .var _ => mismatch? .addressDestination dst.type .pointer
  | .load _ ptr => mismatch? .loadedAddress ptr.type .pointer
  | .store ptr _ => mismatch? .storedAddress ptr.type .pointer
  | .call _ callee args =>
    match arity? callee with
    | some expected =>
      if expected = args.length then none else some (.arity callee args.length expected)
    | none => none
  | .convert dst c src =>
    if c.isValid src.type dst.type then none else some (.conversion c src.type dst.type)
  | .jump _ | .jumpIfZero _ _ | .jumpIfNotZero _ _ | .label _ => none

/-! ### Names and their types -/

/-- The type of every name met so far. -/
abbrev TypeTable := Std.ExtTreeMap String ScalarType

namespace TypeTable

/-- Records a variable, unless its name already stands for another type. -/
def use? (types : TypeTable) (v : Variable) : Except Defect TypeTable :=
  match types[v.name]? with
  | none => .ok (types.insert v.name v.type)
  | some previous =>
    if previous = v.type then .ok types else .error (.retyped v.name v.type previous)

/-- The table at the start of a body: parameters, and the statics they do not hide.  Of two
statics of one name the first counts. -/
def initial (params : List Variable) (statics : List StaticVariable) : TypeTable :=
  let ofParams := params.foldl (fun types p => types.insert p.name p.type) (∅ : TypeTable)
  statics.foldl (fun types s => types.insertIfNew s.name s.type) ofParams

end TypeTable

/-- The variables an instruction names: the one it writes, those it reads, and the one whose
address it takes. -/
def Instr.variables (i : Instr) : List Variable :=
  i.written?.toList ++ i.readVars ++ (i.addressed?.bind Value.var?).toList

def Instr.usesDouble (i : Instr) : Bool :=
  i.written?.any (·.type.isDouble) || i.reads.any (·.type.isDouble) ||
    i.addressed?.any (·.type.isDouble)

/-! ### Functions and programs -/

/-- The first entry whose content occurred before, with its position. -/
def firstRepeat? {α : Type} [DecidableEq α] : List α → List (Nat × α) → Option (Nat × α)
  | _, [] => none
  | seen, (n, a) :: rest => if a ∈ seen then some (n, a) else firstRepeat? (a :: seen) rest

/-- The labels a body defines, with the positions of their definitions. -/
def definedLabels (body : Listing Instr) : List (Nat × Label) :=
  body.numbered.filterMap fun (n, i) => i.label?.map (n, ·)

/-- What the check of an instruction needs to know about its surroundings. -/
structure Surroundings where
  function : String
  returns : Option ScalarType
  labels : List Label
  arity? : String → Option Nat
  floatingPoint : Bool

/-- Checks one instruction and returns the table that its names extend. -/
def Surroundings.check (s : Surroundings) (types : TypeTable) (position : Nat) (i : Instr) :
    Except Rejection TypeTable :=
  let malformed := Rejection.malformed s.function position
  if !s.floatingPoint && i.usesDouble then
    .error (.unsupported s.function position .doubleArithmetic)
  else
    match i.variables.foldlM TypeTable.use? types with
    | .error defect => .error (malformed defect)
    | .ok types =>
      match i.target?.filter (· ∉ s.labels) with
      | some target => .error (malformed (.undefinedTarget target))
      | none =>
        match i.typeDefect? s.returns s.arity? with
        | some defect => .error (malformed defect)
        | none => .ok types

/-- Checks the instructions from a position on. -/
def Surroundings.checkFrom (s : Surroundings) :
    TypeTable → List (Nat × Instr) → Except Rejection Unit
  | _, [] => .ok ()
  | types, (n, i) :: rest =>
    match s.check types n i with
    | .error rejection => .error rejection
    | .ok types => s.checkFrom types rest

/-- The number of parameters of a function of the program; the last definition counts. -/
def Program.arity? (p : Program) (callee : String) : Option Nat :=
  (p.functions.findRev? (·.name == callee)).map (·.params.length)

def Program.verifyFunction (p : Program) (floatingPoint : Bool) (f : Function) :
    Except Rejection Unit :=
  let labels := definedLabels f.body
  match firstRepeat? [] labels with
  | some (n, l) => .error (.malformed f.name n (.repeatedLabel l))
  | none =>
    match firstRepeat? [] (Listing.numbered (f.params.map (·.name))) with
    | some (_, name) => .error (.malformed f.name 0 (.repeatedParameter name))
    | none =>
      let surroundings : Surroundings :=
        { function := f.name
          returns := f.returnType
          labels := labels.map Prod.snd
          arity? := p.arity?
          floatingPoint := floatingPoint }
      surroundings.checkFrom (TypeTable.initial f.params p.statics) f.body.numbered

/-- Checks every function of a list, up to the first that is rejected. -/
def Program.verifyFunctions (p : Program) (floatingPoint : Bool) :
    List Function → Except Rejection Unit
  | [] => .ok ()
  | f :: rest =>
    match p.verifyFunction floatingPoint f with
    | .error rejection => .error rejection
    | .ok () => p.verifyFunctions floatingPoint rest

/-- Checks a program: its statics first, then its functions. -/
def Program.verify (p : Program) (config : Config) : Except Rejection Unit :=
  match p.statics.find? fun s => !config.floatingPoint && s.type.isDouble with
  | some s => .error (.unsupported s.name 0 .staticDouble)
  | none => p.verifyFunctions config.floatingPoint p.functions

end ThreeAddress
