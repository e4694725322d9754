import ThreeAddress.Const.Basic

/-!
# Three-address instructions

Variables, labels, operators and the thirteen instruction forms.  Each instruction performs one
operation, writes at most one variable, and names its destination first.
-/

namespace ThreeAddress

attribute [local instance (high)] instPowNat

/-- A named variable of a fixed type. -/
structure Variable where
  name : String
  type : ScalarType
  deriving DecidableEq, Repr

/-- The operand of an instruction: a constant or a variable. -/
inductive Value where
  | const (c : Const)
  | var (v : Variable)
  deriving DecidableEq, Repr

namespace Value

def type : Value → ScalarType
  | const c => c.type
  | var v => v.type

def var? : Value → Option Variable
  | const _ => none
  | var v => some v

def const? : Value → Option Const
  | const c => some c
  | var _ => none

end Value

/-- A jump target: a name with a subscript. -/
structure Label where
  name : String
  subscript : Nat
  deriving DecidableEq, Repr

/-- Subscripts are stored in a 64-bit word. -/
def Label.maxSubscript : Nat := 2 ^ (64 : Nat) - 1

inductive UnaryOp where
  | complement
  | negate
  /-- Logical negation, whose result is an `int`. -/
  | not
  deriving DecidableEq, Repr

namespace UnaryOp

def all : List UnaryOp := [complement, negate, not]

def symbol : UnaryOp → String
  | complement => "~"
  | negate => "-"
  | not => "!"

end UnaryOp

inductive BinaryOp where
  | add
  | subtract
  | multiply
  | divide
  | remainder
  | bitAnd
  | bitOr
  | bitXor
  | shiftLeft
  | shiftRight
  | equal
  | notEqual
  | lessThan
  | lessOrEqual
  | greaterThan
  | greaterOrEqual
  deriving DecidableEq, Repr

namespace BinaryOp

def all : List BinaryOp :=
  [add, subtract, multiply, divide, remainder, bitAnd, bitOr, bitXor, shiftLeft, shiftRight,
    equal, notEqual, lessThan, lessOrEqual, greaterThan, greaterOrEqual]

/-- Comparisons produce an `int`, whatever the type of their operands. -/
def isComparison : BinaryOp → Bool
  | equal | notEqual | lessThan | lessOrEqual | greaterThan | greaterOrEqual => true
  | _ => false

def isShift : BinaryOp → Bool
  | shiftLeft | shiftRight => true
  | _ => false

/-- Operators that are not defined on doubles. -/
def isIntegerOnly : BinaryOp → Bool
  | remainder | bitAnd | bitOr | bitXor | shiftLeft | shiftRight => true
  | _ => false

def symbol : BinaryOp → String
  | add => "+"
  | subtract => "-"
  | multiply => "*"
  | divide => "/"
  | remainder => "%"
  | bitAnd => "&"
  | bitOr => "|"
  | bitXor => "^"
  | shiftLeft => "<<"
  | shiftRight => ">>"
  | equal => "=="
  | notEqual => "!="
  | lessThan => "<"
  | lessOrEqual => "<="
  | greaterThan => ">"
  | greaterOrEqual => ">="

end BinaryOp

/-- Numeric conversions.  The type converted to is that of the destination. -/
inductive Conversion where
  | signExtend
  | zeroExtend
  | truncate
  | intToDouble
  | uintToDouble
  | doubleToInt
  | doubleToUInt
  deriving DecidableEq, Repr

namespace Conversion

def all : List Conversion :=
  [signExtend, zeroExtend, truncate, intToDouble, uintToDouble, doubleToInt, doubleToUInt]

def name : Conversion → String
  | signExtend => "sign_extend"
  | zeroExtend => "zero_extend"
  | truncate => "truncate"
  | intToDouble => "int_to_double"
  | uintToDouble => "uint_to_double"
  | doubleToInt => "double_to_int"
  | doubleToUInt => "double_to_uint"

end Conversion

inductive Instr where
  /-- Leaves the function, with a value or without. -/
  | ret (value : Option Value)
  | unary (dst : Variable) (op : UnaryOp) (src : Value)
  | binary (dst : Variable) (op : BinaryOp) (lhs rhs : Value)
  | copy (dst : Variable) (src : Value)
  /-- Takes the address of a variable; the operand itself is not read. -/
  | addressOf (dst : Variable) (src : Value)
  /-- Reads what a pointer points to. -/
  | load (dst : Variable) (ptr : Value)
  /-- Writes a value where a pointer points to. -/
  | store (ptr : Value) (src : Value)
  | jump (target : Label)
  | jumpIfZero (cond : Value) (target : Label)
  | jumpIfNotZero (cond : Value) (target : Label)
  | label (l : Label)
  | call (dst : Option Variable) (callee : String) (args : List Value)
  | convert (dst : Variable) (conversion : Conversion) (src : Value)
  deriving DecidableEq, Repr

namespace Instr

def written? : Instr → Option Variable
  | unary dst _ _ | binary dst _ _ _ | copy dst _ | addressOf dst _ | load dst _
  | convert dst _ _ => some dst
  | call dst _ _ => dst
  | ret _ | store _ _ | jump _ | jumpIfZero _ _ | jumpIfNotZero _ _ | label _ => none

def reads : Instr → List Value
  | ret value => value.toList
  | unary _ _ src | copy _ src | convert _ _ src => [src]
  | binary _ _ lhs rhs => [lhs, rhs]
  | load _ ptr => [ptr]
  | store ptr src => [ptr, src]
  | jumpIfZero cond _ | jumpIfNotZero cond _ => [cond]
  | call _ _ args => args
  | addressOf _ _ | jump _ | label _ => []

def mapReads (f : Value → Value) : Instr → Instr
  | ret value => ret (value.map f)
  | unary dst op src => unary dst op (f src)
  | binary dst op lhs rhs => binary dst op (f lhs) (f rhs)
  | copy dst src => copy dst (f src)
  | load dst ptr => load dst (f ptr)
  | store ptr src => store (f ptr) (f src)
  | jumpIfZero cond target => jumpIfZero (f cond) target
  | jumpIfNotZero cond target => jumpIfNotZero (f cond) target
  | call dst callee args => call dst callee (args.map f)
  | convert dst conversion src => convert dst conversion (f src)
  | addressOf dst src => addressOf dst src
  | jump target => jump target
  | label l => label l

def readVars (i : Instr) : List Variable := i.reads.filterMap Value.var?

/-- The operand of an address-of instruction, which is named but not read. -/
def addressed? : Instr → Option Value
  | addressOf _ src => some src
  | _ => none

/-- Instructions whose only effect is to assign their destination. -/
def isPure : Instr → Bool
  | unary .. | binary .. | copy .. | addressOf .. | load .. | convert .. => true
  | _ => false

def label? : Instr → Option Label
  | label l => some l
  | _ => none

def target? : Instr → Option Label
  | jump l | jumpIfZero _ l | jumpIfNotZero _ l => some l
  | _ => none

@[simp] theorem reads_mapReads (f : Value → Value) (i : Instr) :
    (i.mapReads f).reads = i.reads.map f := by
  cases i <;> simp [mapReads, reads]
  case ret value => cases value <;> rfl

@[simp] theorem written?_mapReads (f : Value → Value) (i : Instr) :
    (i.mapReads f).written? = i.written? := by
  cases i <;> rfl

@[simp] theorem label?_mapReads (f : Value → Value) (i : Instr) :
    (i.mapReads f).label? = i.label? := by
  cases i <;> rfl

@[simp] theorem target?_mapReads (f : Value → Value) (i : Instr) :
    (i.mapReads f).target? = i.target? := by
  cases i <;> rfl

end Instr

end ThreeAddress
