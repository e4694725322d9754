import ThreeAddress.Instr.Text

/-!
# Reasons to reject a program

Every way in which a program can be malformed or ask for something that is switched off, with
the sentence that reports it.
-/

namespace ThreeAddress

/-- The places in an instruction whose type is prescribed. -/
inductive Role where
  | notResult
  | comparisonResult
  | destination
  | rightOperand
  | addressDestination
  | loadedAddress
  | storedAddress
  deriving DecidableEq, Repr

def Role.text : Role → String
  | notResult => "result of '!'"
  | comparisonResult => "result of a comparison"
  | destination => "destination"
  | rightOperand => "right operand"
  | addressDestination => "destination of '&'"
  | loadedAddress => "loaded address"
  | storedAddress => "stored address"

/-- What is wrong with an instruction or its surroundings. -/
inductive Defect where
  | repeatedLabel (l : Label)
  | repeatedParameter (name : String)
  | retyped (name : String) (used previous : ScalarType)
  | undefinedTarget (l : Label)
  | returnType (actual expected : Option ScalarType)
  | wrongType (role : Role) (actual expected : ScalarType)
  | complementOfDouble
  | integerOnly (op : BinaryOp)
  | shiftCount
  | copyBetween (src dst : ScalarType)
  | addressOfConstant
  | arity (callee : String) (given expected : Nat)
  | conversion (c : Conversion) (src dst : ScalarType)
  deriving DecidableEq, Repr

/-- The type of a returned value; nothing is returned as `void`. -/
def describeReturn : Option ScalarType → String
  | some t => t.name
  | none => "void"

def Defect.text : Defect → String
  | repeatedLabel l => "label '" ++ l.text ++ "' is defined twice"
  | repeatedParameter name => "parameter '" ++ name ++ "' is declared twice"
  | retyped name used previous =>
    "variable '" ++ name ++ "' is used as " ++ used.name ++ " but was previously " ++ previous.name
  | undefinedTarget l => "jump to undefined label '" ++ l.text ++ "'"
  | returnType actual expected =>
    "return of " ++ describeReturn actual ++ " from function returning " ++ describeReturn expected
  | wrongType role actual expected =>
    role.text ++ " has type " ++ actual.name ++ ", expected " ++ expected.name
  | complementOfDouble => "bitwise complement of a double"
  | integerOnly op => "operator '" ++ op.symbol ++ "' applied to a double"
  | shiftCount => "shift count is not an integer"
  | copyBetween src dst => "copy of " ++ src.name ++ " into " ++ dst.name
  | addressOfConstant => "address of a constant"
  | arity callee given expected =>
    "call to '" ++ callee ++ "' with " ++ toString given ++ " arguments, expected " ++
      toString expected
  | conversion c src dst =>
    "invalid conversion " ++ c.name ++ " from " ++ src.name ++ " to " ++ dst.name

/-- The constructs that need floating point. -/
inductive Construct where
  | staticDouble
  | doubleArithmetic
  deriving DecidableEq, Repr

def Construct.text : Construct → String
  | staticDouble => "static variable of type double"
  | doubleArithmetic => "floating point arithmetic"

/-- Why a program is rejected, and where: the function (or static variable) and the position of
the instruction in its body. -/
inductive Rejection where
  | malformed (function : String) (position : Nat) (defect : Defect)
  | unsupported (function : String) (position : Nat) (construct : Construct)
  deriving DecidableEq, Repr

namespace Rejection

def function : Rejection → String
  | malformed f _ _ | unsupported f _ _ => f

def position : Rejection → Nat
  | malformed _ n _ | unsupported _ n _ => n

def message : Rejection → String
  | malformed f n defect =>
    "malformed IR in '" ++ f ++ "' at instruction " ++ toString n ++ ": " ++ defect.text
  | unsupported f n construct =>
    "unsupported construct in '" ++ f ++ "' at instruction " ++ toString n ++ ": " ++
      construct.text

end Rejection

end ThreeAddress
