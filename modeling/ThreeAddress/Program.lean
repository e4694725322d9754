import ThreeAddress.Instr.Text
import ThreeAddress.Listing

/-!
# Programs

A program is a list of functions, in the order in which they are emitted, and a list of variables
with static storage.  A function starts at its first instruction; running off the end of its body
returns without a value.
-/

namespace ThreeAddress

structure Function where
  name : String
  /-- Whether the function is visible outside the program. -/
  isGlobal : Bool
  params : List Variable
  /-- The type of the returned value; a function without one returns nothing. -/
  returnType : Option ScalarType
  body : Listing Instr
  deriving DecidableEq, Repr

/-- A variable that exists for the whole run of the program. -/
structure StaticVariable where
  name : String
  isGlobal : Bool
  init : Const
  deriving DecidableEq, Repr

/-- A static variable has the type of its initial value. -/
def StaticVariable.type (s : StaticVariable) : ScalarType := s.init.type

/-- A complete compilation unit. -/
structure Program where
  functions : List Function
  statics : List StaticVariable
  deriving DecidableEq, Repr

/-! ### Text -/

/-- Labels are indented less than the instructions between them. -/
def Instr.indented (i : Instr) : String :=
  (if i.label?.isSome then "    " else "        ") ++ i.text

def Function.text (f : Function) : String :=
  let params := f.params.map fun p => p.name ++ ": " ++ p.type.name
  "function " ++ f.name ++ "(" ++ ", ".intercalate params ++ ")\n" ++
    Listing.render Instr.indented f.body

def StaticVariable.text (s : StaticVariable) : String :=
  (if s.isGlobal then "global " else "static ") ++ s.name ++ ": " ++ s.type.name ++ " = " ++
    s.init.text

def Program.text (p : Program) : String :=
  Listing.render StaticVariable.text p.statics ++ String.join (p.functions.map Function.text)

end ThreeAddress
