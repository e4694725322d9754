import ThreeAddress.Instr.Basic

/-!
# The text of instructions

One line per instruction, as it appears in listings and dumps.
-/

namespace ThreeAddress

/-- A label is written as its name, an underscore and its subscript. -/
def Label.text (l : Label) : String := l.name ++ "_" ++ toString l.subscript

def Value.text : Value → String
  | .const c => c.text
  | .var v => v.name

def Instr.text : Instr → String
  | .ret none => "return"
  | .ret (some value) => "return " ++ value.text
  | .unary dst op src => dst.name ++ " = " ++ op.symbol ++ src.text
  | .binary dst op lhs rhs =>
    dst.name ++ " = " ++ lhs.text ++ " " ++ op.symbol ++ " " ++ rhs.text
  | .copy dst src => dst.name ++ " = " ++ src.text
  | .addressOf dst src => dst.name ++ " = &" ++ src.text
  | .load dst ptr => dst.name ++ " = *" ++ ptr.text
  | .store ptr src => "*" ++ ptr.text ++ " = " ++ src.text
  | .jump target => "goto " ++ target.text
  | .jumpIfZero cond target => "if_zero " ++ cond.text ++ " goto " ++ target.text
  | .jumpIfNotZero cond target => "if_not_zero " ++ cond.text ++ " goto " ++ target.text
  | .label l => l.text ++ ":"
  | .call dst callee args =>
    let result := match dst with
      | some v => v.name ++ " = "
      | none => ""
    result ++ "call " ++ callee ++ "(" ++ ", ".intercalate (args.map Value.text) ++ ")"
  | .convert dst conversion src =>
    dst.name ++ " = " ++ conversion.name ++ " " ++ src.text ++ " to " ++ dst.type.name

end ThreeAddress
