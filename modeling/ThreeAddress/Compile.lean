import ThreeAddress.Amd64.Generate
import ThreeAddress.Optimise.Pipeline
import ThreeAddress.Verification.Check

/-!
# The compiler

Verifies a program, optimises it and generates its assembly.
-/

namespace ThreeAddress

inductive CompileError where
  /-- The program is malformed or not supported. -/
  | rejected (r : Rejection)
  /-- The search for known copies does not settle. -/
  | unsettled
  | lowering (e : Amd64.LoweringError)
  deriving DecidableEq, Repr

def CompileError.message : CompileError → String
  | rejected r => r.message
  | unsettled => "the search for known copies does not settle"
  | lowering e => e.message

structure Output where
  assembly : String
  dumps : List Dump
  warnings : List Warning

def Program.compile (p : Program) (c : Config) : Except CompileError Output :=
  match p.verify c with
  | .error r => .error (.rejected r)
  | .ok () =>
    match p.optimise? c with
    | none => .error .unsettled
    | some optimised =>
      match Amd64.generate optimised.program c with
      | .error e => .error (.lowering e)
      | .ok (assembly, dumps) =>
        .ok ⟨assembly, optimised.dumps ++ dumps, optimised.warnings⟩

end ThreeAddress
