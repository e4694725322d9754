import ThreeAddress.Config
import ThreeAddress.Optimise.Aliasing
import ThreeAddress.Optimise.Copies
import ThreeAddress.Optimise.DeadStores
import ThreeAddress.Optimise.Fold
import ThreeAddress.Optimise.Unreachable
import ThreeAddress.Program

/-!
# The optimiser

Every function is optimised on its own.  A round runs the enabled passes in a fixed order, and
rounds are repeated until one leaves the body as it was, or the configured number is reached.
The set of aliased variables is computed anew for every round, since passes may remove the
instructions that take addresses.

There is no result if the search for known copies does not settle within the visits it is allowed.
-/

namespace ThreeAddress

/-- A function whose body still changed in the last round it was allowed. -/
structure Warning where
  function : String
  rounds : Nat
  deriving DecidableEq, Repr

def Warning.message (w : Warning) : String :=
  w.function ++ ": optimisation did not converge within " ++ toString w.rounds ++ " iterations"

def Pass.run? (p : Pass) (visits : Nat) (aliased : NameSet) (body : Listing Instr) :
    Option (Listing Instr) :=
  match p with
  | .fold => some (foldConstants body)
  | .unreachable => some (eliminateUnreachable body)
  | .copies => propagateCopies? visits aliased body
  | .deadStores => some (eliminateDeadStores aliased body)

/-- The body after each of the given passes, in order, with the pass that left it. -/
def passStates? (visits : Nat) (aliased : NameSet) :
    List Pass → Listing Instr → Option (List (Pass × Listing Instr))
  | [], _ => some []
  | p :: rest, body =>
    (p.run? visits aliased body).bind fun body =>
      (passStates? visits aliased rest body).map ((p, body) :: ·)

def Config.enabledPasses (c : Config) : List Pass := Pass.all.filter c.passes.enables

/-- The variables that may be accessed other than by name. -/
def aliasedNames (statics : NameSet) (body : Listing Instr) : NameSet :=
  addressTaken body ∪ statics

/-- One round: the states the body goes through, and the last of them. -/
def round? (c : Config) (statics : NameSet) (body : Listing Instr) :
    Option (List (Pass × Listing Instr) × Listing Instr) :=
  (passStates? c.maxVisits (aliasedNames statics body) c.enabledPasses body).map fun states =>
    (states, (states.getLast?.map Prod.snd).getD body)

/-- The course of an optimisation. -/
structure Course where
  /-- The body in the end. -/
  body : Listing Instr
  /-- The states of every round. -/
  rounds : List (List (Pass × Listing Instr))
  /-- Whether the last round left the body as it was. -/
  converged : Bool

/-- Repeats rounds until one changes nothing, at most the given number of times. -/
def rounds? (c : Config) (statics : NameSet) : Nat → Listing Instr → Option Course
  | 0, body => some ⟨body, [], false⟩
  | limit + 1, body =>
    (round? c statics body).bind fun (states, result) =>
      if result = body then some ⟨result, [states], true⟩
      else (rounds? c statics limit result).map fun course =>
        { course with rounds := states :: course.rounds }

/-- A function after optimisation, with what was recorded on the way. -/
structure Optimised where
  function : Function
  dumps : List Dump
  warnings : List Warning

def listingText (body : Listing Instr) : String := Listing.render Instr.text body

/-- The dumps of a course: the body at first, then after every pass of every round. -/
def Course.dumps (course : Course) (name : String) (body : Listing Instr) : List Dump :=
  let later := course.rounds.zipIdx.flatMap fun (states, n) =>
    states.map fun (p, body) =>
      (⟨name, "tac." ++ toString (n + 1) ++ "." ++ p.name, listingText body⟩ : Dump)
  ⟨name, "tac", listingText body⟩ :: later

/-- Optimises a function.  The variables named in `statics` may be accessed by other functions. -/
def Function.optimise? (f : Function) (statics : NameSet) (c : Config) : Option Optimised :=
  (rounds? c statics c.maxRounds f.body).map fun course =>
    { function := { f with body := course.body }
      dumps :=
        if c.dumps.listings && c.dumps.wants f.name then course.dumps f.name f.body else []
      warnings :=
        if course.converged || c.maxRounds == 0 then [] else [⟨f.name, c.maxRounds⟩] }

def Program.staticNames (p : Program) : NameSet :=
  Std.ExtTreeSet.ofList (p.statics.map StaticVariable.name) compare

structure OptimisedProgram where
  program : Program
  dumps : List Dump
  warnings : List Warning

/-- Optimises every function of a program, unless no pass is enabled. -/
def Program.optimise? (p : Program) (c : Config) : Option OptimisedProgram :=
  if c.passes.anyEnabled then
    (p.functions.mapM fun f : Function => f.optimise? p.staticNames c).map fun results =>
      { program := { p with functions := results.map Optimised.function }
        dumps := results.flatMap Optimised.dumps
        warnings := results.flatMap Optimised.warnings }
  else some ⟨p, [], []⟩

end ThreeAddress
