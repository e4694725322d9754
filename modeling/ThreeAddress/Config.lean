/-!
# Configuration

What a single compilation is asked to do: the platform to emit for, the language features that
are allowed, the optimisations to run, and the intermediate states to record.
-/

namespace ThreeAddress

attribute [local instance (high)] instPowNat

/-- The platforms assembly can be emitted for.  They share one calling convention and differ in
the spelling of symbols and sections. -/
inductive Platform where
  | linux
  | macos
  deriving DecidableEq, Repr

namespace Platform

/-- The symbol under which a global name is known to the linker. -/
def symbol : Platform → String → String
  | linux, name => name
  | macos, name => "_" ++ name

/-- Starts every label that stays inside the assembly file. -/
def localMark : Platform → String
  | linux => ".L"
  | macos => "L"

end Platform

/-- The optimisation passes, in the order in which they run. -/
inductive Pass where
  /-- Evaluates instructions on constants. -/
  | fold
  /-- Removes code that cannot be reached. -/
  | unreachable
  /-- Replaces variables by what they were copied from. -/
  | copies
  /-- Removes assignments that nothing reads. -/
  | deadStores
  deriving DecidableEq, Repr

namespace Pass

def all : List Pass := [fold, unreachable, copies, deadStores]

def name : Pass → String
  | fold => "fold"
  | unreachable => "unreachable"
  | copies => "copyprop"
  | deadStores => "dse"

end Pass

structure Passes where
  fold : Bool
  unreachable : Bool
  copies : Bool
  deadStores : Bool
  deriving DecidableEq, Repr

namespace Passes

def all : Passes := ⟨true, true, true, true⟩

def none : Passes := ⟨false, false, false, false⟩

def enables (p : Passes) : Pass → Bool
  | .fold => p.fold
  | .unreachable => p.unreachable
  | .copies => p.copies
  | .deadStores => p.deadStores

def anyEnabled (p : Passes) : Bool := Pass.all.any p.enables

end Passes

/-- Which intermediate states are recorded. -/
structure DumpOptions where
  /-- The listing before optimisation and after every pass. -/
  listings : Bool := false
  /-- The assembly before and after register allocation. -/
  assembly : Bool := false
  interference : Bool := false
  /-- Record only the function of this name. -/
  only : Option String := .none
  deriving DecidableEq, Repr

def DumpOptions.wants (d : DumpOptions) (function : String) : Bool :=
  match d.only with
  | some name => name == function
  | .none => true

structure Config where
  platform : Platform := .linux
  /-- Whether doubles may occur. -/
  floatingPoint : Bool := true
  passes : Passes := .all
  /-- How often the sequence of passes is repeated at most. -/
  maxRounds : Nat := 64
  /-- How many block visits the search for known copies may make.  A search that has not settled
  by then is given up, and the default is beyond what any machine can spend. -/
  maxVisits : Nat := 2 ^ (62 : Nat)
  dumps : DumpOptions := {}
  deriving DecidableEq, Repr

/-- A recorded intermediate state of a function. -/
structure Dump where
  function : String
  stage : String
  contents : String
  deriving DecidableEq, Repr

end ThreeAddress
