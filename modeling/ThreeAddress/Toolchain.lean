/-!
# Commands of the toolchain

The commands that assemble and link what the compiler produces.  Paths are byte strings, and only
those that are valid UTF-8 can be passed on.  A program receives its arguments as strings that end
with a NUL, so an argument that contains one is replaced.
-/

namespace ThreeAddress.Toolchain

structure Command where
  program : String
  args : List String
  deriving DecidableEq, Repr

inductive CommandError where
  | invalidPath
  deriving DecidableEq, Repr

def CommandError.message : CommandError → String
  | invalidPath => "Path contains invalid unicode"

/-- Both commands go through the compiler driver, which picks the assembler and linker. -/
def driver : String := "gcc"

/-- Stands for an argument that contains a NUL. -/
def withNul : String := "<string-with-nul>"

/-- The argument that is passed for a text. -/
def argument (s : String) : String := if s.contains '\x00' then withNul else s

/-- The command that passes the given texts to the compiler driver. -/
def Command.ofTexts (texts : List String) : Command := ⟨driver, texts.map argument⟩

def pathText (path : ByteArray) : Except CommandError String :=
  match String.fromUTF8? path with
  | some s => .ok s
  | none => .error .invalidPath

def assemble (input output : ByteArray) : Except CommandError Command := do
  let input ← pathText input
  let output ← pathText output
  return .ofTexts ["-c", input, "-o", output]

/-- The command that links object files and libraries into an executable. -/
def link (objects : List ByteArray) (output : ByteArray) (libraries : List String) :
    Except CommandError Command := do
  let objects ← objects.mapM pathText
  let output ← pathText output
  return .ofTexts (objects ++ ["-o", output] ++ libraries.map ("-l" ++ ·))

end ThreeAddress.Toolchain
