import ThreeAddress.Amd64.ConstantPool
import ThreeAddress.Amd64.Frame
import ThreeAddress.Amd64.Procedure
import ThreeAddress.Program

/-!
# Assembly files

The text of a complete assembly file for the GNU assembler, in Intel syntax: the procedures, the
static variables and the double constants.
-/

namespace ThreeAddress.Amd64

inductive Directive where
  | intelSyntax
  | globl (symbol : String)
  | text
  | data
  | bss
  | section (name : String)
  /-- A section for constants of the given size. -/
  | literal (size : Nat)
  | balign (bytes : Nat)
  | label (symbol : String)
  | byte (v : Int)
  | long (v : Int)
  | quad (v : Int)
  | zero (bytes : Nat)
  deriving DecidableEq, Repr

/-- The line of a directive.  Labels are not indented. -/
def Directive.line : Directive → String
  | intelSyntax => "    .intel_syntax noprefix"
  | globl symbol => "    .globl " ++ symbol
  | text => "    .text"
  | data => "    .data"
  | bss => "    .bss"
  | «section» name => "    .section " ++ name
  | literal size => "    .literal" ++ toString size
  | balign bytes => "    .balign " ++ toString bytes
  | label symbol => symbol ++ ":"
  | byte v => "    .byte " ++ toString v
  | long v => "    .long " ++ toString v
  | quad v => "    .quad " ++ toString v
  | zero bytes => "    .zero " ++ toString bytes

/-- Makes a symbol visible to the linker, if it is global. -/
def globalLines (isGlobal : Bool) (symbol : String) : List String :=
  if isGlobal then [(Directive.globl symbol).line] else []

def remarkedLines (code : List (Instr × String)) : List String :=
  code.map fun (i, remark) => i.remarked remark

/-- A procedure that is ready to be emitted. -/
structure EmittedProcedure where
  procedure : Procedure
  frame : Frame

/-- The lines of a procedure.  Every return is replaced by the end of the procedure. -/
def EmittedProcedure.lines (platform : Platform) (e : EmittedProcedure) : List String :=
  let symbol := platform.symbol e.procedure.name
  let body := e.procedure.body.flatMap fun i =>
    if i.op = .ret then remarkedLines e.frame.epilogue else [i.text]
  globalLines e.procedure.isGlobal symbol ++
    [Directive.text.line, (Directive.label symbol).line] ++
    remarkedLines e.frame.prologue ++ body ++ [""]

/-- The directive that reserves and initialises a static variable. -/
def initialiser (c : Const) : Directive :=
  if c.extended = 0 then .zero c.type.size
  else
    match Width.ofType c.type with
    | .byte => .byte c.word
    | .long => .long c.word
    | .quad | .double => .quad c.word

/-- The lines of a static variable.  A negative zero does not consist of zero bits. -/
def staticLines (platform : Platform) (s : StaticVariable) : List String :=
  let symbol := platform.symbol s.name
  globalLines s.isGlobal symbol ++
    [(if s.init.extended = 0 then Directive.bss else .data).line,
      (Directive.balign s.type.size).line,
      (Directive.label symbol).line,
      (initialiser s.init).line,
      ""]

/-- The lines of a double constant.  Instructions that need a larger alignment read as many
bytes. -/
def poolEntryLines (platform : Platform) (e : PoolEntry) : List String :=
  (if platform = .macos then [(Directive.literal e.alignment).line] else []) ++
    [(Directive.balign e.alignment).line,
      (Directive.label e.name).line,
      (Directive.quad e.value.bits.toInt).line] ++
    (if e.alignment = 16 then [(Directive.quad 0).line] else [])

def poolLines (p : ConstantPool) : List String :=
  if p.entries.isEmpty then []
  else
    (if p.platform = .linux then [(Directive.section ".rodata").line] else []) ++
      p.entries.flatMap (poolEntryLines p.platform) ++ [""]

/-- The end of the file: on Linux, the stack is marked as not executable. -/
def trailerLines : Platform → List String
  | .linux => [(Directive.section ".note.GNU-stack,\"\",@progbits").line]
  | .macos => []

structure Assembly where
  platform : Platform
  procedures : List EmittedProcedure
  statics : List StaticVariable
  constants : ConstantPool

def Assembly.text (a : Assembly) : String :=
  Listing.render id
    ([Directive.intelSyntax.line, ""] ++
      a.procedures.flatMap (EmittedProcedure.lines a.platform) ++
      a.statics.flatMap (staticLines a.platform) ++
      poolLines a.constants ++
      trailerLines a.platform)

end ThreeAddress.Amd64
