import Std.Data.ExtTreeSet
import ThreeAddress.ScalarType

/-!
# Registers of the AMD64 machine

Sixteen general purpose and sixteen SSE registers, the widths with which they are accessed, and the
parts they play: which of them the allocator may hand out, which a call destroys, and which a
function must leave as it found them.
-/

namespace ThreeAddress.Amd64

inductive Width where
  | byte
  | long
  | quad
  | double
  deriving DecidableEq, Repr

namespace Width

def size : Width → Nat
  | byte => 1
  | long => 4
  | quad | double => 8

def ofType : ScalarType → Width
  | .char | .schar | .uchar => byte
  | .int | .uint => long
  | .long | .ulong | .pointer => quad
  | .double => double

/-- Announces the width of an operand in memory. -/
def pointerText : Width → String
  | byte => "BYTE PTR"
  | long => "DWORD PTR"
  | quad | double => "QWORD PTR"

/-- A value takes as many bytes in the machine as its type says. -/
theorem size_ofType (t : ScalarType) : (ofType t).size = t.size := by
  cases t <;> rfl

end Width

inductive Register where
  | rax
  | rbx
  | rcx
  | rdx
  | rsi
  | rdi
  | rbp
  | rsp
  | r8
  | r9
  | r10
  | r11
  | r12
  | r13
  | r14
  | r15
  | xmm (n : Fin 16)
  deriving DecidableEq, Repr

/-- There are numbers for `xmm` registers. -/
instance (priority := high) neZero_sixteen : @NeZero Nat Zero.ofOfNat0 16 := ⟨by decide⟩

/-- The class of a register determines which instructions can use it. -/
inductive RegisterClass where
  | general
  | sse
  deriving DecidableEq, Repr

namespace Register

def index : Register → Nat
  | rax => 0
  | rbx => 1
  | rcx => 2
  | rdx => 3
  | rsi => 4
  | rdi => 5
  | rbp => 6
  | rsp => 7
  | r8 => 8
  | r9 => 9
  | r10 => 10
  | r11 => 11
  | r12 => 12
  | r13 => 13
  | r14 => 14
  | r15 => 15
  | xmm n => 16 + n

theorem index_injective {a b : Register} (h : a.index = b.index) : a = b := by
  cases a <;> cases b <;> simp only [index] at h <;> first
    | rfl
    | omega
    | exact congrArg xmm (Fin.ext (by omega))

instance : Ord Register := ⟨compareOn index⟩

instance : Std.TransOrd Register :=
  inferInstanceAs (Std.TransCmp (compareOn index))

instance : Std.LawfulEqOrd Register where
  compare_self {a} := (Std.ReflCmp.compare_self : compare a.index a.index = .eq)
  eq_of_compare {a b} h := by
    change compare a.index b.index = .eq at h
    exact index_injective (Std.LawfulEqCmp.eq_of_compare h)

def isSse : Register → Bool
  | xmm _ => true
  | _ => false

def registerClass (r : Register) : RegisterClass := if r.isSse then .sse else .general

/-- The names of a general purpose register at eight, four and one bytes. -/
def names : Register → String × String × String
  | rax => ("rax", "eax", "al")
  | rbx => ("rbx", "ebx", "bl")
  | rcx => ("rcx", "ecx", "cl")
  | rdx => ("rdx", "edx", "dl")
  | rsi => ("rsi", "esi", "sil")
  | rdi => ("rdi", "edi", "dil")
  | rbp => ("rbp", "ebp", "bpl")
  | rsp => ("rsp", "esp", "spl")
  | r8 => ("r8", "r8d", "r8b")
  | r9 => ("r9", "r9d", "r9b")
  | r10 => ("r10", "r10d", "r10b")
  | r11 => ("r11", "r11d", "r11b")
  | r12 => ("r12", "r12d", "r12b")
  | r13 => ("r13", "r13d", "r13b")
  | r14 => ("r14", "r14d", "r14b")
  | r15 => ("r15", "r15d", "r15b")
  | xmm n =>
    let name := "xmm" ++ toString n.val
    (name, name, name)

/-- The name of a register when it is accessed with the given width. -/
def name (r : Register) : Width → String
  | .quad | .double => r.names.1
  | .long => r.names.2.1
  | .byte => r.names.2.2

def text (r : Register) : String := r.name .quad

/-- The registers whose value a call may destroy. -/
def callerSaved : List Register :=
  [rax, rcx, rdx, rsi, rdi, r8, r9, r10, r11] ++ (List.finRange 16).map xmm

/-- The registers, other than the frame registers, that a function must restore. -/
def calleeSaved : List Register := [rbx, r12, r13, r14, r15]

end Register

namespace RegisterClass

def all : List RegisterClass := [general, sse]

def name : RegisterClass → String
  | general => "general"
  | sse => "sse"

/-- The registers the allocator may hand out.  The general purpose ones that a call destroys come
first; `r10`, `r11`, `xmm14` and `xmm15` are kept free to make instructions encodable. -/
def colours : RegisterClass → List Register
  | general => [.rax, .rcx, .rdx, .rsi, .rdi, .r8, .r9, .rbx, .r12, .r13, .r14, .r15]
  | sse => ((List.finRange 16).map Register.xmm).take 14

end RegisterClass

end ThreeAddress.Amd64
