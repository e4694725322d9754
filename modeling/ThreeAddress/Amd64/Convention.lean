import ThreeAddress.Amd64.Register

/-!
# The calling convention

Where arguments and results are passed, as on all System V platforms: the first six integers and
pointers and the first eight doubles in registers, everything else on the stack.
-/

namespace ThreeAddress.Amd64

inductive ArgumentPlace where
  | reg (r : Register)
  /-- The `n`-th value on the stack, counted from zero at the lowest address. -/
  | stack (n : Nat)
  deriving DecidableEq, Repr

namespace ArgumentPlace

def reg? : ArgumentPlace → Option Register
  | reg r => some r
  | stack _ => none

def integerRegisters : List Register := [.rdi, .rsi, .rdx, .rcx, .r8, .r9]

def doubleRegisters : List Register := ((List.finRange 16).map Register.xmm).take 8

/-- The places of arguments of the given types, given the registers still free and the number of
arguments already on the stack. -/
def assign : List Register → List Register → Nat → List ScalarType → List ArgumentPlace
  | _, _, _, [] => []
  | integers, doubles, onStack, t :: rest =>
    if t.isDouble then
      match doubles with
      | r :: doubles => reg r :: assign integers doubles onStack rest
      | [] => stack onStack :: assign integers [] (onStack + 1) rest
    else
      match integers with
      | r :: integers => reg r :: assign integers doubles onStack rest
      | [] => stack onStack :: assign [] doubles (onStack + 1) rest

def ofTypes (types : List ScalarType) : List ArgumentPlace :=
  assign integerRegisters doubleRegisters 0 types

theorem length_assign (integers doubles : List Register) (n : Nat) (types : List ScalarType) :
    (assign integers doubles n types).length = types.length := by
  induction types generalizing integers doubles n with
  | nil => rfl
  | cons t rest ih =>
    unfold assign
    split <;> split <;> simp [ih]

@[simp] theorem length_ofTypes (types : List ScalarType) :
    (ofTypes types).length = types.length := length_assign _ _ _ _

end ArgumentPlace

def resultRegister (t : ScalarType) : Register := if t.isDouble then .xmm 0 else .rax

def resultRegisters (returns : Option ScalarType) : List Register :=
  (returns.map resultRegister).toList

/-- The distance from the base pointer of the `n`-th argument on the stack: the return address and
the saved base pointer lie between. -/
def stackArgumentOffset (n : Nat) : Int := 16 + 8 * n

end ThreeAddress.Amd64
