import ThreeAddress.Amd64.Register

/-!
# Operations of the AMD64 machine

The operations that lowered code uses.  Most of them exist for integers and for doubles under
different mnemonics, chosen by the width of the operands.
-/

namespace ThreeAddress.Amd64

/-- The conditions of conditional jumps and of `set` instructions. -/
inductive Condition where
  | e
  | ne
  | l
  | le
  | g
  | ge
  | b
  | be
  | a
  | ae
  | p
  deriving DecidableEq, Repr

def Condition.text : Condition → String
  | e => "e"
  | ne => "ne"
  | l => "l"
  | le => "le"
  | g => "g"
  | ge => "ge"
  | b => "b"
  | be => "be"
  | a => "a"
  | ae => "ae"
  | p => "p"

inductive Opcode where
  | push
  | pop
  | call
  | ret
  | mov
  /-- Sign extension from an operand of the given width. -/
  | movsx (source : Width)
  /-- Zero extension from an operand of the given width. -/
  | movzx (source : Width)
  | lea
  | cvttsd2si
  /-- Conversion to double from an integer of the given width. -/
  | cvtsi2sd (source : Width)
  | add
  | sub
  | imul
  | idiv
  | div
  | cdq
  | neg
  | and
  | or
  | xor
  | not
  | sal
  | sar
  | shr
  | cmp
  | comisd
  | jmp
  | jcc (c : Condition)
  | setcc (c : Condition)
  | label
  deriving DecidableEq, Repr

/-- The mnemonic of an operation on operands of the given width.  A 32-bit move clears the upper
half of its destination, so it also serves as zero extension from 32 bits. -/
def Opcode.mnemonic (op : Opcode) (w : Width) : String :=
  match op, w with
  | push, _ => "push"
  | pop, _ => "pop"
  | call, _ => "call"
  | ret, _ => "ret"
  | mov, .double => "movsd"
  | mov, _ => "mov"
  | movsx .long, _ => "movsxd"
  | movsx _, _ => "movsx"
  | movzx .long, _ => "mov"
  | movzx _, _ => "movzx"
  | lea, _ => "lea"
  | cvttsd2si, _ => "cvttsd2si"
  | cvtsi2sd _, _ => "cvtsi2sd"
  | add, .double => "addsd"
  | add, _ => "add"
  | sub, .double => "subsd"
  | sub, _ => "sub"
  | imul, .double => "mulsd"
  | imul, _ => "imul"
  | idiv, _ => "idiv"
  | div, .double => "divsd"
  | div, _ => "div"
  | cdq, .quad => "cqo"
  | cdq, _ => "cdq"
  | neg, _ => "neg"
  | and, _ => "and"
  | or, _ => "or"
  | xor, .double => "xorpd"
  | xor, _ => "xor"
  | not, _ => "not"
  | sal, _ => "sal"
  | sar, _ => "sar"
  | shr, _ => "shr"
  | cmp, .double => "comisd"
  | cmp, _ => "cmp"
  | comisd, _ => "comisd"
  | jmp, _ => "jmp"
  | jcc c, _ => "j" ++ c.text
  | setcc c, _ => "set" ++ c.text
  | label, _ => ""

end ThreeAddress.Amd64
