import ThreeAddress.Amd64.Instr

/-!
# Stack frames

A procedure saves the base pointer, reserves room for its stack slots and saves the registers it has
to preserve; at its end it undoes all of that.  The room is padded so that the stack pointer is a
multiple of sixteen at every call.
-/

namespace ThreeAddress.Amd64

structure Frame where
  /-- The bytes reserved below the base pointer. -/
  locals : Nat
  /-- The registers to preserve, in the order in which they are saved. -/
  saved : List Register
  deriving DecidableEq, Repr

namespace Frame

/-- The least multiple of sixteen that is not below a number. -/
def roundUp16 (n : Nat) : Nat := (n + 15) / 16 * 16

/-- A frame with room for stack slots.  Together with the saved registers, the room is a multiple of
sixteen. -/
def ofSlots (slotBytes : Nat) (saved : List Register) : Frame where
  locals := roundUp16 (slotBytes + 8 * saved.length) - 8 * saved.length
  saved := saved

/-- The instructions at the start of a procedure, with remarks. -/
def prologue (f : Frame) : List (Instr × String) :=
  [(.bare .push [.reg .rbp], "store base pointer"),
    (.bare .mov [.reg .rbp, .reg .rsp], "move base pointer down")] ++
  (if f.locals = 0 then []
    else [(.bare .sub [.reg .rsp, .imm f.locals], "reserve stack slots")]) ++
  f.saved.map fun r => (.bare .push [.reg r], "save callee-saved register")

/-- The instructions at the end of a procedure, with remarks. -/
def epilogue (f : Frame) : List (Instr × String) :=
  f.saved.reverse.map (fun r => (.bare .pop [.reg r], "restore callee-saved register")) ++
  [(.bare .mov [.reg .rsp, .reg .rbp], "move stack pointer back up"),
    (.bare .pop [.reg .rbp], "restore previous base pointer"),
    (.bare .ret [], "return to caller")]

end Frame

end ThreeAddress.Amd64
