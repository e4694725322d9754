import ThreeAddress.Binary64.Basic
import ThreeAddress.Config

/-!
# The pool of double constants

Instructions cannot hold a double, so double constants are placed in read-only memory.  Constants
with the same bits and alignment share one place.
-/

namespace ThreeAddress.Amd64

/-- A double in read-only memory. -/
structure PoolEntry where
  name : String
  value : Binary64
  alignment : Nat
  deriving DecidableEq, Repr

structure ConstantPool where
  platform : Platform
  entries : List PoolEntry

namespace ConstantPool

def empty (platform : Platform) : ConstantPool := ⟨platform, []⟩

def entryName (platform : Platform) (n : Nat) : String := platform.localMark ++ "dbl." ++ toString n

/-- The name of a constant, which is added to the pool if it is new. -/
def intern (p : ConstantPool) (value : Binary64) (alignment : Nat) : String × ConstantPool :=
  match p.entries.find? fun e => e.value == value && e.alignment == alignment with
  | some e => (e.name, p)
  | none =>
    let name := entryName p.platform p.entries.length
    (name, { p with entries := p.entries ++ [⟨name, value, alignment⟩] })

end ConstantPool

end ThreeAddress.Amd64
