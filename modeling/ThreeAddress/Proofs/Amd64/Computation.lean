import ThreeAddress.Amd64.Allocate
import ThreeAddress.Proofs.Amd64.Words

/-!
# What instructions compute

An instruction that computes something reads the values of some operands, and writes results to
others.  Integers are in two's complement.  Arithmetic on doubles is left to the hardware: it is
some function on their 64 bits.

The allocator knows of an instruction only which locations it reads and writes.  For every
instruction but the division of doubles, these are the locations that the computation uses.
-/

namespace ThreeAddress.Amd64

/-! ### Flags -/

/-- The flags that conditions look at. -/
structure Flags where
  zero : Bool
  sign : Bool
  carry : Bool
  overflow : Bool
  parity : Bool

def Condition.holds (flags : Flags) : Condition → Bool
  | .e => flags.zero
  | .ne => !flags.zero
  | .l => flags.sign != flags.overflow
  | .le => flags.zero || flags.sign != flags.overflow
  | .g => !flags.zero && flags.sign == flags.overflow
  | .ge => flags.sign == flags.overflow
  | .b => flags.carry
  | .be => flags.carry || flags.zero
  | .a => !flags.carry && !flags.zero
  | .ae => !flags.carry
  | .p => flags.parity

namespace Flags

variable {n : Nat}

/-- Whether the lowest byte has an even number of bits set. -/
def evenParity (x : BitVec n) : Bool :=
  ((List.range 8).filter fun i => x.getLsbD i).length % 2 == 0

/-- The flags after a result with the given carry and overflow. -/
def ofResult (r : BitVec n) (carry overflow : Bool) : Flags :=
  ⟨r == 0#n, r.msb, carry, overflow, evenParity r⟩

def ofAdd (x y : BitVec n) : Flags := ofResult (x + y) (x.uaddOverflow y) (x.saddOverflow y)

def ofSub (x y : BitVec n) : Flags := ofResult (x - y) (x.usubOverflow y) (x.ssubOverflow y)

def ofBitwise (r : BitVec n) : Flags := ofResult r false false

end Flags

/-! ### Results -/

/-- What is left to the hardware. -/
structure Hardware where
  /-- The result of arithmetic on doubles. -/
  double (op : Opcode) (x y : Word) : Word
  /-- The flags after a comparison of doubles. -/
  compare (x y : Word) : Flags
  /-- The integer of a width that a double is converted to. -/
  toInteger (w : Width) (x : Word) : Word
  /-- The double that an integer of a width is converted to. -/
  ofInteger (w : Width) (x : Word) : Word
  /-- The flags after an operation that leaves them in a state that no one relies on. -/
  flags (op : Opcode) (w : Width) (operands : List Word) (old : Flags) : Flags

/-- The low bits of a word as an integer of a width. -/
def Width.ofWord (w : Width) (x : Word) : BitVec w.bits := x.setWidth w.bits

/-- An operation that combines two values of one width. -/
def Hardware.combine (h : Hardware) (op : Opcode) (w : Width) (x y : Word) (old : Flags) :
    Word × Flags :=
  let a := w.ofWord x
  let b := w.ofWord y
  match op, w with
  | .xor, .double => (x ^^^ y, old)
  | op, .double => (h.double op x y, old)
  | .add, _ => ((a + b).setWidth 64, .ofAdd a b)
  | .sub, _ => ((a - b).setWidth 64, .ofSub a b)
  | .and, _ => ((a &&& b).setWidth 64, .ofBitwise (a &&& b))
  | .or, _ => ((a ||| b).setWidth 64, .ofBitwise (a ||| b))
  | .xor, _ => ((a ^^^ b).setWidth 64, .ofBitwise (a ^^^ b))
  | op, w => ((a * b).setWidth 64, h.flags op w [x, y] old)

/-- The machine uses only the lowest bits of the count of a shift. -/
def shiftCount (w : Width) (n : Word) : Nat := n.toNat % (if w = .quad then 64 else 32)

def shifted (op : Opcode) (w : Width) (x n : Word) : Word :=
  let a := w.ofWord x
  match op with
  | .sal => (a <<< shiftCount w n).setWidth 64
  | .sar => (a.sshiftRight (shiftCount w n)).setWidth 64
  | _ => (a >>> shiftCount w n).setWidth 64

def Hardware.shift (h : Hardware) (op : Opcode) (w : Width) (x n : Word) (old : Flags) :
    Word × Flags := (shifted op w x n, h.flags op w [x, n] old)

def Hardware.comparison (h : Hardware) (w : Width) (x y : Word) : Flags :=
  if w = .double then h.compare x y else .ofSub (w.ofWord x) (w.ofWord y)

/-- The quotient and the remainder of a number of two words.  There are none if the divisor is zero
or the quotient does not fit. -/
def quotients (signed : Bool) {n : Nat} (upper lower divisor : BitVec n) :
    Option (BitVec n × BitVec n) :=
  if divisor = 0#n then none
  else if signed then
    let dividend := (upper ++ lower).toInt
    let q := dividend.tdiv divisor.toInt
    if -2 ^ (n - 1) ≤ q ∧ q < 2 ^ (n - 1) then
      some (BitVec.ofInt n q, BitVec.ofInt n (dividend.tmod divisor.toInt))
    else none
  else
    let dividend := (upper ++ lower).toNat
    let q := dividend / divisor.toNat
    if q < 2 ^ n then some (BitVec.ofNat n q, BitVec.ofNat n (dividend % divisor.toNat)) else none

/-- Copies of the sign of a value. -/
def signWord (w : Width) (x : Word) : Word := if (w.ofWord x).msb then BitVec.allOnes 64 else 0

/-! ### Computations -/

/-- How much of a register is determined by a write to it. -/
inductive Extent where
  /-- What is copied.  That a copy of 32 bits clears the upper half of a register is not counted on,
  since a copy may turn out not to be needed. -/
  | copied
  /-- All that the machine sets. -/
  | computed
  /-- What is written, and what was determined above it before. -/
  | merged

/-- How many of the lowest bits of a location are determined after a write to it. -/
def Extent.determined (x : Extent) (l : Location Register) (w : Width) (old : Nat) : Nat :=
  match x, l, w with
  | .merged, _, w => max old w.bits
  | .computed, .reg _, .long => 64
  | _, _, w => w.bits

/-- What an instruction reads and writes, and how the results and the new flags are computed.  There
are none if the machine cannot go on. -/
structure Computation where
  reads : List (Operand × Width)
  writes : List (Operand × Width)
  extent : Extent := .computed
  compute : List Word → Flags → Option (List Word × Flags)

namespace Computation

def convert (d : Operand) (w : Width) (s : Operand) (v : Width) (f : Word → Word) :
    Computation where
  reads := [(s, v)]
  writes := [(d, w)]
  compute
    | [x], flags => some ([f x], flags)
    | _, _ => none

def copy (d : Operand) (w : Width) (s : Operand) : Computation :=
  { convert d w s w id with extent := .copied }

def clear (d : Operand) (w : Width) : Computation where
  reads := []
  writes := [(d, w)]
  compute
    | [], flags => some ([0#64], if w = .double then flags else .ofBitwise 0#w.bits)
    | _, _ => none

/-- Sets the lowest byte of an operand to 0 or 1. -/
def setByte (d : Operand) (c : Condition) : Computation where
  reads := []
  writes := [(d, .byte)]
  extent := .merged
  compute
    | [], flags => some ([if c.holds flags then 1#64 else 0#64], flags)
    | _, _ => none

def modify (d : Operand) (w : Width) (f : Word → Flags → Word × Flags) : Computation where
  reads := [(d, w)]
  writes := [(d, w)]
  compute
    | [x], flags => some ([(f x flags).1], (f x flags).2)
    | _, _ => none

def combine (d : Operand) (w : Width) (s : Operand) (v : Width)
    (f : Word → Word → Flags → Word × Flags) : Computation where
  reads := [(d, w), (s, v)]
  writes := [(d, w)]
  compute
    | [x, y], flags => some ([(f x y flags).1], (f x y flags).2)
    | _, _ => none

def compare (a b : Operand) (w : Width) (f : Word → Word → Flags) : Computation where
  reads := [(a, w), (b, w)]
  writes := []
  compute
    | [x, y], _ => some ([], f x y)
    | _, _ => none

/-- Divides the number in `rdx` and `rax`. -/
def divide (h : Hardware) (op : Opcode) (signed : Bool) (w : Width) (s : Operand) :
    Computation where
  reads := [(.reg .rdx, w), (.reg .rax, w), (s, w)]
  writes := [(.reg .rax, w), (.reg .rdx, w)]
  compute
    | [x, y, z], flags =>
      (quotients signed (w.ofWord x) (w.ofWord y) (w.ofWord z)).map fun (q, r) =>
        ([q.setWidth 64, r.setWidth 64], h.flags op w [x, y, z] flags)
    | _, _ => none

def mapOperands (f : Operand → Operand) (c : Computation) : Computation :=
  { c with
    reads := c.reads.map (Prod.map f id)
    writes := c.writes.map (Prod.map f id) }

end Computation

/-- Whether the operation exists for integers of a width.  There is no division of bytes here, since
it uses other registers. -/
def Width.divides : Width → Bool
  | .long | .quad => true
  | .byte | .double => false

/-- What an instruction computes.  Instructions for control flow, calls and the stack compute
nothing, and neither does one whose operands make no sense. -/
def Instr.computation? (h : Hardware) (i : Instr) : Option Computation :=
  let w := i.width
  match i.op, i.operands with
  | .mov, [d, s] => some (.copy d w s)
  | .movsx v, [d, s] => some (.convert d w s v fun x => (v.ofWord x).signExtend 64)
  | .movzx v, [d, s] => some (.convert d w s v (low v.bits))
  | .cvttsd2si, [d, s] => some (.convert d w s .double (h.toInteger w))
  | .cvtsi2sd v, [d, s] => some (.convert d .double s v (h.ofInteger v))
  | .xor, [a, b] =>
    if a = b then some (.clear a w) else some (.combine a w b w (h.combine .xor w))
  | .add, [d, s] => some (.combine d w s w (h.combine .add w))
  | .sub, [d, s] => some (.combine d w s w (h.combine .sub w))
  | .imul, [d, s] => some (.combine d w s w (h.combine .imul w))
  | .and, [d, s] => some (.combine d w s w (h.combine .and w))
  | .or, [d, s] => some (.combine d w s w (h.combine .or w))
  | .sal, [d, s] => some (.combine d w s .byte (h.shift .sal w))
  | .sar, [d, s] => some (.combine d w s .byte (h.shift .sar w))
  | .shr, [d, s] => some (.combine d w s .byte (h.shift .shr w))
  | .neg, [d] =>
    some (.modify d w fun x _ => ((-w.ofWord x).setWidth 64, .ofSub 0#w.bits (w.ofWord x)))
  | .not, [d] => some (.modify d w fun x flags => ((~~~w.ofWord x).setWidth 64, flags))
  | .setcc c, [d] => some (.setByte d c)
  | .cmp, [a, b] => some (.compare a b w (h.comparison w))
  | .comisd, [a, b] => some (.compare a b .double h.compare)
  | .idiv, [s] => if w.divides then some (.divide h .idiv true w s) else none
  | .div, [s] => if w.divides then some (.divide h .div false w s) else none
  | .div, [d, s] => if w = .double then some (.combine d w s w (h.combine .div w)) else none
  | .cdq, [] => if w.divides then some (.convert (.reg .rdx) w (.reg .rax) w (signWord w)) else none
  | _, _ => none

/-! ### What the allocator sees -/

namespace Instr

variable {h : Hardware} {i : Instr} {arguments : List Register} {c : Computation}
  {f : Operand → Operand}

def isDoubleDivision (i : Instr) : Bool := i.op = .div ∧ i.width = .double

/-- How an instruction uses its operands, and the registers that it uses without naming them. -/
structure Uses (i : Instr) (directions : List Direction) (reads writes : List Register) : Prop where
  directions : i.directions = directions
  reads : ∀ arguments, i.implicitReads arguments = reads
  writes : i.implicitWrites = writes

/-- The forms of what instructions compute.  The allocator does not know that a division of doubles
writes to its first operand. -/
inductive ComputesAs (h : Hardware) (i : Instr) : Computation → Prop
  | copy {d s : Operand} {w : Width} (hi : i.operands = [d, s])
      (huses : i.Uses [.write, .read] [] []) :
    ComputesAs h i (.copy d w s)
  | convert {d s : Operand} {w v : Width} {f : Word → Word} (hi : i.operands = [d, s])
    (huses : i.Uses [.write, .read] [] []) : ComputesAs h i (.convert d w s v f)
  | clear {d : Operand} {w : Width} (hi : i.operands = [d, d])
    (huses : i.Uses [.write, .write] [] []) : ComputesAs h i (.clear d w)
  | combine {d s : Operand} {w v : Width} {f : Word → Word → Flags → Word × Flags}
    (hi : i.operands = [d, s]) (huses : i.Uses [.readWrite, .read] [] []) :
    ComputesAs h i (.combine d w s v f)
  | modify {d : Operand} {w : Width} {f : Word → Flags → Word × Flags} (hi : i.operands = [d])
    (huses : i.Uses [.readWrite] [] []) : ComputesAs h i (.modify d w f)
  | setByte {d : Operand} {c : Condition} (hi : i.operands = [d])
      (huses : i.Uses [.readWrite] [] []) :
    ComputesAs h i (.setByte d c)
  | compare {d s : Operand} {w : Width} {f : Word → Word → Flags} (hi : i.operands = [d, s])
    (huses : i.Uses [.read, .read] [] []) : ComputesAs h i (.compare d s w f)
  | divide {s : Operand} {op : Opcode} {signed : Bool} {w : Width} (hi : i.operands = [s])
    (huses : i.Uses [.read] [.rax, .rdx] [.rax, .rdx]) : ComputesAs h i (.divide h op signed w s)
  | divideDoubles {d s : Operand} {w : Width} {f : Word → Word → Flags → Word × Flags}
    (hi : i.operands = [d, s]) (hdouble : i.isDoubleDivision = true) :
    ComputesAs h i (.combine d w s w f)
  | extendSign {w : Width} (hi : i.operands = []) (huses : i.Uses [] [.rax] [.rdx]) :
    ComputesAs h i (.convert (.reg .rdx) w (.reg .rax) w (signWord w))

theorem computation?_computesAs (hc : i.computation? h = some c) : ComputesAs h i c := by
  obtain ⟨op, w, operands⟩ := i
  unfold computation? at hc
  simp only at hc
  split at hc
  case h_1 =>
    cases hc
    exact .copy rfl ⟨rfl, fun _ => rfl, rfl⟩
  case h_2 | h_3 | h_4 | h_5 =>
    cases hc
    exact .convert rfl ⟨rfl, fun _ => rfl, rfl⟩
  case h_6 a b =>
    split at hc
    · rename_i hab
      cases hc
      exact .clear (by rw [hab]) ⟨by simp [directions, positions, hab], fun _ => rfl, rfl⟩
    · rename_i hab
      cases hc
      exact .combine rfl ⟨by simp [directions, positions, hab], fun _ => rfl, rfl⟩
  case h_7 | h_8 | h_9 | h_10 | h_11 | h_12 | h_13 | h_14 =>
    cases hc
    exact .combine rfl ⟨rfl, fun _ => rfl, rfl⟩
  case h_15 | h_16 =>
    cases hc
    exact .modify rfl ⟨rfl, fun _ => rfl, rfl⟩
  case h_17 =>
    cases hc
    exact .setByte rfl ⟨rfl, fun _ => rfl, rfl⟩
  case h_18 | h_19 =>
    cases hc
    exact .compare rfl ⟨rfl, fun _ => rfl, rfl⟩
  case h_20 | h_21 =>
    split at hc <;> cases hc
    exact .divide rfl ⟨rfl, fun _ => rfl, rfl⟩
  case h_22 =>
    split at hc <;> cases hc
    rename_i hw
    exact .divideDoubles rfl (by simp [isDoubleDivision, hw])
  case h_23 =>
    split at hc <;> cases hc
    exact .extendSign rfl ⟨rfl, fun _ => rfl, rfl⟩
  case h_24 => cases hc

/-- The locations that a computation uses are those that the allocator sees. -/
structure Accesses (i : Instr) (arguments : List Register) (c : Computation) : Prop where
  reads : ∀ x ∈ c.reads, ∀ l, x.1.location? = some l → l ∈ i.reads arguments
  bases : ∀ x ∈ c.reads ++ c.writes, ∀ r, x.1.base? = some r → .reg r ∈ i.reads arguments
  writes : ∀ x ∈ c.writes, ∀ l, x.1.location? = some l → l ∈ i.writes
  written : ∀ l ∈ i.writes, ∃ x ∈ c.writes, x.1.location? = some l
  merged : c.extent = .merged → ∀ x ∈ c.writes, ∀ l, x.1.location? = some l → l ∈ i.reads arguments

/-- The allocator sees what a computation does, unless doubles are divided. -/
theorem computation?_accesses (hi : i.isDoubleDivision = false) (hc : i.computation? h = some c) :
    Accesses i arguments c := by
  cases computation?_computesAs hc with
  | divideDoubles _ hdouble => cases hi.symm.trans hdouble
  | copy hoperands huses | convert hoperands huses | clear hoperands huses
  | combine hoperands huses | modify hoperands huses | setByte hoperands huses
  | compare hoperands huses | divide hoperands huses | extendSign hoperands huses =>
    constructor <;>
      simp [Computation.copy, Computation.convert, Computation.clear, Computation.combine,
        Computation.modify, Computation.setByte, Computation.compare, Computation.divide,
        Instr.reads, Instr.writes, hoperands, huses.directions, huses.reads, huses.writes,
        Direction.reads, Direction.writes, Operand.location?, Operand.base?] <;> tauto

/-- What the computations of instructions have in common. -/
structure Shaped (i : Instr) (c : Computation) : Prop where
  operands : ∀ x ∈ c.reads ++ c.writes, x.1 ∈ i.operands ∨ ∃ r, x.1 = .reg r
  /-- There is a result for everything that is written. -/
  results : ∀ {values flags results flags'}, c.compute values flags = some (results, flags') →
    results.length = c.writes.length
  distinct : c.writes.Pairwise fun x y => ∃ r s, x.1 = .reg r ∧ y.1 = .reg s ∧ r ≠ s
  merged : c.extent = .merged → ∀ x ∈ c.writes, x.2 = .byte

theorem computation?_shaped (hc : i.computation? h = some c) : Shaped i c := by
  cases computation?_computesAs hc with
  | divide hoperands =>
    refine ⟨by simp [Computation.divide, hoperands], fun hresults => ?_,
      by simp [Computation.divide], fun hx => nomatch hx⟩
    simp only [Computation.divide] at hresults
    split at hresults
    · obtain ⟨q, -, hq⟩ := Option.map_eq_some_iff.mp hresults
      cases hq
      rfl
    · cases hresults
  | copy hoperands | convert hoperands | clear hoperands | combine hoperands | modify hoperands
  | setByte hoperands | compare hoperands | divideDoubles hoperands | extendSign hoperands =>
    simp only [Computation.copy, Computation.convert, Computation.clear, Computation.combine,
      Computation.modify, Computation.setByte, Computation.compare]
    refine ⟨by simp [hoperands], fun hresults => ?_, by simp, by simp⟩
    dsimp only at hresults
    split at hresults <;> cases hresults
    rfl

/-- If operands are replaced, the same is computed with the new ones.  The exception is that two
operands of an exclusive or may become the same. -/
theorem computation?_mapOperands (hreg : ∀ r, f (.reg r) = .reg r)
    (hc : i.computation? h = some c) :
    (i.mapOperands f).computation? h = some (c.mapOperands f) ∨
      ∃ a b, f a = f b ∧ c = .combine a i.width b i.width (h.combine .xor i.width) ∧
        (i.mapOperands f).computation? h = some (.clear (f a) i.width) := by
  obtain ⟨op, w, operands⟩ := i
  unfold computation? at hc
  simp only at hc
  split at hc
  case h_6 a b =>
    by_cases hab : a = b
    · subst hab
      rw [if_pos rfl] at hc
      cases hc
      exact .inl (by simp [mapOperands, computation?, Computation.mapOperands, Computation.clear])
    · rw [if_neg hab] at hc
      cases hc
      by_cases hf : f a = f b
      · exact .inr ⟨a, b, hf, rfl, by simp [mapOperands, computation?, hf]⟩
      · simp [mapOperands, computation?, hf, Computation.mapOperands, Computation.combine]
  case h_20 | h_21 | h_22 | h_23 =>
    split at hc
    · rename_i hw
      cases hc
      simp [mapOperands, computation?, hw, hreg, Computation.mapOperands, Computation.divide,
        Computation.combine, Computation.convert]
    · cases hc
  case h_24 => cases hc
  all_goals
    cases hc
    exact .inl rfl

end Instr

end ThreeAddress.Amd64
