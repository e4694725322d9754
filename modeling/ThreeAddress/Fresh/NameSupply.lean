import Std.Data.ExtTreeSet

/-!
# Fresh names

A supply of names for temporaries.  They are numbered from one and start with a character that no
name in a source program has.
-/

namespace ThreeAddress

abbrev NameSet := Std.ExtTreeSet String

/-- The number of the last name handed out, and the names to avoid. -/
structure NameSupply where
  last : Nat
  avoided : NameSet

namespace NameSupply

def temporary (n : Nat) : String := "%t" ++ toString n

def avoiding (names : NameSet) : NameSupply := ⟨0, names⟩

/-- A supply that avoids nothing. -/
def fresh : NameSupply := avoiding ∅

/-- The first number from `n` on whose name is not avoided, if it is among the next few. -/
def firstFree (avoided : NameSet) : Nat → Nat → Nat
  | 0, n => n
  | fuel + 1, n => if temporary n ∈ avoided then firstFree avoided fuel (n + 1) else n

/-- The next name.  As many candidates as there are names to avoid need to be tried at most,
since the one after them is not avoided any more. -/
def next (s : NameSupply) : String × NameSupply :=
  let n := firstFree s.avoided s.avoided.size (s.last + 1)
  (temporary n, { s with last := n })

def take : Nat → NameSupply → List String
  | 0, _ => []
  | count + 1, s =>
    let (name, s) := s.next
    name :: take count s

end NameSupply

end ThreeAddress
