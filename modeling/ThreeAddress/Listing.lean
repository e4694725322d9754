/-!
# Listings

A listing is a sequence of lines, numbered from zero.  Instructions, assembly and plain text are
all kept in listings; these are the operations that need the position of a line.
-/

namespace ThreeAddress

/-- A sequence of lines. -/
abbrev Listing (α : Type) := List α

namespace Listing

variable {α : Type}

def numbered (l : Listing α) : List (Nat × α) := l.zipIdx.map fun (line, n) => (n, line)

/-- Keeps the lines that satisfy a predicate on their position and content. -/
def keep (l : Listing α) (p : Nat → α → Bool) : Listing α :=
  (l.numbered.filter fun (n, line) => p n line).map Prod.snd

/-- The lines one below the other, each ended by a line feed. -/
def render (text : α → String) (l : Listing α) : String :=
  String.join (l.map fun line => text line ++ "\n")

@[simp] theorem length_numbered (l : Listing α) : l.numbered.length = l.length := by
  simp [numbered]

end Listing

end ThreeAddress
