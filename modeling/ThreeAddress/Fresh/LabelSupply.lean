import Std.Data.ExtTreeMap
import ThreeAddress.Instr.Basic
import ThreeAddress.Listing

/-!
# Fresh labels

A supply of labels that remembers the greatest subscript seen with every name, and hands out the
next one.  A name whose subscripts are used up yields no more labels.
-/

namespace ThreeAddress

/-- The greatest subscript seen with every name. -/
structure LabelSupply where
  highest : Std.ExtTreeMap String Nat

namespace LabelSupply

def empty : LabelSupply := ⟨∅⟩

/-- The greatest subscript seen with a name; names not seen count from zero. -/
def highestOf (s : LabelSupply) (name : String) : Nat := s.highest.getD name 0

/-- Marks a label as taken. -/
def reserve (s : LabelSupply) (l : Label) : LabelSupply :=
  ⟨s.highest.insert l.name (max (s.highestOf l.name) l.subscript)⟩

/-- A supply that never yields a label defined in the listing. -/
def ofListing (body : Listing Instr) : LabelSupply :=
  (body.filterMap Instr.label?).foldl reserve empty

/-- A label with the given name that was neither reserved nor handed out before, unless the
greatest possible subscript is already taken. -/
def next? (s : LabelSupply) (name : String) : Option (Label × LabelSupply) :=
  if s.highestOf name < Label.maxSubscript then
    let subscript := s.highestOf name + 1
    some (⟨name, subscript⟩, ⟨s.highest.insert name subscript⟩)
  else none

end LabelSupply

end ThreeAddress
