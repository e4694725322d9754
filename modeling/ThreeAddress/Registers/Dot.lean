import ThreeAddress.Registers.Interference

/-!
# Drawings of interference graphs

An interference graph as an undirected graph in the DOT language.
-/

namespace ThreeAddress

namespace Dot

/-- A name made into an identifier: other characters than letters and digits become underscores,
and a letter comes first. -/
def identifier (name : String) : String :=
  let chars := name.toList.map fun c => if c.isAlphanum then c else '_'
  match chars with
  | c :: _ => String.ofList (if c.isAlpha then chars else 'g' :: chars)
  | [] => "g"

/-- A character inside a quoted label. -/
def escapeChar (c : Char) : List Char :=
  match c with
  | '\t' => ['\\', 't']
  | '\r' => ['\\', 'r']
  | '\n' => ['\\', 'n']
  | '\'' => ['\\', '\'']
  | '"' => ['\\', '"']
  | '\\' => ['\\', '\\']
  | c =>
    if 0x20 ≤ c.toNat ∧ c.toNat ≤ 0x7e then [c]
    else ['\\', 'u', '\x7b'] ++ Nat.toDigits 16 c.toNat ++ ['\x7d']

def quote (s : String) : String := "\"" ++ String.ofList (s.toList.flatMap escapeChar) ++ "\""

def node (n : Nat) : String := "n" ++ toString n

end Dot

/-- The drawing of a graph: its nodes with their locations, then its edges. -/
def InterferenceGraph.dot {R : Type} [DecidableEq R] (registerText : R → String)
    (g : InterferenceGraph R) : String :=
  let nodes := g.liveNodes.map fun n =>
    let label := ((g.location? n).map (Location.text registerText)).getD ""
    "    " ++ Dot.node n ++ "[label=" ++ Dot.quote label ++ "];\n"
  let edges := g.edges.map fun (a, b) =>
    "    " ++ Dot.node a ++ " -- " ++ Dot.node b ++ "[label=\"\"];\n"
  "graph " ++ Dot.identifier g.name ++ " \x7b\n" ++ String.join nodes ++ String.join edges ++
    "\x7d\n"

end ThreeAddress
