import Relock.CallGraph.Basic
import Relock.Text.Visible

/-!
# A call graph as DOT text

Each node is labelled with the quoted name of its function, and that text is quoted once more for the
label.

* `CallGraph.quoteName`: a name in quotes;
* `CallGraph.dot`: the text of a graph.
-/

namespace Relock.CallGraph

/-- A character as it stands in a quoted name. -/
def escapeChar (c : Char) : List Char :=
  match c with
  | '"' => ['\\', '"']
  | '\\' => ['\\', '\\']
  | '\n' => ['\\', 'n']
  | '\r' => ['\\', 'r']
  | '\t' => ['\\', 't']
  | '\x00' => ['\\', '0']
  | c => if Text.isVisible c then [c] else
    ['\\', 'u', '\x7b'] ++ Nat.toDigits 16 c.toNat ++ ['\x7d']

/-- A name in quotes, with escapes for what is not visible. -/
def quoteName (name : String) : List Char :=
  ['"'] ++ name.toList.flatMap escapeChar ++ ['"']

/-- A text inside a label: a backslash goes before each quote and each backslash. -/
def escapeLabel (text : List Char) : List Char :=
  text.flatMap fun c => if c = '"' ∨ c = '\\' then ['\\', c] else [c]

/-- The line of a node. -/
def nodeLine (index : Nat) (name : String) : String :=
  let label := String.ofList (escapeLabel (quoteName name))
  "    " ++ toString index ++ " [ label = \"" ++ label ++ "\" ]\n"

/-- The line of an edge, between the places of its functions among the nodes. -/
def edgeLine (g : CallGraph) (e : CallEdge) : Option String := do
  return "    " ++ toString (← g.nodeIndex e.caller) ++ " -> " ++ toString (← g.nodeIndex e.callee) ++
    " [ ]\n"

/-- The text of a call graph: all nodes, then all edges. -/
def dot (g : CallGraph) (t : Tables) : Except Fault String := do
  let names ← g.nodes.mapM fun n => do return (← t.function n.function).name
  let nodes := names.zipIdx.map fun (name, index) => nodeLine index name
  return "digraph \x7b\n" ++ String.join nodes ++ String.join (g.edges.filterMap g.edgeLine) ++ "\x7d\n"

end Relock.CallGraph
