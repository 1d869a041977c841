import Relock.Grouping
import Relock.Program.Lookup

/-!
# Call graphs

The direct calls of a program, as a graph whose nodes are functions and whose edges carry the calls, and
as an index from each caller to its calls in the order of instructions. Calls through values are left
out.

* `Tables.callSites`: all direct calls, in layout order;
* `CallGraph.collectNodes`, `CallGraph.collectEdges`: the two passes that find or insert nodes and edges;
* `CallGraph.ofTables`: the graph and the index;
* `CallGraph.callsitesOf`, `CallGraph.calleeAt`: questions to the index.
-/

namespace Relock

/-- A direct call. -/
structure CallSite where
  caller : FunctionId
  inst : InstId
  callee : FunctionId
deriving DecidableEq, Repr

/-- A function of a call graph. -/
structure CallNode where
  function : FunctionId
  hasBody : Bool
deriving DecidableEq, Repr

/-- All calls from one function to another one. -/
structure CallEdge where
  caller : FunctionId
  callee : FunctionId
  calls : List InstId
deriving DecidableEq, Repr

/-- A call graph. -/
structure CallGraph where
  nodes : List CallNode
  edges : List CallEdge
  /-- The calls of each function that has one, by instruction. -/
  index : List (FunctionId × List (InstId × FunctionId))
deriving DecidableEq, Repr

/-- The direct calls among the instructions of a function. -/
def Tables.callSitesAmong (t : Tables) (caller : FunctionId) :
    List InstId → Except Fault (List CallSite)
  | [] => .ok []
  | i :: is => do
    match ← t.calledFunction i with
    | none => t.callSitesAmong caller is
    | some callee => return ⟨caller, i, callee⟩ :: (← t.callSitesAmong caller is)

/-- The direct calls of a function in layout order. -/
def Tables.callSitesOf (t : Tables) (caller : FunctionId) : Except Fault (List CallSite) := do
  t.callSitesAmong caller (← t.instsOf caller)

/-- All direct calls of a program, function by function, in layout order. -/
def Tables.callSites (t : Tables) : Except Fault (List CallSite) := do
  return (← t.bodies.mapM t.callSitesOf).flatten

namespace CallGraph

/-- Find or insert a node: if its function has none yet, it becomes the last one. -/
def nodeFor (n : CallNode) : List CallNode → List CallNode
  | [] => [n]
  | m :: nodes => if m.function == n.function then m :: nodes else m :: nodeFor n nodes

/-- Find or insert an edge: if there is one from the caller to the callee, the call becomes its last one,
and otherwise an edge with this call becomes the last edge. -/
def addCall (s : CallSite) : List CallEdge → List CallEdge
  | [] => [⟨s.caller, s.callee, [s.inst]⟩]
  | e :: edges =>
    if s.caller == e.caller && s.callee == e.callee then ⟨e.caller, e.callee, e.calls ++ [s.inst]⟩ :: edges
    else e :: addCall s edges

/-- The nodes after both passes. The first one goes through the functions with a body, the second one
through their calls, and a callee that it finds no node for has no body. -/
def collectNodes (bodies : List FunctionId) (sites : List CallSite) : List CallNode :=
  -- bodies come first, so a callee with a body is never taken for an external one
  let defined := bodies.foldl (fun nodes f => nodeFor ⟨f, true⟩ nodes) []
  sites.foldl (fun nodes s => nodeFor ⟨s.callee, false⟩ nodes) defined

/-- The edges after the second pass, which goes through the calls in layout order. -/
def collectEdges (sites : List CallSite) : List CallEdge :=
  sites.foldl (fun edges s => addCall s edges) []

/-- The calls of each caller, callers and calls in order of their indices. -/
def indexOf (sites : List CallSite) : List (FunctionId × List (InstId × FunctionId)) :=
  let calls := sites.map fun s => (s.caller, (s.inst, s.callee))
  (groupBy (fun f g => decide (f.index < g.index)) calls).map fun (f, calls) =>
    (f, sortBy (fun a b => decide (a.1.index < b.1.index)) calls)

/-- The call graph of a program. -/
def ofTables (t : Tables) : Except Fault CallGraph := do
  let sites ← t.callSites
  return ⟨collectNodes t.bodies sites, collectEdges sites, indexOf sites⟩

/-- The calls of a function with their callees, if it has any. -/
def callsitesOf (g : CallGraph) (f : FunctionId) : Option (List (InstId × FunctionId)) :=
  g.index.lookup f

/-- The callee of a call of a function. -/
def calleeAt (g : CallGraph) (f : FunctionId) (i : InstId) : Option FunctionId := do
  (← g.callsitesOf f).lookup i

/-- The place of a function among the nodes. -/
def nodeIndex (g : CallGraph) (f : FunctionId) : Option Nat :=
  g.nodes.findIdx? fun n => n.function == f

end CallGraph

end Relock
