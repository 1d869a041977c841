import Relock.CallGraph.Basic
import Relock.Proofs.Grouping
import Relock.Proofs.Program.Arrangement

/-!
# The two passes that make a call graph

A call graph is made in two passes. The first one makes a node for every function with a body. The second one
goes through the calls in layout order: it finds or inserts the node of the callee, then it finds or inserts the
edge from the caller, and puts the call on it. Both passes only ever add at the end, so what they leave can be
said without them: the nodes and the edges in order of first occurrence, and on each edge all calls of its pair.

* `CallGraph.nodesOf`, `CallGraph.edgesOf`: what the passes leave;
* `CallGraph.foldl_nodeFor`, `CallGraph.collectNodes_eq`: the nodes;
* `CallGraph.edgesOf_concat`, `CallGraph.collectEdges_eq`: the edges;
* `CallGraph.ofTables_eq_ok`: the graph of a program.
-/

namespace Relock.CallGraph

/-! ## What the passes leave -/

/-- The functions with a body, then the other functions that are called, in order of their first call. -/
def nodesOf (bodies : List FunctionId) (sites : List CallSite) : List CallNode :=
  bodies.map (⟨·, true⟩) ++
    (((sites.map CallSite.callee).eraseDups.filter fun f => !bodies.contains f).map (⟨·, false⟩))

/-- The edge of a pair of functions, with all calls from one to the other. -/
def edgeOf (sites : List CallSite) (ends : FunctionId × FunctionId) : CallEdge :=
  ⟨ends.1, ends.2, (sites.filter fun s => s.caller == ends.1 && s.callee == ends.2).map CallSite.inst⟩

/-- One edge for each pair of functions with a call, in order of the first one. -/
def edgesOf (sites : List CallSite) : List CallEdge :=
  (sites.map fun s => (s.caller, s.callee)).eraseDups.map (edgeOf sites)

/-! ## The nodes -/

/-- What finding or inserting a node comes to: only a function without a node gets one. -/
theorem nodeFor_eq (n : CallNode) (nodes : List CallNode) :
    nodeFor n nodes = if n.function ∈ nodes.map CallNode.function then nodes else nodes ++ [n] := by
  induction nodes with
  | nil => rfl
  | cons m nodes ih =>
    rw [nodeFor, ih]
    by_cases hm : m.function = n.function
    · simp [hm]
    · simp only [beq_iff_eq, hm, if_false, List.map_cons, List.mem_cons, Ne.symm hm, false_or]
      split <;> rfl

/-- A pass adds a node for the first occurrence of each function that had none before. -/
theorem foldl_nodeFor (mark : Bool) (nodes : List CallNode) (fs : List FunctionId) :
    fs.foldl (fun nodes f => nodeFor ⟨f, mark⟩ nodes) nodes =
      nodes ++ (fs.eraseDups.filter fun f => f ∉ nodes.map CallNode.function).map (⟨·, mark⟩) := by
  induction fs using List.reverseRecOn with
  | nil => simp
  | append_singleton fs f ih =>
    -- after the others, a function has a node if it had one before or was one of them
    have hfound : f ∈ (nodes ++ (fs.eraseDups.filter fun f => f ∉ nodes.map CallNode.function).map
        (CallNode.mk · mark)).map CallNode.function ↔ f ∈ nodes.map CallNode.function ∨ f ∈ fs := by
      rw [List.map_append, List.map_map, Function.comp_def, List.map_id', List.mem_append, List.mem_filter,
        List.mem_eraseDups, decide_eq_true_eq]
      exact ⟨fun h => h.imp_right And.left, fun h => (Classical.em _).imp_right fun hold => ⟨h.resolve_left hold, hold⟩⟩
    rw [List.foldl_append, List.foldl_cons, List.foldl_nil, ih, nodeFor_eq, eraseDups_concat]
    by_cases hmem : f ∈ fs
    · rw [if_pos (hfound.mpr (.inr hmem)), if_pos hmem]
    · rw [if_neg hmem, List.filter_append]
      by_cases hold : f ∈ nodes.map CallNode.function
      · rw [if_pos (hfound.mpr (.inl hold)), List.filter_cons_of_neg (by simpa using hold), List.filter_nil,
          List.append_nil]
      · rw [if_neg fun h => (hfound.mp h).elim hold hmem, List.filter_cons_of_pos (by simpa using hold),
          List.filter_nil, List.map_append, List.append_assoc]
        rfl

/-- The two passes leave a node for each function that has a body or is called. -/
theorem collectNodes_eq {bodies : List FunctionId} (hbodies : bodies.Nodup) (sites : List CallSite) :
    collectNodes bodies sites = nodesOf bodies sites := by
  have hdefined : bodies.foldl (fun nodes f => nodeFor ⟨f, true⟩ nodes) [] = bodies.map (⟨·, true⟩) := by
    rw [foldl_nodeFor, eraseDups_of_nodup hbodies]
    simp
  unfold collectNodes
  rw [hdefined, ← List.foldl_map (g := fun nodes f => nodeFor ⟨f, false⟩ nodes), foldl_nodeFor]
  simp [nodesOf, Function.comp_def]

/-! ## The edges -/

/-- The pairs that have an edge are those of the calls, each at its first call. -/
theorem map_ends_edgesOf (sites : List CallSite) : (edgesOf sites).map (fun e => (e.caller, e.callee)) =
    (sites.map fun s => (s.caller, s.callee)).eraseDups := by
  simp [edgesOf, edgeOf, Function.comp_def]

/-- Both functions are compared, so the pairs are. -/
theorem beq_ends {f g f' g' : FunctionId} : (f == f' && g == g') = true ↔ (f, g) = (f', g') := by
  rw [Bool.and_eq_true, beq_iff_eq, beq_iff_eq, Prod.mk.injEq]

/-- A call from or to another function gets an edge of its own, behind all others. -/
theorem addCall_of_not_mem {s : CallSite} {edges : List CallEdge}
    (h : (s.caller, s.callee) ∉ edges.map fun e => (e.caller, e.callee)) :
    addCall s edges = edges ++ [⟨s.caller, s.callee, [s.inst]⟩] := by
  induction edges with
  | nil => rfl
  | cons e edges ih =>
    obtain ⟨hne, h⟩ := not_or.mp (List.mem_cons.not.mp h)
    rw [addCall, if_neg (beq_ends.not.mpr hne), ih h, List.cons_append]

/-- With one edge for each pair, the edge that is found is the only one of the pair. -/
theorem addCall_of_mem {s : CallSite} {edges : List CallEdge}
    (hnodup : (edges.map fun e => (e.caller, e.callee)).Nodup)
    (h : (s.caller, s.callee) ∈ edges.map fun e => (e.caller, e.callee)) :
    addCall s edges = edges.map fun e =>
      if s.caller == e.caller && s.callee == e.callee then ⟨e.caller, e.callee, e.calls ++ [s.inst]⟩ else e := by
  induction edges with
  | nil => cases h
  | cons e edges ih =>
    obtain ⟨hfirst, hnodup⟩ := List.nodup_cons.mp hnodup
    rw [addCall, List.map_cons]
    split
    · next heq =>
      -- no later edge has this pair, so the others stay as they are
      have hrest : edges.map (fun e => if s.caller == e.caller && s.callee == e.callee then
          ⟨e.caller, e.callee, e.calls ++ [s.inst]⟩ else e) = edges := by
        refine (List.map_congr_left fun l hl => ?_).trans (List.map_id edges)
        refine if_neg fun heq' => hfirst (List.mem_map.mpr ⟨l, hl, ?_⟩)
        exact (beq_ends.mp heq').symm.trans (beq_ends.mp heq)
      rw [hrest]
    · next hne =>
      rw [ih hnodup ((List.mem_cons.mp h).resolve_left (beq_ends.not.mp hne))]

/-- A call is put on the edge of its pair, and on no other one. -/
theorem edgeOf_concat (sites : List CallSite) (s : CallSite) (ends : FunctionId × FunctionId) :
    edgeOf (sites ++ [s]) ends = if s.caller == ends.1 && s.callee == ends.2 then
      ⟨ends.1, ends.2, (edgeOf sites ends).calls ++ [s.inst]⟩ else edgeOf sites ends := by
  cases htest : s.caller == ends.1 && s.callee == ends.2 with
  | true => simp [edgeOf, htest]
  | false => simp [edgeOf, htest]

/-- **Step lemma**: one more call is found or inserted in the edges so far. -/
theorem edgesOf_concat (sites : List CallSite) (s : CallSite) :
    edgesOf (sites ++ [s]) = addCall s (edgesOf sites) := by
  have hends := map_ends_edgesOf sites
  have hfound : (s.caller, s.callee) ∈ (edgesOf sites).map (fun e => (e.caller, e.callee)) ↔
      (s.caller, s.callee) ∈ sites.map fun s => (s.caller, s.callee) := by
    rw [hends, List.mem_eraseDups]
  rw [edgesOf, List.map_append, List.map_cons, List.map_nil, eraseDups_concat]
  by_cases hmem : (s.caller, s.callee) ∈ sites.map fun s => (s.caller, s.callee)
  · have hnodup : ((edgesOf sites).map fun e => (e.caller, e.callee)).Nodup := by
      rw [hends]
      exact nodup_eraseDups _
    rw [if_pos hmem, addCall_of_mem hnodup (hfound.mpr hmem), edgesOf, List.map_map]
    exact List.map_congr_left fun ends _ => edgeOf_concat sites s ends
  · rw [if_neg hmem, addCall_of_not_mem (hfound.not.mpr hmem), edgesOf, List.map_append]
    congr 1
    · -- the edges before are of other pairs
      refine List.map_congr_left fun ends hin => ?_
      rw [edgeOf_concat, if_neg]
      exact beq_ends.not.mpr fun heq => hmem (List.mem_eraseDups.mp (heq ▸ hin))
    · -- the pair of the new edge has no earlier call
      have hnone : sites.filter (fun c => c.caller == s.caller && c.callee == s.callee) = [] := by
        rw [List.filter_eq_nil_iff]
        exact fun c hc heq => hmem (List.mem_map.mpr ⟨c, hc, beq_ends.mp heq⟩)
      simp [edgeOf, hnone]

/-- **Run lemma**: the second pass leaves an edge for each pair with a call, which carries the calls of the
pair. -/
theorem collectEdges_eq (sites : List CallSite) : collectEdges sites = edgesOf sites := by
  unfold collectEdges
  induction sites using List.reverseRecOn with
  | nil => rfl
  | append_singleton sites s ih =>
    rw [List.foldl_append, List.foldl_cons, List.foldl_nil, ih, edgesOf_concat]

/-! ## The graph -/

/-- The graph of a program has the nodes, the edges and the index of its direct calls. -/
theorem ofTables_eq_ok {t : Tables} {g : CallGraph} : ofTables t = .ok g ↔
    ∃ sites, t.callSites = .ok sites ∧ g = ⟨nodesOf t.bodies sites, edgesOf sites, indexOf sites⟩ := by
  unfold ofTables
  rw [bind_eq_ok]
  refine exists_congr fun sites => and_congr_right fun _ => ?_
  rw [pure_eq_ok, collectNodes_eq t.bodies_nodup, collectEdges_eq, eq_comm]

end Relock.CallGraph
