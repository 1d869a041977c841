import Relock.Proofs.Builder.Arrangement
import Relock.Proofs.CallGraph.Search

/-!
# Exact call graphs

The nodes, the edges and the index of a call graph are three views of the same calls. Each of them can be
read off the program alone: who has a body, what its instructions are, and which of them call a function
by name.

* `Tables.HasBody`, `Tables.CallsAt`: what the program says;
* `CallGraph.Exact`: what the graph says then;
* `Tables.callSitesAmong_eq_filter`, `Tables.filter_callSitesAmong`: the calls of a function among all calls,
  and those of one callee among them, in layout order;
* `CallGraph.exact_of_runAll`: the graph of every program that was built is exact.
-/

namespace Relock

namespace Tables

/-- A function that has a body. -/
def HasBody (t : Tables) (f : FunctionId) : Prop :=
  ∃ x, t.function f = .ok x ∧ x.isDeclaration = false

/-- An instruction of the body of `f` calls `h` by name. -/
structure CallsAt (t : Tables) (f : FunctionId) (i : InstId) (h : FunctionId) : Prop where
  body : t.HasBody f
  listed : ∃ is, t.instsOf f = .ok is ∧ i ∈ is
  callee : t.calledFunction i = .ok (some h)

end Tables

/-- What the call graph of a program has to say. -/
structure CallGraph.Exact (g : CallGraph) (t : Tables) : Prop where
  calleeAt : ∀ f i h, g.calleeAt f i = some h ↔ t.CallsAt f i h
  callsitesOf_eq_none : ∀ f, g.callsitesOf f = none ↔ ∀ i h, ¬ t.CallsAt f i h
  callsitesOf : ∀ f calls, g.callsitesOf f = some calls →
    (calls.Pairwise fun c c' => c.1.index < c'.1.index) ∧ ∀ i h, (i, h) ∈ calls ↔ t.CallsAt f i h
  nodes_nodup : (g.nodes.map CallNode.function).Nodup
  nodes : ∀ f, f ∈ g.nodes.map CallNode.function ↔ t.HasBody f ∨ ∃ caller i, t.CallsAt caller i f
  marks : ∀ n ∈ g.nodes, n.hasBody = true ↔ t.HasBody n.function
  edges_nodup : (g.edges.map fun e => (e.caller, e.callee)).Nodup
  edges : ∀ f h, (∃ e ∈ g.edges, e.caller = f ∧ e.callee = h) ↔ ∃ i, t.CallsAt f i h
  calls : ∀ e ∈ g.edges, e.calls.Nodup ∧ ∃ is, t.instsOf e.caller = .ok is ∧
    e.calls = is.filter fun i => g.calleeAt e.caller i == some e.callee

/-! ## The calls of one function -/

namespace Tables

variable {t : Tables} {f h : FunctionId}

/-- The functions with a body are those that are no declarations. -/
theorem mem_bodies_iff : f ∈ t.bodies ↔ t.HasBody f := by
  unfold bodies HasBody
  rw [List.mem_filter, Option.any_eq_true]
  constructor
  · rintro ⟨-, x, hx, hbody⟩
    exact ⟨x, function_eq_ok.mpr hx, by simpa using hbody⟩
  · rintro ⟨x, hx, hbody⟩
    have hx' := function_eq_ok.mp hx
    refine ⟨List.mem_map.mpr ⟨f.index, List.mem_range.mpr (Array.getElem?_eq_some_iff.mp hx').1, rfl⟩, x, hx', ?_⟩
    simpa using hbody

/-- Calls come in the order of the instructions. -/
theorem sublist_callSitesAmong {is : List InstId} {sites : List CallSite}
    (hsites : t.callSitesAmong f is = .ok sites) : (sites.map CallSite.inst).Sublist is := by
  induction is generalizing sites with
  | nil =>
    cases hsites
    exact .slnil
  | cons i is ih =>
    obtain ⟨callee, -, hsites⟩ := bind_eq_ok.mp hsites
    cases callee with
    | none => exact (ih hsites).cons i
    | some callee =>
      obtain ⟨rest, hrest, hsites⟩ := bind_eq_ok.mp hsites
      cases hsites
      exact (ih hrest).cons_cons i

/-- The calls of one callee are the instructions that call it, in their order. -/
theorem filter_callSitesAmong {is : List InstId} {sites : List CallSite} {test : InstId → Bool}
    (hsites : t.callSitesAmong f is = .ok sites)
    (htest : ∀ i ∈ is, test i = true ↔ t.calledFunction i = .ok (some h)) :
    (sites.filter fun c => c.callee == h).map CallSite.inst = is.filter test := by
  induction is generalizing sites with
  | nil =>
    cases hsites
    rfl
  | cons i is ih =>
    obtain ⟨hi, his⟩ := List.forall_mem_cons.mp htest
    obtain ⟨callee, hcallee, hsites⟩ := bind_eq_ok.mp hsites
    rw [hcallee] at hi
    cases callee with
    | none =>
      rw [List.filter_cons_of_neg (by simp [hi])]
      exact ih hsites his
    | some callee =>
      obtain ⟨rest, hrest, hsites⟩ := bind_eq_ok.mp hsites
      cases hsites
      -- the call is one of this callee, and stays on both sides, or goes on both
      by_cases heq : callee = h
      · rw [List.filter_cons_of_pos (by simpa using heq), List.filter_cons_of_pos (by simp [hi, heq]),
          List.map_cons, ih hrest his]
      · rw [List.filter_cons_of_neg (by simpa using heq), List.filter_cons_of_neg (by simp [hi, heq]),
          ih hrest his]

/-- Among the calls of several functions, those of one function are its own. -/
theorem filter_caller_flatten {fs : List FunctionId} {parts : List (List CallSite)} (hfs : fs.Nodup)
    (hparts : fs.mapM t.callSitesOf = .ok parts) (hf : f ∈ fs) :
    t.callSitesOf f = .ok (parts.flatten.filter fun c => c.caller == f) := by
  -- the calls that a function makes lie in it
  have hcaller (f : FunctionId) (part : List CallSite) (hpart : t.callSitesOf f = .ok part) :
      ∀ c ∈ part, c.caller = f := by
    obtain ⟨is, -, hpart⟩ := bind_eq_ok.mp hpart
    exact caller_of_callSitesAmong hpart
  induction fs generalizing parts with
  | nil => cases hf
  | cons f' fs ih =>
    obtain ⟨hf', hfs⟩ := List.nodup_cons.mp hfs
    rw [List.mapM_cons] at hparts
    obtain ⟨part, hpart, hparts⟩ := bind_eq_ok.mp hparts
    obtain ⟨rest, hrest, heq⟩ := bind_eq_ok.mp hparts
    cases heq
    rw [List.flatten_cons, List.filter_append]
    by_cases heq : f = f'
    · subst heq
      -- all calls of the first body are its own, and none of the others is
      have hself : part.filter (fun c => c.caller == f) = part :=
        List.filter_eq_self.mpr fun c hc => beq_iff_eq.mpr (hcaller f part hpart c hc)
      have hnone : rest.flatten.filter (fun c => c.caller == f) = [] := by
        rw [List.filter_eq_nil_iff]
        refine forall_mem_flatten_of_mapM hrest fun f' hmem part hpart c hc hcf => hf' ?_
        rw [← beq_iff_eq.mp hcf, hcaller f' part hpart c hc]
        exact hmem
      rw [hself, hnone, List.append_nil, hpart]
    · have hnone : part.filter (fun c => c.caller == f) = [] := by
        rw [List.filter_eq_nil_iff]
        intro c hc hcf
        exact heq ((beq_iff_eq.mp hcf).symm.trans (hcaller f' part hpart c hc))
      rw [hnone, List.nil_append]
      exact ih hfs hrest ((List.mem_cons.mp hf).resolve_left heq)

/-- Among all calls of a program, those of one function are the calls among its instructions. -/
theorem callSitesAmong_eq_filter {sites : List CallSite} (hsites : t.callSites = .ok sites) (hf : t.HasBody f) :
    ∃ is, t.instsOf f = .ok is ∧ t.callSitesAmong f is = .ok (sites.filter fun c => c.caller == f) := by
  obtain ⟨parts, hparts, heq⟩ := bind_eq_ok.mp hsites
  cases heq
  exact bind_eq_ok.mp (filter_caller_flatten t.bodies_nodup hparts (mem_bodies_iff.mpr hf))

/-- In an arranged program an instruction is in one function only. -/
theorem Arranged.callsAt_iff (ht : t.Arranged) {i : InstId} :
    t.CallsAt f i h ↔ t.functionOf i = .ok f ∧ t.calledFunction i = .ok (some h) := by
  constructor
  · rintro ⟨-, ⟨is, his, hi⟩, hcallee⟩
    exact ⟨((ht.of_instsOf his).2 i).mp hi, hcallee⟩
  · rintro ⟨hfunction, hcallee⟩
    obtain ⟨x, hx, hbody⟩ := mem_bodies_iff.mp (ht.mem_bodies hfunction)
    obtain ⟨is, his, -, hmem⟩ := ht.exists_instsOf hx
    exact ⟨⟨x, hx, hbody⟩, ⟨is, his, (hmem i).mpr hfunction⟩, hcallee⟩

/-- The calls that are collected are the calls of the program. -/
theorem Arranged.mem_callSites (ht : t.Arranged) {sites : List CallSite} (hsites : t.callSites = .ok sites)
    {i : InstId} : ⟨f, i, h⟩ ∈ sites ↔ t.CallsAt f i h := by
  rw [ht.callsAt_iff]
  exact (lists_callSites ht).mem_iff hsites

end Tables

/-! ## The three views -/

namespace CallGraph

variable {sites : List CallSite} {f : FunctionId}

/-- The entry of a caller is the list of its calls, sorted by instruction. -/
theorem eq_sortBy_of_mem_indexOf {calls : List (InstId × FunctionId)} (h : (f, calls) ∈ indexOf sites) :
    f ∈ sites.map CallSite.caller ∧ calls = sortBy (fun a b => decide (a.1.index < b.1.index))
      ((sites.filter fun c => c.caller == f).map fun c => (c.inst, c.callee)) := by
  obtain ⟨⟨f', unsorted⟩, hgroup, heq⟩ := List.mem_map.mp h
  cases heq
  obtain ⟨hkey, rfl⟩ := (mem_groupBy strictTotal_functionId).mp hgroup
  rw [List.map_map] at hkey
  refine ⟨hkey, ?_⟩
  rw [List.filter_map, List.map_map]
  rfl

/-- The nodes: all bodies, and then the functions that are called and have none. -/
theorem map_function_nodesOf (bodies : List FunctionId) : (nodesOf bodies sites).map CallNode.function =
    bodies ++ (sites.map CallSite.callee).eraseDups.filter fun f => !bodies.contains f := by
  simp [nodesOf, Function.comp_def]

theorem nodup_nodesOf {bodies : List FunctionId} (h : bodies.Nodup) :
    ((nodesOf bodies sites).map CallNode.function).Nodup := by
  rw [map_function_nodesOf, List.nodup_append]
  refine ⟨h, (nodup_eraseDups _).filter _, ?_⟩
  -- what is added has no body
  rintro f hf _ hf' rfl
  simp [hf] at hf'

/-- A function has a node if it has a body or is called. -/
theorem mem_nodesOf {bodies : List FunctionId} : f ∈ (nodesOf bodies sites).map CallNode.function ↔
    f ∈ bodies ∨ f ∈ sites.map CallSite.callee := by
  rw [map_function_nodesOf, List.mem_append, List.mem_filter, List.mem_eraseDups]
  by_cases hf : f ∈ bodies <;> simp [hf]

/-- A node is marked if its function has a body. -/
theorem hasBody_of_mem_nodesOf {bodies : List FunctionId} {n : CallNode} (hn : n ∈ nodesOf bodies sites) :
    n.hasBody = true ↔ n.function ∈ bodies := by
  rcases List.mem_append.mp hn with hn | hn
  · obtain ⟨f, hf, rfl⟩ := List.mem_map.mp hn
    exact iff_of_true rfl hf
  · obtain ⟨f, hf, rfl⟩ := List.mem_map.mp hn
    exact iff_of_false Bool.false_ne_true (by simpa using (List.mem_filter.mp hf).2)

theorem nodup_edgesOf (sites : List CallSite) : ((edgesOf sites).map fun e => (e.caller, e.callee)).Nodup := by
  rw [map_ends_edgesOf]
  exact nodup_eraseDups _

/-- An edge carries the calls of its callee among those of its caller. -/
theorem calls_of_mem_edgesOf {e : CallEdge} (he : e ∈ edgesOf sites) : e.calls =
    ((sites.filter fun c => c.caller == e.caller).filter fun c => c.callee == e.callee).map CallSite.inst := by
  obtain ⟨ends, -, rfl⟩ := List.mem_map.mp he
  rw [List.filter_filter]
  simp only [edgeOf, Bool.and_comm]

/-! ## The graph of a program -/

section Program

variable {t : Tables} {g : CallGraph} (ht : t.Arranged)

include ht

/-- The calls of a function in the index come in the order of their instructions, no two at one. -/
theorem callsitesOf_pairwise (hg : ofTables t = .ok g) {calls : List (InstId × FunctionId)}
    (h : g.callsitesOf f = some calls) : calls.Pairwise fun c c' => c.1.index < c'.1.index := by
  obtain ⟨sites, hsites, rfl⟩ := ofTables_eq_ok.mp hg
  obtain ⟨hkey, rfl⟩ := eq_sortBy_of_mem_indexOf (mem_of_lookup h)
  -- the calls of `f` are among its instructions, each of which is listed once
  obtain ⟨⟨f, i, callee⟩, hc, rfl⟩ := List.mem_map.mp hkey
  obtain ⟨is, his, hown⟩ := Tables.callSitesAmong_eq_filter hsites ((ht.mem_callSites hsites).mp hc).body
  have hinsts := (Tables.sublist_callSitesAmong hown).nodup (ht.of_instsOf his).1
  have hperm := (sortBy_perm (fun a b : InstId × FunctionId => decide (a.1.index < b.1.index))
    ((sites.filter fun c => c.caller == f).map fun c => (c.inst, c.callee))).map Prod.fst
  rw [List.map_map] at hperm
  have hnodup := hperm.nodup_iff.mpr hinsts
  have hsorted := sortBy_pairwise (fun c : InstId × FunctionId => c.1.index)
    ((sites.filter fun c => c.caller == f).map fun c => (c.inst, c.callee))
  refine (hsorted.and (List.pairwise_map.mp hnodup)).imp ?_
  rintro ⟨⟨n⟩, _⟩ ⟨⟨m⟩, _⟩ ⟨hle, hne⟩
  exact Nat.lt_of_le_of_ne hle fun heq => hne (congrArg InstId.mk heq)

/-- Only functions without a call have no entry in the index. -/
theorem callsitesOf_eq_none_iff (hg : ofTables t = .ok g) :
    g.callsitesOf f = none ↔ ∀ i h, ¬ t.CallsAt f i h := by
  obtain ⟨sites, hsites, rfl⟩ := ofTables_eq_ok.mp hg
  constructor
  · intro hnone i h hcall
    obtain ⟨calls, hsome⟩ := exists_lookup_indexOf ((ht.mem_callSites hsites).mpr hcall)
    exact Option.some_ne_none calls (hsome.symm.trans hnone)
  · intro hnone
    -- an entry would come from a call
    by_contra hsome
    obtain ⟨calls, hcalls⟩ := Option.ne_none_iff_exists'.mp hsome
    obtain ⟨⟨f, i, h⟩, hc, rfl⟩ := List.mem_map.mp (eq_sortBy_of_mem_indexOf (mem_of_lookup hcalls)).1
    exact hnone i h ((ht.mem_callSites hsites).mp hc)

/-- An edge carries the instructions of its caller that the index gives its callee for. -/
theorem calls_of_mem_edges (hg : ofTables t = .ok g) {e : CallEdge} (he : e ∈ g.edges) :
    e.calls.Nodup ∧ ∃ is, t.instsOf e.caller = .ok is ∧
      e.calls = is.filter fun i => g.calleeAt e.caller i == some e.callee := by
  obtain ⟨sites, hsites, rfl⟩ := ofTables_eq_ok.mp hg
  -- some call made the edge, so the caller has a body
  obtain ⟨i, hi⟩ := exists_edge_iff.mp ⟨e, he, rfl, rfl⟩
  obtain ⟨is, his, hown⟩ := Tables.callSitesAmong_eq_filter hsites ((ht.mem_callSites hsites).mp hi).body
  obtain ⟨hnodup, hmem⟩ := ht.of_instsOf his
  have hcalls := calls_of_mem_edgesOf he
  rw [Tables.filter_callSitesAmong hown fun j hj => ?_] at hcalls
  · rw [hcalls]
    exact ⟨hnodup.filter _, is, his, rfl⟩
  · rw [beq_iff_eq, calleeAt_eq_some ht hg]
    exact and_iff_right ((hmem j).mp hj)

/-- **The graph of an arranged program is exact**: each field of `Exact` is one of the lemmas above. -/
theorem exact_of_arranged (hg : ofTables t = .ok g) : g.Exact t := by
  obtain ⟨sites, hsites, rfl⟩ := ofTables_eq_ok.mp hg
  -- the callees in the list are the functions that are called
  have hcalled (h : FunctionId) : h ∈ sites.map CallSite.callee ↔ ∃ f i, t.CallsAt f i h := by
    rw [List.mem_map]
    constructor
    · rintro ⟨c, hc, rfl⟩
      exact ⟨c.caller, c.inst, (ht.mem_callSites hsites).mp hc⟩
    · rintro ⟨f, i, hcall⟩
      exact ⟨_, (ht.mem_callSites hsites).mpr hcall, rfl⟩
  exact {
    calleeAt f i h := by rw [calleeAt_eq_some ht hg, ht.callsAt_iff]
    callsitesOf_eq_none f := callsitesOf_eq_none_iff ht hg
    callsitesOf f calls hcalls := by
      refine ⟨callsitesOf_pairwise ht hg hcalls, fun i h => ?_⟩
      rw [mem_callsitesOf ht hg hcalls, ht.callsAt_iff]
    nodes_nodup := nodup_nodesOf t.bodies_nodup
    nodes f := by rw [mem_nodesOf, Tables.mem_bodies_iff, hcalled]
    marks n hn := by rw [hasBody_of_mem_nodesOf hn, Tables.mem_bodies_iff]
    edges_nodup := nodup_edgesOf sites
    edges f h := by
      rw [exists_edge_iff]
      exact exists_congr fun i => ht.mem_callSites hsites
    calls e he := calls_of_mem_edges ht hg he }

end Program

/-- **The call graph of every program that was built is exact**: the nodes are the functions that have a
body or are called from one, there is one edge for each pair of a caller and a callee, and all calls are
listed, by an edge as they are laid out and by the index as their instructions are numbered. -/
theorem exact_of_runAll {steps : List Step} {b : Builder} (hb : Builder.empty.runAll steps = .ok b) :
    ∃ g, ofTables b.finish.toTables = .ok g ∧ g.Exact b.finish.toTables := by
  have ht : b.finish.toTables.Arranged := Builder.arranged_of_runAll hb
  obtain ⟨g, hg⟩ := exists_ofTables ht
  exact ⟨g, hg, exact_of_arranged ht hg⟩

/-- Two functions that call each other. The first one also calls itself, and its second block is filled
before the other one. -/
def forwardSteps : List Step :=
  [.function "first" [] ⟨0⟩, .function "second" [] ⟨0⟩, .function "declared" [] ⟨0⟩,
    .function "unused" [] ⟨0⟩, .block ⟨0⟩ "entry", .block ⟨0⟩ "rest", .block ⟨1⟩ "entry",
    .call ⟨1⟩ ⟨2⟩ [], .call ⟨1⟩ ⟨1⟩ [], .call ⟨0⟩ ⟨1⟩ [], .call ⟨0⟩ ⟨0⟩ [], .call ⟨2⟩ ⟨0⟩ []]

/-- The edge to the later function lists its calls as they are laid out, the index as they are numbered. -/
theorem exact_forwardSteps : ∃ b g, Builder.empty.runAll forwardSteps = .ok b ∧
    ofTables b.finish.toTables = .ok g ∧ g.Exact b.finish.toTables ∧
      g.nodes = [⟨⟨0⟩, true⟩, ⟨⟨1⟩, true⟩, ⟨⟨2⟩, false⟩] ∧ ⟨⟨0⟩, ⟨1⟩, [⟨2⟩, ⟨1⟩]⟩ ∈ g.edges ∧
        g.callsitesOf ⟨0⟩ = some [(⟨0⟩, ⟨2⟩), (⟨1⟩, ⟨1⟩), (⟨2⟩, ⟨1⟩), (⟨3⟩, ⟨0⟩)] := by
  obtain ⟨b, hb⟩ : ∃ b, Builder.empty.runAll forwardSteps = .ok b := ⟨_, rfl⟩
  obtain ⟨g, hg, hexact⟩ := exact_of_runAll hb
  refine ⟨b, g, hb, hg, hexact, ?_⟩
  cases hb
  cases hg
  exact ⟨by decide, by decide, by decide⟩

end CallGraph

end Relock
