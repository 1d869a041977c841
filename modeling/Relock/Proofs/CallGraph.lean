import Relock.CallGraph.Dot
import Relock.CallGraph.Search
import Relock.Proofs.CallGraph.Passes
import Relock.Proofs.Grouping
import Relock.Proofs.Program.Arrangement

/-!
# What a call graph knows

The index of a call graph goes through the calls of every body, groups them by caller and sorts each
group. What it answers in the end is what the instruction itself says: its function and its callee.

* `Tables.lists_callSites`: the direct calls of a program;
* `CallGraph.mem_callsitesOf`, `CallGraph.calleeAt_eq_some`: the index is exact;
* `CallGraph.exists_dot`: the text of a graph;
* `CallGraph.Search.goal_of_run`: a search returns a goal;
* `CallGraph.Search.exists_chain`: the backtrace from it succeeds.
-/

namespace Relock

/-! ## Direct calls -/

namespace Tables

variable {t : Tables}

theorem calledFunction_eq_ok {i : InstId} {callee : Option FunctionId} :
    t.calledFunction i = .ok callee ↔ ∃ k, t.kindOf i = .ok k ∧ k.callee? = callee := by
  simp [calledFunction]

/-- The calls of a function lie in it. -/
theorem caller_of_callSitesAmong {f : FunctionId} {is : List InstId} {sites : List CallSite}
    (h : t.callSitesAmong f is = .ok sites) : ∀ c ∈ sites, c.caller = f := by
  induction is generalizing sites with
  | nil =>
    cases h
    simp
  | cons i is ih =>
    obtain ⟨callee, -, h⟩ := bind_eq_ok.mp h
    cases callee with
    | none => exact ih h
    | some callee =>
      obtain ⟨rest, hrest, h⟩ := bind_eq_ok.mp h
      cases h
      intro c hc
      rcases List.mem_cons.mp hc with rfl | hc
      · rfl
      · exact ih hrest c hc

/-- The direct calls among instructions are those that name a callee. -/
theorem lists_callSitesAmong (caller : FunctionId) {is : List InstId}
    (hlt : ∀ i ∈ is, i.index < t.insts.size) :
    Lists (t.callSitesAmong caller is) fun c =>
      c.caller = caller ∧ c.inst ∈ is ∧ t.calledFunction c.inst = .ok (some c.callee) := by
  induction is with
  | nil => exact (Lists.ok []).congr (by simp)
  | cons i is ih =>
    obtain ⟨k, hk⟩ := InRange.exists_kindOf (hlt i (List.mem_cons_self ..))
    have hcalled : t.calledFunction i = .ok k.callee? := calledFunction_eq_ok.mpr ⟨k, hk, rfl⟩
    obtain ⟨rest, hrest, hmem⟩ := ih fun j hj => hlt j (List.mem_cons_of_mem _ hj)
    unfold callSitesAmong
    rw [hcalled, ok_bind]
    -- an instruction that calls nothing by name is passed over, a call is put in front
    cases hcallee : k.callee? with
    | none =>
      refine ⟨rest, hrest, fun c => ?_⟩
      rw [hmem]
      constructor
      · rintro ⟨rfl, hin, hc⟩
        exact ⟨rfl, List.mem_cons_of_mem _ hin, hc⟩
      · rintro ⟨rfl, hin, hc⟩
        rcases List.mem_cons.mp hin with rfl | hin
        · rw [hcalled, hcallee] at hc
          cases hc
        · exact ⟨rfl, hin, hc⟩
    | some callee =>
      refine ⟨⟨caller, i, callee⟩ :: rest, by simp [hrest], fun c => ?_⟩
      rw [List.mem_cons, hmem]
      constructor
      · rintro (rfl | ⟨rfl, hin, hc⟩)
        · exact ⟨rfl, List.mem_cons_self .., by rw [hcalled, hcallee]⟩
        · exact ⟨rfl, List.mem_cons_of_mem _ hin, hc⟩
      · rintro ⟨rfl, hin, hc⟩
        rcases List.mem_cons.mp hin with rfl | hin
        · rw [hcalled, hcallee] at hc
          cases c
          cases hc
          exact .inl rfl
        · exact .inr ⟨rfl, hin, hc⟩

theorem exists_function_of_mem_bodies {f : FunctionId} (hf : f ∈ t.bodies) : ∃ g, t.function f = .ok g := by
  obtain ⟨g, hg, -⟩ := Option.any_eq_true _ _ |>.mp (List.mem_filter.mp hf).2
  exact ⟨g, function_eq_ok.mpr hg⟩

variable (ht : t.Arranged)

include ht

/-- The function of an instruction has a body. -/
theorem Arranged.mem_bodies {i : InstId} {f : FunctionId} (h : t.functionOf i = .ok f) : f ∈ t.bodies := by
  obtain ⟨x, b, hx, hb, rfl⟩ := functionOf_eq_ok.mp h
  have hlt := ht.owners b (Array.mem_of_getElem? (block_eq_ok.mp hb))
  obtain ⟨g, -, hg⟩ := @exists_lookUp _ .functions _ _ hlt
  -- the function lists the block of the instruction, so it is not a declaration
  have hblock : x.block ∈ g.blocks := (ht.mem_blocks hg).mpr ⟨b, hb, rfl⟩
  refine List.mem_filter.mpr ⟨List.mem_map.mpr ⟨_, List.mem_range.mpr hlt, rfl⟩, ?_⟩
  rw [function_eq_ok.mp hg]
  simp [Function.isDeclaration, List.ne_nil_of_mem hblock]

/-- The direct calls of a program are the instructions that call a function by name, each in its own
function. -/
theorem lists_callSites : Lists t.callSites fun c =>
    t.functionOf c.inst = .ok c.caller ∧ t.calledFunction c.inst = .ok (some c.callee) := by
  -- body by body; a call of one body lies in no other
  have hbody : ∀ f ∈ t.bodies, Lists (t.callSitesOf f) fun c => c.caller = f ∧
      t.functionOf c.inst = .ok f ∧ t.calledFunction c.inst = .ok (some c.callee) := by
    intro f hf
    obtain ⟨g, hg⟩ := exists_function_of_mem_bodies hf
    obtain ⟨is, his, -, hmem⟩ := ht.exists_instsOf hg
    have hlt : ∀ i ∈ is, i.index < t.insts.size := by
      intro i hi
      exact lt_of_functionOf ((hmem i).mp hi)
    rw [callSitesOf, his, ok_bind]
    exact (lists_callSitesAmong f hlt).congr fun c => by rw [hmem]
  refine (Lists.flatMapM hbody).congr fun c => ?_
  constructor
  · rintro ⟨f, -, rfl, hc⟩
    exact hc
  · rintro ⟨hf, hc⟩
    exact ⟨c.caller, ht.mem_bodies hf, rfl, hf, hc⟩

end Tables

namespace CallGraph

variable {t : Tables} {g : CallGraph}

/-- The call graph of a program that is put together properly can be made. -/
theorem exists_ofTables (ht : t.Arranged) : ∃ g, ofTables t = .ok g := by
  obtain ⟨sites, hsites, -⟩ := Tables.lists_callSites ht
  exact ⟨_, bind_eq_ok.mpr ⟨sites, hsites, rfl⟩⟩

/-! ## The index -/

/-- Functions are told apart by their indices. -/
theorem strictTotal_functionId : StrictTotal fun f g : FunctionId => decide (f.index < g.index) :=
  strictTotal_of_injective fun f g h => by cases f; cases g; exact congrArg _ h

/-- The entry of a caller lists its calls. -/
theorem mem_indexOf {sites : List CallSite} {f : FunctionId} {calls : List (InstId × FunctionId)}
    (h : (f, calls) ∈ indexOf sites) {i : InstId} {callee : FunctionId} :
    (i, callee) ∈ calls ↔ ⟨f, i, callee⟩ ∈ sites := by
  obtain ⟨⟨f', unsorted⟩, hgroup, heq⟩ := List.mem_map.mp h
  cases heq
  obtain ⟨-, rfl⟩ := (mem_groupBy strictTotal_functionId).mp hgroup
  -- sorting a group keeps its calls
  rw [(sortBy_perm _ _).mem_iff]
  simp only [List.mem_map, List.mem_filter, beq_iff_eq]
  constructor
  · rintro ⟨_, ⟨⟨⟨f', i', callee'⟩, hc, rfl⟩, rfl⟩, heq⟩
    cases heq
    exact hc
  · intro hc
    exact ⟨_, ⟨⟨_, hc, rfl⟩, rfl⟩, rfl⟩

/-- A caller of some call has an entry. -/
theorem exists_lookup_indexOf {sites : List CallSite} {c : CallSite} (hc : c ∈ sites) :
    ∃ calls, (indexOf sites).lookup c.caller = some calls := by
  apply Option.isSome_iff_exists.mp
  rw [List.lookup_isSome_iff]
  have hkey : c.caller ∈ (sites.map fun s => (s.caller, (s.inst, s.callee))).map Prod.fst := by
    rw [List.map_map]
    exact List.mem_map.mpr ⟨c, hc, rfl⟩
  have hgroup := (mem_groupBy strictTotal_functionId).mpr ⟨hkey, rfl⟩
  exact ⟨_, List.mem_map_of_mem hgroup, beq_self_eq_true _⟩

variable (ht : t.Arranged) (hg : ofTables t = .ok g)

include ht hg

/-- **The index is exact**: the entry of a function lists the direct calls that lie in it, with their callees. -/
theorem mem_callsitesOf {f : FunctionId} {calls : List (InstId × FunctionId)}
    (h : g.callsitesOf f = some calls) {i : InstId} {callee : FunctionId} :
    (i, callee) ∈ calls ↔ t.functionOf i = .ok f ∧ t.calledFunction i = .ok (some callee) := by
  obtain ⟨sites, hsites, rfl⟩ := ofTables_eq_ok.mp hg
  rw [mem_indexOf (mem_of_lookup h)]
  exact (Tables.lists_callSites ht).mem_iff hsites

/-- The callee that the index gives is the one that the instruction names. -/
theorem calleeAt_eq_some {f : FunctionId} {i : InstId} {callee : FunctionId} :
    g.calleeAt f i = some callee ↔
      t.functionOf i = .ok f ∧ t.calledFunction i = .ok (some callee) := by
  constructor
  · intro h
    obtain ⟨calls, hcalls, hi⟩ := Option.bind_eq_some_iff.mp h
    exact (mem_callsitesOf ht hg hcalls).mp (mem_of_lookup hi)
  · rintro ⟨hf, hcallee⟩
    -- the caller has a call, so it has an entry
    obtain ⟨calls, hcalls⟩ : ∃ calls, g.callsitesOf f = some calls := by
      obtain ⟨sites, hsites, rfl⟩ := ofTables_eq_ok.mp hg
      exact exists_lookup_indexOf (c := ⟨f, i, callee⟩) (((Tables.lists_callSites ht).mem_iff hsites).mpr ⟨hf, hcallee⟩)
    have hmem := (mem_callsitesOf ht hg hcalls).mpr ⟨hf, hcallee⟩
    obtain ⟨found, hfound⟩ : ∃ found, calls.lookup i = some found :=
      Option.isSome_iff_exists.mp (List.lookup_isSome_iff.mpr ⟨_, hmem, beq_self_eq_true _⟩)
    -- an instruction has one callee, so the first entry is as good as any
    obtain ⟨-, hsame⟩ := (mem_callsitesOf ht hg hcalls).mp (mem_of_lookup hfound)
    rw [hcallee] at hsame
    cases hsame
    exact Option.bind_eq_some_iff.mpr ⟨calls, hcalls, hfound⟩

/-! ## The text of a graph -/

/-- Every node is a function of the program. -/
theorem exists_function_of_mem_nodes (hrange : t.InRange) {n : CallNode} (hn : n ∈ g.nodes) :
    ∃ f, t.function n.function = .ok f := by
  obtain ⟨sites, hsites, rfl⟩ := ofTables_eq_ok.mp hg
  rcases List.mem_append.mp hn with hn | hn
  · obtain ⟨f, hf, rfl⟩ := List.mem_map.mp hn
    exact Tables.exists_function_of_mem_bodies hf
  · -- a function without a body is a node because some instruction calls it
    obtain ⟨f, hf, rfl⟩ := List.mem_map.mp hn
    obtain ⟨c, hc, rfl⟩ := List.mem_map.mp (List.mem_eraseDups.mp (List.mem_filter.mp hf).1)
    obtain ⟨-, hcalled⟩ := ((Tables.lists_callSites ht).mem_iff hsites).mp hc
    obtain ⟨k, hk, hcallee⟩ := Tables.calledFunction_eq_ok.mp hcalled
    obtain ⟨x, -, hx⟩ := @exists_lookUp _ .functions _ _ ((hrange.kindOf_within hk).callee _ hcallee)
    exact ⟨x, hx⟩

theorem exists_dot (hrange : t.InRange) : ∃ text, g.dot t = .ok text := by
  refine exists_bind_ok (exists_mapM_ok fun n hn => ?_) fun _ _ => ⟨_, rfl⟩
  obtain ⟨f, hf⟩ := exists_function_of_mem_nodes ht hg hrange hn
  exact ⟨f.name, bind_eq_ok.mpr ⟨f, hf, rfl⟩⟩

end CallGraph

namespace CallGraph.Search

variable {t : Tables} {g : CallGraph} {goal : FunctionId → Bool}

/-! ## Searching -/

/-- A search returns a goal. -/
theorem goal_of_run {s : Search} {found : FunctionId} {parents : List (FunctionId × InstId)}
    (h : s.run g goal = some (found, parents)) : goal found = true := by
  fun_induction run g goal s with
  | case1 => cases h
  | case2 fresh f stack parents hgoal =>
    cases h
    exact hgoal
  | case3 fresh f stack parents hgoal ih => exact ih h

/-- What holds of the calls of a graph holds of the calls that a search remembers. -/
theorem parents_enter {P : InstId → Prop} {s : Search} {calls : List (InstId × FunctionId)}
    (hs : ∀ e ∈ s.parents, P e.2) (hcalls : ∀ c ∈ calls, P c.1) : ∀ e ∈ (s.enter calls).parents, P e.2 := by
  fun_induction enter s calls with
  | case1 => exact hs
  | case2 s site callee calls hfresh ih =>
    refine ih (fun e he => ?_) fun c hc => hcalls c (List.mem_cons_of_mem _ hc)
    rcases List.mem_cons.mp he with rfl | he
    · exact hcalls _ (List.mem_cons_self ..)
    · exact hs e he
  | case3 s site callee calls hfresh ih =>
    exact ih hs fun c hc => hcalls c (List.mem_cons_of_mem _ hc)

/-- What holds of all call sites of a graph holds of the parents that a search returns. -/
theorem parents_run {P : InstId → Prop} {s : Search} {found : FunctionId}
    {parents : List (FunctionId × InstId)} (hs : ∀ e ∈ s.parents, P e.2)
    (hg : ∀ f calls, g.callsitesOf f = some calls → ∀ c ∈ calls, P c.1)
    (h : s.run g goal = some (found, parents)) : ∀ e ∈ parents, P e.2 := by
  fun_induction run g goal s with
  | case1 => cases h
  | case2 fresh f stack parents hgoal =>
    cases h
    exact hs
  | case3 fresh f stack parents hgoal ih =>
    -- the calls that are remembered next are calls of `f`
    refine ih (parents_enter hs fun c hc => ?_) h
    cases hcalls : g.callsitesOf f with
    | none => simp [hcalls] at hc
    | some calls => exact hg f calls hcalls c (by simpa [hcalls] using hc)

/-- The backtrace from a function succeeds if the parent call sites are instructions of the program. -/
theorem exists_chainFrom (ht : t.InRange) {parents : List (FunctionId × InstId)} {root : FunctionId}
    (hparents : ∀ e ∈ parents, e.2.index < t.insts.size) (unseen : List FunctionId) (f : FunctionId)
    (later : List InstId) (hlater : ∀ i ∈ later, i.index < t.insts.size) :
    ∃ chain, chainFrom t parents root unseen f later = .ok chain ∧ ∀ i ∈ chain, i.index < t.insts.size := by
  have hmore {f : FunctionId} {site : InstId} {later : List InstId} (hsite : parents.lookup f = some site)
      (hlater : ∀ i ∈ later, i.index < t.insts.size) : ∀ i ∈ site :: later, i.index < t.insts.size := by
    intro i hi
    rcases List.mem_cons.mp hi with rfl | hi
    · exact hparents _ (mem_of_lookup hsite)
    · exact hlater i hi
  -- whatever ends the backtrace, all that was put in front of `later` comes from `parents`
  fun_induction chainFrom t parents root unseen f later with
  | case1 unseen f later hnone => exact ⟨later, rfl, hlater⟩
  | case2 unseen f later site hsite hunseen ih =>
    -- the function of a call site can be looked up
    obtain ⟨caller, hcaller, -⟩ := ht.exists_functionOf (hparents _ (mem_of_lookup hsite))
    rw [hcaller, ok_bind]
    split
    · exact ⟨site :: later, rfl, hmore hsite hlater⟩
    · exact ih caller (hmore hsite hlater)
  | case3 unseen f later site hsite hseen => exact ⟨site :: later, rfl, hmore hsite hlater⟩

/-- The calls that lead to the function found are instructions of the program. -/
theorem exists_chain (ht : t.InRange) (hg : ∀ f calls, g.callsitesOf f = some calls →
      ∀ c ∈ calls, c.1.index < t.insts.size) {i : InstId} (hi : i.index < t.insts.size)
    {callee found : FunctionId} {parents : List (FunctionId × InstId)}
    (h : (start g i callee).run g goal = some (found, parents)) (root : FunctionId) :
    ∃ calls, chain t parents root found = .ok calls ∧ ∀ j ∈ calls, j.index < t.insts.size := by
  have hparents := parents_run (P := fun j => j.index < t.insts.size) (by simpa [start] using hi) hg h
  exact exists_chainFrom ht hparents _ found [] (by simp)

end CallGraph.Search

end Relock
