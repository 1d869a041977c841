import Relock.Proofs.CallGraph
import Mathlib.Logic.Relation

/-!
# What a search of a call graph finds

A search marks a function when it puts it on the stack, and remembers the call that did so. The calls
remembered grow as a tree from the call that the search was started for. A function of the tree that is
no longer on the stack is not a goal, and all that it calls is in the tree as well. So when the stack is
empty, the tree holds everything that can be reached, and none of it is a goal.

* `CallGraph.calls_iff`: the edges of a graph and its index record the same calls;
* `Search.Consistent.enter`, `Search.Explores.step`: what one step of a search keeps;
* `Search.grown_of_run`, `Search.closed_of_run`: what a whole search leaves behind;
* `Search.run_exact`: a search finds a goal exactly if one can be reached.
-/

namespace Relock.CallGraph

variable {t : Tables} {g : CallGraph}

/-! ## Recorded calls -/

/-- Whether the graph records a call from one function to another one. -/
def Calls (g : CallGraph) (f h : FunctionId) : Prop := ∃ e ∈ g.edges, e.caller = f ∧ e.callee = h

/-- Whether zero or more recorded calls lead from one function to another one. -/
def Reaches (g : CallGraph) : FunctionId → FunctionId → Prop := Relation.ReflTransGen g.Calls

/-- There is an edge for every pair of functions with a call between them. -/
theorem exists_edge_iff {sites : List CallSite} {f h : FunctionId} :
    (∃ e ∈ edgesOf sites, e.caller = f ∧ e.callee = h) ↔ ∃ i, ⟨f, i, h⟩ ∈ sites := by
  -- edges are made of pairs, in which the call itself is left out
  have hpair (pair : FunctionId × FunctionId) :
      pair ∈ (sites.map fun s => (s.caller, s.callee)).eraseDups ↔ ∃ i, ⟨pair.1, i, pair.2⟩ ∈ sites := by
    rw [List.mem_eraseDups, List.mem_map]
    constructor
    · rintro ⟨s, hs, rfl⟩
      exact ⟨s.inst, hs⟩
    · rintro ⟨i, hi⟩
      exact ⟨_, hi, rfl⟩
  constructor
  · rintro ⟨e, he, rfl, rfl⟩
    obtain ⟨pair, hp, rfl⟩ := List.mem_map.mp he
    exact (hpair pair).mp hp
  · intro h
    exact ⟨_, List.mem_map_of_mem ((hpair (_, _)).mpr h), rfl, rfl⟩

/-- The calls that the index gives for a function, none if it has no entry. -/
theorem mem_lookup_indexOf {sites : List CallSite} {f h : FunctionId} {i : InstId} :
    (i, h) ∈ ((indexOf sites).lookup f).getD [] ↔ ⟨f, i, h⟩ ∈ sites := by
  cases hcalls : (indexOf sites).lookup f with
  | some calls =>
    rw [Option.getD_some]
    exact mem_indexOf (mem_of_lookup hcalls)
  | none =>
    simp only [Option.getD_none, List.not_mem_nil, false_iff]
    intro hsite
    obtain ⟨calls, hsome⟩ := exists_lookup_indexOf hsite
    rw [hcalls] at hsome
    cases hsome

/-- The edges and the index are made of the same calls. -/
theorem calls_iff (hg : ofTables t = .ok g) {f h : FunctionId} :
    g.Calls f h ↔ ∃ i, (i, h) ∈ (g.callsitesOf f).getD [] := by
  obtain ⟨sites, -, rfl⟩ := ofTables_eq_ok.mp hg
  show (∃ e ∈ edgesOf sites, e.caller = f ∧ e.callee = h) ↔ ∃ i, (i, h) ∈ ((indexOf sites).lookup f).getD []
  rw [exists_edge_iff]
  simp only [mem_lookup_indexOf]

/-- A call that the index gives for a function lies in it. -/
theorem of_mem_callsitesOf (ht : t.Arranged) (hg : ofTables t = .ok g) {f h : FunctionId} {i : InstId}
    (hcall : (i, h) ∈ (g.callsitesOf f).getD []) :
    t.functionOf i = .ok f ∧ t.calledFunction i = .ok (some h) := by
  cases hcalls : g.callsitesOf f with
  | none => simp [hcalls] at hcall
  | some calls =>
    rw [hcalls, Option.getD_some] at hcall
    exact (mem_callsitesOf ht hg hcalls).mp hcall

namespace Search

variable {goal : FunctionId → Bool} {site : InstId} {callee : FunctionId} {s : Search}

/-- No function is fresh twice when a search starts. -/
theorem nodup_calledFunctions : (calledFunctions g).Nodup := nodup_eraseDups _

/-- The callee of a recorded call is one of the functions that are called. -/
theorem mem_calledFunctions {f h : FunctionId} {i : InstId}
    (hcall : (i, h) ∈ (g.callsitesOf f).getD []) : h ∈ calledFunctions g := by
  cases hcalls : g.callsitesOf f with
  | none => simp [hcalls] at hcall
  | some calls =>
    rw [hcalls, Option.getD_some] at hcall
    exact List.mem_eraseDups.mpr
      (List.mem_flatMap.mpr ⟨_, mem_of_lookup hcalls, List.mem_map_of_mem hcall⟩)

/-! ## One step -/

/-- The functions that a search has reached. -/
def reached (s : Search) : List FunctionId := s.parents.map Prod.fst

/-- The calls that a search remembers, the newest one first: in the end the call that it was started
for, and in front of it a call from a function reached before to a function not reached before. -/
inductive Grown (g : CallGraph) (site : InstId) (callee : FunctionId) : List (FunctionId × InstId) → Prop
  | start : Grown g site callee [(callee, site)]
  | grow {parents : List (FunctionId × InstId)} {f h : FunctionId} {i : InstId}
      (older : Grown g site callee parents) (caller : f ∈ parents.map Prod.fst)
      (call : (i, h) ∈ (g.callsitesOf f).getD []) (new : h ∉ parents.map Prod.fst) :
      Grown g site callee ((h, i) :: parents)

/-- A state of a search in which the three lists agree with each other. -/
structure Consistent (g : CallGraph) (site : InstId) (callee : FunctionId) (s : Search) : Prop where
  grown : Grown g site callee s.parents
  fresh : ∀ f, f ∈ s.fresh ↔ f ∈ calledFunctions g ∧ f ∉ s.reached
  nodup : s.fresh.Nodup
  stack : ∀ f ∈ s.stack, f ∈ s.reached

/-- At the start, one function has been reached, by the call that the search is for. -/
theorem consistent_start : Consistent g site callee (start g site callee) where
  grown := .start
  fresh f := by
    show f ∈ (calledFunctions g).erase callee ↔ _
    rw [nodup_calledFunctions.mem_erase_iff]
    simp [reached, start, and_comm]
  nodup := nodup_calledFunctions.erase _
  stack f hf := by simpa [reached, start] using hf

namespace Consistent

variable {f : FunctionId}

/-- Reaching one more function keeps the lists in agreement. -/
theorem push (hs : Consistent g site callee s) (hf : f ∈ s.reached) {i : InstId} {h : FunctionId}
    (hcall : (i, h) ∈ (g.callsitesOf f).getD []) (hfresh : h ∈ s.fresh) :
    Consistent g site callee ⟨s.fresh.erase h, h :: s.stack, (h, i) :: s.parents⟩ where
  grown := .grow hs.grown hf hcall ((hs.fresh h).mp hfresh).2
  fresh x := by
    rw [hs.nodup.mem_erase_iff, hs.fresh]
    simp only [reached, List.map_cons, List.mem_cons, not_or]
    grind
  nodup := hs.nodup.erase _
  stack x hx := by
    rcases List.mem_cons.mp hx with rfl | hx
    · exact List.mem_cons_self ..
    · exact List.mem_cons_of_mem _ (hs.stack x hx)

/-- A callee of a recorded call is fresh unless it has been reached. -/
theorem reached_of_not_fresh (hs : Consistent g site callee s) {i : InstId} {h : FunctionId}
    (hcall : (i, h) ∈ (g.callsitesOf f).getD []) (hfresh : h ∉ s.fresh) : h ∈ s.reached := by
  by_contra hnew
  exact hfresh ((hs.fresh h).mpr ⟨mem_calledFunctions hcall, hnew⟩)

variable {calls : List (InstId × FunctionId)}

/-- **Step lemma**: following the calls of a function keeps the lists in agreement. -/
theorem enter (hs : Consistent g site callee s) (hf : f ∈ s.reached)
    (hcalls : ∀ c ∈ calls, c ∈ (g.callsitesOf f).getD []) : Consistent g site callee (s.enter calls) := by
  fun_induction Search.enter s calls with
  | case1 => exact hs
  | case2 s i h calls hfresh ih =>
    have hcall := hcalls _ (List.mem_cons_self ..)
    have hrest := fun c hc => hcalls c (List.mem_cons_of_mem _ hc)
    exact ih (hs.push hf hcall hfresh) (List.mem_cons_of_mem _ hf) hrest
  | case3 s i h calls hfresh ih => exact ih hs hf fun c hc => hcalls c (List.mem_cons_of_mem _ hc)

/-- After the calls of a function have been followed, its callees have been reached. -/
theorem mem_reached_enter (hs : Consistent g site callee s) (hf : f ∈ s.reached)
    (hcalls : ∀ c ∈ calls, c ∈ (g.callsitesOf f).getD []) {x : FunctionId} :
    x ∈ (s.enter calls).reached ↔ x ∈ s.reached ∨ x ∈ calls.map Prod.snd := by
  fun_induction Search.enter s calls with
  | case1 => simp
  | case2 s i h calls hfresh ih =>
    have hcall := hcalls _ (List.mem_cons_self ..)
    have hrest := fun c hc => hcalls c (List.mem_cons_of_mem _ hc)
    rw [ih (hs.push hf hcall hfresh) (List.mem_cons_of_mem _ hf) hrest]
    simp only [reached, List.map_cons, List.mem_cons]
    grind
  | case3 s i h calls hfresh ih =>
    -- the callee is not fresh, so it has been reached already
    have hold := hs.reached_of_not_fresh (hcalls _ (List.mem_cons_self ..)) hfresh
    rw [ih hs hf fun c hc => hcalls c (List.mem_cons_of_mem _ hc)]
    simp only [List.map_cons, List.mem_cons]
    constructor
    · grind
    · rintro (hx | rfl | hx)
      · exact .inl hx
      · exact .inl hold
      · exact .inr hx

/-- What is reached for the first time waits on the stack, with all that waited before. -/
theorem mem_stack_enter (hs : Consistent g site callee s) (hf : f ∈ s.reached)
    (hcalls : ∀ c ∈ calls, c ∈ (g.callsitesOf f).getD []) {x : FunctionId} :
    x ∈ (s.enter calls).stack ↔ x ∈ s.stack ∨ x ∈ calls.map Prod.snd ∧ x ∉ s.reached := by
  fun_induction Search.enter s calls with
  | case1 => simp
  | case2 s i h calls hfresh ih =>
    have hcall := hcalls _ (List.mem_cons_self ..)
    have hrest := fun c hc => hcalls c (List.mem_cons_of_mem _ hc)
    -- what is put on the stack is new, so it is not there twice
    have hnew : h ∉ s.reached := ((hs.fresh h).mp hfresh).2
    rw [ih (hs.push hf hcall hfresh) (List.mem_cons_of_mem _ hf) hrest]
    simp only [reached, List.map_cons, List.mem_cons, not_or] at hnew ⊢
    by_cases hx : x = h
    · subst hx
      grind
    · grind
  | case3 s i h calls hfresh ih =>
    have hold := hs.reached_of_not_fresh (hcalls _ (List.mem_cons_self ..)) hfresh
    rw [ih hs hf fun c hc => hcalls c (List.mem_cons_of_mem _ hc)]
    simp only [List.map_cons, List.mem_cons]
    by_cases hx : x = h
    · subst hx
      grind
    · grind

/-- Taking a function off the stack keeps the lists in agreement. -/
theorem pop {fresh stack : List FunctionId} {parents : List (FunctionId × InstId)}
    (hs : Consistent g site callee ⟨fresh, f :: stack, parents⟩) :
    Consistent g site callee ⟨fresh, stack, parents⟩ :=
  { hs with stack := fun x hx => hs.stack x (List.mem_cons_of_mem _ hx) }

end Consistent

/-- A consistent state in which every function that has been looked at is done with: it is not a goal,
and its callees have been reached. -/
structure Explores (g : CallGraph) (goal : FunctionId → Bool) (site : InstId) (callee : FunctionId)
    (s : Search) : Prop extends Consistent g site callee s where
  done : ∀ f ∈ s.reached, f ∉ s.stack →
    goal f = false ∧ ∀ c ∈ (g.callsitesOf f).getD [], c.2 ∈ s.reached

/-- At the start, no function has been looked at. -/
theorem explores_start : Explores g goal site callee (start g site callee) :=
  -- the one function reached is still on the stack
  { consistent_start with done := fun f hf hstack => absurd (by simpa [reached, start] using hf) hstack }

/-- Looking at a function that is not a goal leaves it done with. -/
theorem Explores.step {fresh stack : List FunctionId} {parents : List (FunctionId × InstId)}
    {f : FunctionId} (hs : Explores g goal site callee ⟨fresh, f :: stack, parents⟩)
    (hgoal : goal f = false) :
    Explores g goal site callee ((Search.mk fresh stack parents).enter ((g.callsitesOf f).getD [])) := by
  have hpop := hs.toConsistent.pop
  have hf : f ∈ (Search.mk fresh stack parents).reached := hs.stack f (List.mem_cons_self ..)
  -- what has been reached stays reached
  have hmono {x : FunctionId} (hx : x ∈ parents.map Prod.fst) :
      x ∈ ((Search.mk fresh stack parents).enter ((g.callsitesOf f).getD [])).reached :=
    (hpop.mem_reached_enter hf fun c hc => hc).mpr (.inl hx)
  refine { hpop.enter hf fun c hc => hc with done := fun x hx hstack => ?_ }
  rw [hpop.mem_stack_enter hf fun c hc => hc, not_or, not_and_not_right] at hstack
  rw [hpop.mem_reached_enter hf fun c hc => hc] at hx
  have hold : x ∈ parents.map Prod.fst := hx.elim id hstack.2
  by_cases hxf : x = f
  · subst hxf
    refine ⟨hgoal, fun c hc => (hpop.mem_reached_enter hf fun c hc => hc).mpr ?_⟩
    exact .inr (List.mem_map_of_mem hc)
  · -- another function that is off the stack was off it before
    have hoff : x ∉ f :: stack := by simp [hxf, hstack.1]
    obtain ⟨hno, hcallees⟩ := hs.done x hold hoff
    exact ⟨hno, fun c hc => hmono (hcallees c hc)⟩

/-! ## A whole search -/

/-- **Run lemma**: the function found has been reached by the calls remembered. -/
theorem grown_of_run (hs : Explores g goal site callee s) {found : FunctionId}
    {parents : List (FunctionId × InstId)} (h : s.run g goal = some (found, parents)) :
    Grown g site callee parents ∧ found ∈ parents.map Prod.fst := by
  fun_induction run g goal s with
  | case1 => cases h
  | case2 fresh f stack parents hgoal =>
    cases h
    exact ⟨hs.grown, hs.stack _ (List.mem_cons_self ..)⟩
  | case3 fresh f stack parents hgoal ih => exact ih (hs.step (Bool.eq_false_iff.mpr hgoal)) h

/-- The functions reached include the one that the search starts from. -/
theorem Grown.callee_mem {parents : List (FunctionId × InstId)} (h : Grown g site callee parents) :
    callee ∈ parents.map Prod.fst := by
  induction h with
  | start => simp
  | grow older caller call new ih => exact List.mem_cons_of_mem _ ih

/-- **Run lemma**: a search that finds nothing has reached a set of functions without a goal that no call leaves. -/
theorem closed_of_run (hs : Explores g goal site callee s) (h : s.run g goal = none) :
    ∃ closed : List FunctionId, callee ∈ closed ∧
      ∀ f ∈ closed, goal f = false ∧ ∀ c ∈ (g.callsitesOf f).getD [], c.2 ∈ closed := by
  fun_induction run g goal s with
  | case1 fresh parents =>
    -- nothing is left on the stack, so all that was reached is done with
    exact ⟨parents.map Prod.fst, hs.grown.callee_mem, fun f hf => hs.done f hf (by simp)⟩
  | case2 fresh f stack parents hgoal => cases h
  | case3 fresh f stack parents hgoal ih => exact ih (hs.step (Bool.eq_false_iff.mpr hgoal)) h

/-- What has been reached can be reached by recorded calls. -/
theorem Grown.reaches (hg : ofTables t = .ok g) {parents : List (FunctionId × InstId)}
    (h : Grown g site callee parents) : ∀ f ∈ parents.map Prod.fst, g.Reaches callee f := by
  induction h with
  | start =>
    intro f hf
    obtain rfl : f = callee := by simpa using hf
    exact .refl
  | grow older caller call new ih =>
    intro f hf
    rcases List.mem_cons.mp hf with rfl | hf
    · exact (ih _ caller).tail ((calls_iff hg).mpr ⟨_, call⟩)
    · exact ih f hf

/-- A set that no call leaves holds all that can be reached from its functions. -/
theorem mem_of_reaches (hg : ofTables t = .ok g) {closed : List FunctionId}
    (hclosed : ∀ f ∈ closed, ∀ c ∈ (g.callsitesOf f).getD [], c.2 ∈ closed) {f h : FunctionId}
    (hf : f ∈ closed) (hreach : g.Reaches f h) : h ∈ closed := by
  -- along the calls, none of which leaves the set
  induction hreach with
  | refl => exact hf
  | tail _ hcall ih =>
    obtain ⟨i, hi⟩ := (calls_iff hg).mp hcall
    exact hclosed _ ih _ hi

/-- **A call trace is exact.** A search from the callee of a call for the keys of a map finds a key that can be
reached from the callee by zero or more recorded calls, and it finds nothing only if no key can be reached. -/
theorem run_exact {α : Type} (hg : ofTables t = .ok g) (site : InstId) (callee : FunctionId)
    (acquirers : List (FunctionId × α)) :
    (∀ found parents,
      (start g site callee).run g (fun f => (acquirers.lookup f).isSome) = some (found, parents) →
        found ∈ acquirers.map Prod.fst ∧ g.Reaches callee found) ∧
    ((start g site callee).run g (fun f => (acquirers.lookup f).isSome) = none →
      ∀ f ∈ acquirers.map Prod.fst, ¬ g.Reaches callee f) := by
  constructor
  · intro found parents hrun
    obtain ⟨hgrown, hfound⟩ := grown_of_run explores_start hrun
    exact ⟨isSome_lookup.mp (goal_of_run hrun), hgrown.reaches hg found hfound⟩
  · intro hrun f hf hreach
    obtain ⟨closed, hcallee, hclosed⟩ := closed_of_run explores_start hrun
    -- a key that could be reached would be in the closed set, which has no goal
    have hmem := mem_of_reaches hg (fun f hf => (hclosed f hf).2) hcallee hreach
    have hno := (hclosed f hmem).1
    rw [isSome_lookup.mpr hf] at hno
    cases hno

/-- `main` calls `ping`; `ping` calls itself and `pong`; `pong` calls `ping` and `drop`, which is only declared. -/
def ring : Tables where
  types := #[.void, .int 64]
  globals := #[]
  functions := #[⟨"main", [], .void, [⟨0⟩]⟩, ⟨"ping", [], .void, [⟨1⟩]⟩, ⟨"pong", [], .void, [⟨2⟩]⟩,
    ⟨"drop", [], .void, []⟩]
  blocks := #[⟨"s", ⟨0⟩, [⟨0⟩]⟩, ⟨"s", ⟨1⟩, [⟨1⟩, ⟨2⟩]⟩, ⟨"s", ⟨2⟩, [⟨3⟩, ⟨4⟩]⟩]
  insts := #[⟨.call (.direct ⟨1⟩) [], .void, ⟨0⟩, none⟩, ⟨.call (.direct ⟨1⟩) [], .void, ⟨1⟩, none⟩,
    ⟨.call (.direct ⟨2⟩) [], .void, ⟨1⟩, none⟩, ⟨.call (.direct ⟨1⟩) [], .void, ⟨2⟩, none⟩,
    ⟨.call (.direct ⟨3⟩) [], .void, ⟨2⟩, none⟩]

/-- From `ping` the search finds `drop`, on the way through `pong`, and never `main`. -/
theorem reaches_ring : ∃ g, ofTables ring = .ok g ∧ g.Reaches ⟨1⟩ ⟨3⟩ ∧ ¬ g.Reaches ⟨1⟩ ⟨0⟩ := by
  have hdrop := run_exact (t := ring) rfl ⟨0⟩ ⟨1⟩ [((⟨3⟩ : FunctionId), ())]
  have hmain := run_exact (t := ring) rfl ⟨0⟩ ⟨1⟩ [((⟨0⟩ : FunctionId), ())]
  refine ⟨_, rfl, ?_, ?_⟩
  · exact (hdrop.1 ⟨3⟩ [(⟨3⟩, ⟨4⟩), (⟨2⟩, ⟨2⟩), (⟨1⟩, ⟨0⟩)] (by decide +kernel)).2
  · exact hmain.2 (by decide +kernel) ⟨0⟩ (by decide)

end Search

end Relock.CallGraph
