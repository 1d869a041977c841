import Relock.Proofs.CallGraph.Search
import Relock.Proofs.Program.Extension

/-!
# Call graphs of programs that grow

New functions may call old ones, but a body keeps its calls. So the index of the larger graph has the
same entries for the old functions, and a search that starts at an old function only ever comes to old
functions. It makes the same steps, although there are more functions that it has not reached.

* `Tables.ExtendsTo.exists_callSites`: the new calls come last, and lie in new functions;
* `CallGraph.callsitesOf_of_extendsTo`: old functions keep their calls;
* `CallGraph.Search.run_congr`: graphs that agree on a closed part are searched alike from there;
* `CallGraph.Search.persists_chain`: the call chain that is reported persists.
-/

namespace Relock

/-! ## Calls -/

namespace Tables

namespace ExtendsTo

variable {t t' : Tables} (h : t.ExtendsTo t')

include h

/-- Instructions that are kept make the calls that they made. -/
theorem callSitesAmong (caller : FunctionId) (is : List InstId) :
    Persists (t.callSitesAmong caller is) (t'.callSitesAmong caller is) := by
  induction is with
  | nil => exact .refl _
  | cons i is ih =>
    refine (h.calledFunction i).bind fun callee _ => ?_
    cases callee with
    | none => exact ih
    | some callee => exact ih.bind_pure _

theorem callSitesOf (f : FunctionId) : Persists (t.callSitesOf f) (t'.callSitesOf f) :=
  (h.instsOf f).bind fun is _ => h.callSitesAmong f is

/-- The direct calls of the larger program are the old ones and then those in new functions. -/
theorem exists_callSites (ht' : t'.Arranged) {sites : List CallSite} (hsites : t.callSites = .ok sites) :
    ∃ more, t'.callSites = .ok (sites ++ more) ∧ ∀ c ∈ more, t.functions.size ≤ c.caller.index := by
  obtain ⟨parts, hparts, hsites⟩ := bind_eq_ok.mp hsites
  cases hsites
  obtain ⟨all, hall, -⟩ := lists_callSites ht'
  obtain ⟨newBodies, hbodies, hnew⟩ := h.exists_bodies
  -- the traversal of all bodies is one of the old bodies and one of the new ones
  obtain ⟨parts', hparts', -⟩ := bind_eq_ok.mp hall
  rw [hbodies, List.mapM_append] at hparts'
  obtain ⟨_, hold, hparts'⟩ := bind_eq_ok.mp hparts'
  obtain ⟨news, hnews, -⟩ := bind_eq_ok.mp hparts'
  -- the old bodies have the calls that they had
  have holds : t.bodies.mapM t'.callSitesOf = .ok parts :=
    Persists.mapM (fun f _ => h.callSitesOf f) parts hparts
  refine ⟨news.flatten, ?_, forall_mem_flatten_of_mapM hnews fun f hf sites hsites c hc => ?_⟩
  · unfold callSites
    rw [hbodies, List.mapM_append, holds, ok_bind, hnews, ok_bind, ← List.flatten_append]
    rfl
  · obtain ⟨is, -, hsites⟩ := bind_eq_ok.mp hsites
    rw [caller_of_callSitesAmong hsites c hc]
    exact hnew f hf

end ExtendsTo

end Tables

/-! ## The index -/

namespace CallGraph

/-- Calls of other functions do not change the entry of a function. -/
theorem lookup_indexOf_append {sites more : List CallSite} {f : FunctionId} (hmore : ∀ c ∈ more, c.caller ≠ f) :
    (indexOf (sites ++ more)).lookup f = (indexOf sites).lookup f := by
  have hlookup (sites : List CallSite) : (indexOf sites).lookup f =
      ((groupBy (fun f g => decide (f.index < g.index))
        (sites.map fun s => (s.caller, (s.inst, s.callee)))).lookup f).map
          (sortBy fun a b => decide (a.1.index < b.1.index)) :=
    lookup_map_snd _ _ f
  -- the new calls have other callers, so none is in the group of `f`
  have hnone : (more.map fun s => (s.caller, (s.inst, s.callee))).filter (fun e => e.1 == f) = [] := by
    refine List.filter_eq_nil_iff.mpr fun e he hkey => ?_
    obtain ⟨c, hc, rfl⟩ := List.mem_map.mp he
    exact hmore c hc (beq_iff_eq.mp hkey)
  rw [hlookup, hlookup, lookup_groupBy strictTotal_functionId, lookup_groupBy strictTotal_functionId,
    List.map_append, List.filter_append, hnone, List.append_nil]

variable {t t' : Tables} {g g' : CallGraph}

/-- Old functions keep their calls. -/
theorem callsitesOf_of_extendsTo (h : t.ExtendsTo t') (ht' : t'.Arranged) (hg : ofTables t = .ok g)
    (hg' : ofTables t' = .ok g') {f : FunctionId} (hf : f.index < t.functions.size) :
    g'.callsitesOf f = g.callsitesOf f := by
  obtain ⟨sites, hsites, hg⟩ := bind_eq_ok.mp hg
  obtain ⟨sites', hsites', hg'⟩ := bind_eq_ok.mp hg'
  cases hg
  cases hg'
  obtain ⟨more, hmore, hnew⟩ := h.exists_callSites ht' hsites
  rw [hsites'] at hmore
  cases hmore
  refine lookup_indexOf_append fun c hc hcaller => ?_
  have hge := hnew c hc
  rw [hcaller] at hge
  omega

/-! ## Searching -/

namespace Search

variable {site : InstId} {callee : FunctionId} {s s' : Search}

/-- Two searches that have reached the same functions put the same ones on the stack next. -/
theorem enter_congr (hs : Consistent g site callee s) (hs' : Consistent g' site callee s')
    (hstack : s'.stack = s.stack) (hparents : s'.parents = s.parents) {f : FunctionId} (hf : f ∈ s.reached)
    {calls : List (InstId × FunctionId)} (hcalls : ∀ c ∈ calls, c ∈ (g.callsitesOf f).getD [])
    (hcalls' : ∀ c ∈ calls, c ∈ (g'.callsitesOf f).getD []) :
    (s'.enter calls).stack = (s.enter calls).stack ∧ (s'.enter calls).parents = (s.enter calls).parents := by
  have hreached : s'.reached = s.reached := congrArg (List.map Prod.fst) hparents
  fun_induction enter s calls generalizing s' with
  | case1 => exact ⟨hstack, hparents⟩
  | case2 s i h calls hfresh ih =>
    have hcall := hcalls _ (List.mem_cons_self ..)
    have hcall' := hcalls' _ (List.mem_cons_self ..)
    -- both graphs record the call, so the callee is fresh in both if it has not been reached
    have hfresh' : h ∈ s'.fresh :=
      (hs'.fresh h).mpr ⟨mem_calledFunctions hcall', hreached ▸ ((hs.fresh h).mp hfresh).2⟩
    rw [enter, if_pos hfresh']
    refine ih (hs.push hf hcall hfresh) (hs'.push (hreached ▸ hf) hcall' hfresh') ?_ ?_
      (List.mem_cons_of_mem _ hf) (fun c hc => hcalls c (List.mem_cons_of_mem _ hc))
      (fun c hc => hcalls' c (List.mem_cons_of_mem _ hc)) ?_
    · exact congrArg (h :: ·) hstack
    · exact congrArg ((h, i) :: ·) hparents
    · exact congrArg (h :: ·) hreached
  | case3 s i h calls hfresh ih =>
    have hold := hs.reached_of_not_fresh (hcalls _ (List.mem_cons_self ..)) hfresh
    have hfresh' : h ∉ s'.fresh := by
      intro hin
      exact ((hs'.fresh h).mp hin).2 (hreached ▸ hold)
    rw [enter, if_neg hfresh']
    exact ih hs hs' hstack hparents hf (fun c hc => hcalls c (List.mem_cons_of_mem _ hc))
      (fun c hc => hcalls' c (List.mem_cons_of_mem _ hc)) hreached

/-- **Run lemma**: graphs that agree on functions that no call leaves are searched alike from such a function. -/
theorem run_congr {goal : FunctionId → Bool} {P : FunctionId → Prop}
    (hsame : ∀ f, P f → g'.callsitesOf f = g.callsitesOf f)
    (hclosed : ∀ f, P f → ∀ c ∈ (g.callsitesOf f).getD [], P c.2) (hs : Consistent g site callee s)
    (hs' : Consistent g' site callee s') (hstack : s'.stack = s.stack) (hparents : s'.parents = s.parents)
    (hP : ∀ f ∈ s.stack, P f) : s'.run g' goal = s.run g goal := by
  fun_induction run g goal s generalizing s' with
  | case1 fresh parents =>
    obtain ⟨fresh', stack', parents'⟩ := s'
    cases hstack
    rw [run]
  | case2 fresh f stack parents hgoal =>
    obtain ⟨fresh', stack', parents'⟩ := s'
    cases hstack
    cases hparents
    rw [run, if_pos hgoal]
  | case3 fresh f stack parents hgoal ih =>
    obtain ⟨fresh', stack', parents'⟩ := s'
    cases hstack
    cases hparents
    have hPf := hP f (List.mem_cons_self ..)
    have hf : f ∈ parents.map Prod.fst := hs.stack f (List.mem_cons_self ..)
    -- both graphs give the same calls for `f`, since `f` is in the closed part
    have hin' : ∀ c ∈ (g.callsitesOf f).getD [], c ∈ (g'.callsitesOf f).getD [] := by
      rw [hsame f hPf]
      exact fun c hc => hc
    obtain ⟨hstack, hparents⟩ := enter_congr hs.pop hs'.pop rfl rfl hf (fun c hc => hc) hin'
    rw [run, if_neg hgoal, hsame f hPf]
    refine ih (hs.pop.enter hf fun c hc => hc) (hs'.pop.enter hf hin') hstack hparents fun x hx => ?_
    rcases (hs.pop.mem_stack_enter hf fun c hc => hc).mp hx with hx | ⟨hx, -⟩
    · exact hP x (List.mem_cons_of_mem _ hx)
    · obtain ⟨c, hc, rfl⟩ := List.mem_map.mp hx
      exact hclosed f hPf c hc

/-- The backtrace looks up the functions of old call sites only. -/
theorem persists_chainFrom (h : t.ExtendsTo t') (parents : List (FunctionId × InstId)) (root : FunctionId)
    (unseen : List FunctionId) (f : FunctionId) (later : List InstId) :
    Persists (chainFrom t parents root unseen f later) (chainFrom t' parents root unseen f later) := by
  fun_induction chainFrom t parents root unseen f later with
  | case1 unseen f later hnone =>
    rw [chainFrom, hnone]
    exact .refl _
  | case2 unseen f later site hsite hunseen ih =>
    rw [chainFrom, hsite]
    simp only [if_pos hunseen]
    exact (h.functionOf site).bind fun caller _ => .ite (fun _ => .refl _) fun _ => ih caller
  | case3 unseen f later site hsite hseen =>
    rw [chainFrom, hsite]
    simp only [if_neg hseen]
    exact .refl _

/-- **The call chain that is reported persists.** -/
theorem persists_chain (h : t.ExtendsTo t') (parents : List (FunctionId × InstId)) (root found : FunctionId) :
    Persists (chain t parents root found) (chain t' parents root found) :=
  persists_chainFrom h parents root _ found []

end Search

end CallGraph

end Relock
