import Relock.CallGraph.Basic

/-!
# Searching a call graph

The call trace of the detector: a depth-first search from the callee of one call site for a function of
interest. Functions are marked as visited when they are pushed on the worklist, which is a stack, and the call
site through which each one was reached first is remembered as its parent. The backtrace reads the call chain to
the function found off these parents.

* `Search.enter`: the call sites of one function;
* `Search.run`: the function found, with the parent call sites;
* `Search.chain`: the backtrace to it.
-/

namespace Relock.CallGraph

/-- The state of a search. -/
structure Search where
  /-- The functions that have not been reached. -/
  fresh : List FunctionId
  /-- The functions reached and not looked at yet. -/
  stack : List FunctionId
  /-- The call through which each function was reached first. -/
  parents : List (FunctionId × InstId)
deriving DecidableEq, Repr

namespace Search

/-- All functions that are called. -/
def calledFunctions (g : CallGraph) : List FunctionId :=
  (g.index.flatMap fun entry => entry.2.map Prod.snd).eraseDups

/-- The search from the callee of a call. -/
def start (g : CallGraph) (site : InstId) (callee : FunctionId) : Search :=
  ⟨(calledFunctions g).erase callee, [callee], [(callee, site)]⟩

/-- Put the callees that have not been reached on the stack. -/
def enter (s : Search) : List (InstId × FunctionId) → Search
  | [] => s
  | (site, callee) :: calls =>
    if callee ∈ s.fresh then
      enter ⟨s.fresh.erase callee, callee :: s.stack, (callee, site) :: s.parents⟩ calls
    else s.enter calls

/-- How many functions a search can still look at. -/
def remaining (s : Search) : Nat := s.fresh.length + s.stack.length

/-- Each callee that is put on the stack leaves `fresh`, so `enter` moves functions and loses none. -/
theorem remaining_enter (s : Search) (calls : List (InstId × FunctionId)) :
    (s.enter calls).remaining = s.remaining := by
  fun_induction enter s calls with
  | case1 => rfl
  | case2 s site callee calls h ih =>
    -- the callee moves from `fresh` to the stack
    have := List.length_pos_of_mem h
    rw [ih]
    simp only [remaining, List.length_cons, List.length_erase_of_mem h]
    omega
  | case3 s site callee calls h ih => exact ih

/-- Look at the functions on the stack, the last one put there first, and at those reached from them, until one is
a goal. The result is the goal with the parent call sites at that point. -/
def run (g : CallGraph) (goal : FunctionId → Bool) (s : Search) :
    Option (FunctionId × List (FunctionId × InstId)) :=
  match s with
  | ⟨_, [], _⟩ => none
  | ⟨fresh, f :: stack, parents⟩ =>
    -- the goal is tested when a function is popped, not when it is pushed
    if goal f then some (f, parents)
    else run g goal ((Search.mk fresh stack parents).enter ((g.callsitesOf f).getD []))
termination_by s.remaining
decreasing_by
  rw [remaining_enter]
  simp [remaining]

/-- The backtrace: the calls that lead to `f`, outermost first, put in front of `later`. It goes back along the
parent call sites and ends at the function `root`, at a function without a parent, or where it meets a function
for the second time, that is, one that is no longer in `unseen`. -/
def chainFrom (t : Tables) (parents : List (FunctionId × InstId)) (root : FunctionId)
    (unseen : List FunctionId) (f : FunctionId) (later : List InstId) : Except Fault (List InstId) :=
  match parents.lookup f with
  | none => .ok later
  | some site =>
    if f ∈ unseen then do
      let caller ← t.functionOf site
      -- the call just passed lies in `root`, so it is the outermost one of the chain
      if caller == root then return site :: later
      chainFrom t parents root (unseen.erase f) caller (site :: later)
    else .ok (site :: later)
termination_by unseen.length
decreasing_by
  have h : f ∈ unseen := by assumption
  have := List.length_pos_of_mem h
  rw [List.length_erase_of_mem h]
  omega

/-- The calls that lead from the function `root` to the function found, as a report names them. -/
def chain (t : Tables) (parents : List (FunctionId × InstId)) (root found : FunctionId) :
    Except Fault (List InstId) :=
  chainFrom t parents root (parents.map Prod.fst) found []

end Search

end Relock.CallGraph
