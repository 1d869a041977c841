import Relock.Proofs.CallGraph.Search

/-!
# The call chain to the function that a search found

The parent call sites that a search remembers form a tree, so each function reached has one call trace, from
the call that the search was started for. The backtrace reads it off from the other end: it goes back from the
function found, and stops at the first call that lies in the function `root` where the search began. What is
reported is therefore the end of the trace, from the last call in `root` on; a function that the trace comes
through a second time can only be `root` itself.

* `Tables.CallChain`: calls that follow each other;
* `Search.way`: the call trace to a function, by its parent call sites;
* `Search.Grown.way_spec`: what kind of calls they are;
* `Search.Grown.chain_eq_last_part`: which of them are reported;
* `Search.Grown.genuine_chain`: the calls reported lead from `root` to the function found, and come through
  no function twice;
* `Search.Grown.head_chain_iff`: when they start with the call that the search was started for.
-/

namespace Relock

/-! ## Calls that follow each other -/

/-- Calls that lead from one function to another one: each lies in the function that the one before
calls by name. -/
inductive Tables.CallChain (t : Tables) : FunctionId → List InstId → FunctionId → Prop
  | nil (f : FunctionId) : CallChain t f [] f
  | cons {f h found : FunctionId} {i : InstId} {calls : List InstId} (inside : t.functionOf i = .ok f)
      (callee : t.calledFunction i = .ok (some h)) (rest : CallChain t h calls found) :
      CallChain t f (i :: calls) found

namespace Tables.CallChain

variable {t : Tables} {f h found : FunctionId} {calls : List InstId}

theorem concat (hchain : t.CallChain f calls h) {i : InstId} (hin : t.functionOf i = .ok h)
    (hcallee : t.calledFunction i = .ok (some found)) : t.CallChain f (calls ++ [i]) found := by
  induction hchain with
  | nil f => exact .cons hin hcallee (.nil _)
  | cons inside callee rest ih => exact .cons inside callee (ih hin)

/-- The end of a chain is a chain from the function that its first call lies in. -/
theorem of_append {before after : List InstId} {c : InstId}
    (hchain : t.CallChain f (before ++ c :: after) found) (hc : t.functionOf c = .ok h) :
    t.CallChain h (c :: after) found := by
  induction before generalizing f with
  | nil =>
    -- the calls before `c` are left out one by one; what remains starts in the function of `c`
    cases hchain with
    | cons inside callee rest => exact .cons hc callee rest
  | cons b before ih =>
    cases hchain with
    | cons inside callee rest => exact ih rest

end Tables.CallChain

/-- A chain of calls as a report ought to have it: it starts in `root`, ends at `found`, and comes through
no function twice. -/
structure Tables.GenuineChain (t : Tables) (root : FunctionId) (chain : List InstId) (found : FunctionId) :
    Prop where
  nonempty : chain ≠ []
  calls : t.CallChain root chain found
  distinct : chain.Pairwise fun i j => t.functionOf i ≠ t.functionOf j

namespace CallGraph.Search

variable {t : Tables} {g : CallGraph} {site : InstId} {callee : FunctionId}
  {parents : List (FunctionId × InstId)}

/-! ## The call trace to a function -/

/-- The call trace to a function, by the parent call sites remembered, the newest one first: the trace to its
caller, as it was when the function was reached, and the call. -/
def way (t : Tables) : List (FunctionId × InstId) → FunctionId → List InstId
  | [], _ => []
  | (h, i) :: older, f =>
    if f = h then ((t.functionOf i).toOption.map (way t older)).getD [] ++ [i] else way t older f

/-- The newest call is the last one in the trace to its callee. -/
theorem way_cons_self {h f : FunctionId} {i : InstId} (hi : t.functionOf i = .ok f)
    (older : List (FunctionId × InstId)) : way t ((h, i) :: older) h = way t older f ++ [i] := by
  simp [way, hi, Except.toOption]

/-- The trace to any other function is older. -/
theorem way_cons_of_ne {h f : FunctionId} (hne : f ≠ h) (i : InstId)
    (older : List (FunctionId × InstId)) : way t ((h, i) :: older) f = way t older f := by
  simp [way, hne]

/-- A function is reached once. -/
theorem Grown.nodup (h : Grown g site callee parents) : (parents.map Prod.fst).Nodup := by
  induction h with
  | start => simp
  | grow older caller call new ih => exact List.nodup_cons.mpr ⟨new, ih⟩

variable (ht : t.Arranged) (hg : ofTables t = .ok g)

include ht hg

/-- The call trace to a function starts with the call of the search. The calls behind it follow
each other, are other calls, and lie in functions that were reached before: distinct ones, and none of
them the function itself. -/
theorem Grown.way_spec (h : Grown g site callee parents) {root : FunctionId}
    (hsite : t.functionOf site = .ok root) (hcallee : t.calledFunction site = .ok (some callee)) :
    ∀ f ∈ parents.map Prod.fst, ∃ rest, way t parents f = site :: rest ∧ t.CallChain callee rest f ∧
      (∀ j ∈ rest, j ≠ site ∧ ∃ k ∈ parents.map Prod.fst, t.functionOf j = .ok k ∧ k ≠ f) ∧
        rest.Pairwise fun i j => t.functionOf i ≠ t.functionOf j := by
  induction h with
  | start =>
    intro f hf
    obtain rfl : f = callee := by simpa using hf
    exact ⟨[], way_cons_self hsite [], .nil _, by simp, .nil⟩
  | @grow parents f h i older caller call new ih =>
    intro x hx
    obtain ⟨hin, hcalled⟩ := of_mem_callsitesOf ht hg call
    by_cases hxh : x = h
    · -- the function just reached: the way to its caller, and one more call
      subst hxh
      obtain ⟨rest, hway, hchain, hrest, hdistinct⟩ := ih f caller
      refine ⟨rest ++ [i], ?_, hchain.concat hin hcalled, fun j hj => ?_, ?_⟩
      · rw [way_cons_self hin, hway, List.cons_append]
      · rcases List.mem_append.mp hj with hj | hj
        · obtain ⟨hne, k, hk, hjk, -⟩ := hrest j hj
          refine ⟨hne, k, List.mem_cons_of_mem _ hk, hjk, ?_⟩
          rintro rfl
          exact new hk
        · obtain rfl := List.mem_singleton.mp hj
          refine ⟨?_, f, List.mem_cons_of_mem _ caller, hin, ?_⟩
          · -- the call of the search leads to a function that was reached before
            rintro rfl
            rw [hcallee] at hcalled
            cases hcalled
            exact new older.callee_mem
          · rintro rfl
            exact new caller
      · rw [List.pairwise_append]
        refine ⟨hdistinct, List.pairwise_singleton _ _, fun j hj k hk => ?_⟩
        obtain rfl := List.mem_singleton.mp hk
        obtain ⟨-, k, -, hjk, hne⟩ := hrest j hj
        rw [hjk, hin]
        intro heq
        exact hne (Except.ok.inj heq)
    · have hold : x ∈ parents.map Prod.fst := (List.mem_cons.mp hx).resolve_left hxh
      obtain ⟨rest, hway, hchain, hrest, hdistinct⟩ := ih x hold
      refine ⟨rest, by rw [way_cons_of_ne hxh, hway], hchain, fun j hj => ?_, hdistinct⟩
      obtain ⟨hne, k, hk, h⟩ := hrest j hj
      exact ⟨hne, k, List.mem_cons_of_mem _ hk, h⟩

/-! ## The part of it that is reported -/

/-- **The backtrace, call by call**: going back from a function, the parent calls are put in front of `later` up
to the last one that lies in `root`. -/
theorem Grown.chainFrom_eq (h : Grown g site callee parents) {root : FunctionId}
    (hsite : t.functionOf site = .ok root) {all : List (FunctionId × InstId)}
    (hall : ∀ e ∈ parents, all.lookup e.1 = some e.2) : ∀ f ∈ parents.map Prod.fst, ∀ unseen later,
      (∀ k ∈ parents.map Prod.fst, k ∈ unseen) →
        ∃ before c after, way t parents f = before ++ c :: after ∧ t.functionOf c = .ok root ∧
          (∀ j ∈ after, t.functionOf j ≠ .ok root) ∧
            chainFrom t all root unseen f later = .ok (c :: after ++ later) := by
  -- the backtrace only meets functions reached before, so it never finds one that it has seen
  induction h with
  | start =>
    intro f hf unseen later hunseen
    obtain rfl : f = callee := by simpa using hf
    refine ⟨[], site, [], way_cons_self hsite [], hsite, by simp, ?_⟩
    rw [chainFrom, hall _ (List.mem_singleton_self _)]
    simp [hunseen f (by simp), hsite]
  | @grow parents f h i older caller call new ih =>
    intro x hx unseen later hunseen
    have hall' := fun e he => hall e (List.mem_cons_of_mem _ he)
    have hunseen' := fun k hk => hunseen k (List.mem_cons_of_mem _ hk)
    obtain ⟨hin, -⟩ := of_mem_callsitesOf ht hg call
    by_cases hxh : x = h
    · subst hxh
      -- one step back: the call is put in front, and the trace stops if its function is `root`
      have hback : chainFrom t all root unseen x later = if f = root then .ok (i :: later) else
          chainFrom t all root (unseen.erase x) f (i :: later) := by
        rw [chainFrom, hall _ (List.mem_cons_self ..)]
        simp only [hunseen x (List.mem_cons_self ..), if_true, hin, ok_bind, beq_iff_eq]
        rfl
      by_cases hroot : f = root
      · refine ⟨way t parents f, i, [], way_cons_self hin _, hroot ▸ hin, by simp, ?_⟩
        rw [hback, if_pos hroot]
        rfl
      · -- the functions reached earlier are other ones, so they are still unseen
        have herase : ∀ k ∈ parents.map Prod.fst, k ∈ unseen.erase x := by
          intro k hk
          have hne : k ≠ x := by
            rintro rfl
            exact new hk
          exact (List.mem_erase_of_ne hne).mpr (hunseen' k hk)
        obtain ⟨before, c, after, hway, hc, hafter, hchain⟩ := ih hall' f caller _ (i :: later) herase
        refine ⟨before, c, after ++ [i], ?_, hc, fun j hj => ?_, ?_⟩
        · rw [way_cons_self hin, hway, List.append_assoc, List.cons_append]
        · rcases List.mem_append.mp hj with hj | hj
          · exact hafter j hj
          · obtain rfl := List.mem_singleton.mp hj
            rw [hin]
            intro heq
            exact hroot (Except.ok.inj heq)
        · rw [hback, if_neg hroot, hchain]
          simp
    · have hold : x ∈ parents.map Prod.fst := (List.mem_cons.mp hx).resolve_left hxh
      rw [way_cons_of_ne hxh]
      exact ih hall' x hold unseen later hunseen'

/-- **What is reported is the call trace from its last call in `root` on.** -/
theorem Grown.chain_eq_last_part (h : Grown g site callee parents) {root found : FunctionId}
    (hsite : t.functionOf site = .ok root) (hfound : found ∈ parents.map Prod.fst) :
    ∃ before c after, way t parents found = before ++ c :: after ∧ t.functionOf c = .ok root ∧
      (∀ j ∈ after, t.functionOf j ≠ .ok root) ∧ chain t parents root found = .ok (c :: after) := by
  have hall : ∀ e ∈ parents, parents.lookup e.1 = some e.2 := fun e he => lookup_of_mem h.nodup he
  obtain ⟨before, c, after, hway, hc, hafter, hchain⟩ :=
    h.chainFrom_eq ht hg hsite hall found hfound _ [] fun k hk => hk
  exact ⟨before, c, after, hway, hc, hafter, by rw [chain, hchain, List.append_nil]⟩

/-- **The calls reported lead from `root` to the function found and come through no function twice.** -/
theorem Grown.genuine_chain (h : Grown g site callee parents) {root found : FunctionId}
    (hsite : t.functionOf site = .ok root) (hcallee : t.calledFunction site = .ok (some callee))
    (hfound : found ∈ parents.map Prod.fst) :
    ∃ calls, chain t parents root found = .ok calls ∧ t.GenuineChain root calls found := by
  obtain ⟨before, c, after, hway, hc, hafter, hchain⟩ := h.chain_eq_last_part ht hg hsite hfound
  obtain ⟨rest, hrest, hcalls, -, hdistinct⟩ := h.way_spec ht hg hsite hcallee found hfound
  rw [hrest] at hway
  have hwhole : t.CallChain root (before ++ c :: after) found := hway ▸ .cons hsite hcallee hcalls
  -- what follows `c` is behind the call of the search, where no function comes twice
  have hsub : after.Sublist rest := by
    cases before with
    | nil =>
      obtain ⟨-, rfl⟩ := List.cons.inj hway
      exact List.Sublist.refl _
    | cons b before =>
      obtain ⟨-, rfl⟩ := List.cons.inj hway
      exact (List.sublist_cons_self c after).trans (List.sublist_append_right ..)
  refine ⟨c :: after, hchain, by simp, hwhole.of_append hc, List.pairwise_cons.mpr ⟨fun j hj => ?_, ?_⟩⟩
  · rw [hc]
    exact (hafter j hj).symm
  · exact hdistinct.sublist hsub

/-- The call of the search is reported exactly if no other call of the trace lies in `root`. -/
theorem Grown.head_chain_iff (h : Grown g site callee parents) {root found : FunctionId}
    (hsite : t.functionOf site = .ok root) (hcallee : t.calledFunction site = .ok (some callee))
    (hfound : found ∈ parents.map Prod.fst) {calls : List InstId}
    (hcalls : chain t parents root found = .ok calls) :
    calls.head? = some site ↔ ∀ j ∈ (way t parents found).tail, t.functionOf j ≠ .ok root := by
  obtain ⟨before, c, after, hway, hc, hafter, hchain⟩ := h.chain_eq_last_part ht hg hsite hfound
  obtain ⟨rest, hrest, -, hother, -⟩ := h.way_spec ht hg hsite hcallee found hfound
  rw [hcalls] at hchain
  cases hchain
  rw [hrest] at hway
  rw [hrest, List.tail_cons, List.head?_cons, Option.some.injEq]
  cases before with
  | nil =>
    obtain ⟨rfl, rfl⟩ := List.cons.inj hway
    exact ⟨fun _ => hafter, fun _ => rfl⟩
  | cons b before =>
    obtain ⟨rfl, rfl⟩ := List.cons.inj hway
    -- the call reported first is one of those behind the call of the search
    have hmem : c ∈ before ++ c :: after := by simp
    exact ⟨fun heq => absurd heq (hother c hmem).1, fun hnone => absurd hc (hnone c hmem)⟩

end CallGraph.Search

end Relock
