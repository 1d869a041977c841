import Relock.Proofs.CallGraph
import Relock.Proofs.Closure
import Relock.Proofs.Detector.Pursuit

/-!
# Walks find what can be reached

A walk visits each block once and stops in a block at the first instruction that blocks. The proof goes
from the inside out: what one instruction means, then the instructions of one block, then the blocks.
The blocks form a worklist like any other, so what the walk enters is `Reached`; each of these blocks has
a route that passes nothing that blocks, and the other way round.

* `Walk.scan_congr`, `Walk.run_congr`: walks that judge alike go alike;
* `Pursuit.WellPosed`: the program and the locks that a walk can be asked about;
* `Pursuit.exists_visit`, `Pursuit.exists_scan`: one instruction, one block;
* `Pursuit.exists_run`: the blocks entered from the top;
* `Pursuit.exists_hits`: a walk meets exactly the hits that are reached, each once.
-/

namespace Relock

namespace Walk

/-! ## Walks that go alike -/

variable {w w' : Walk}

/-- Walks that pass over and judge the same instructions stop at the same one. -/
theorem scan_congr (hskip : ∀ i, w'.tables.isSkipped i = w.tables.isSkipped i)
    (hvisit : ∀ i, w'.visit i = w.visit i) (is : List InstId) : w'.scan is = w.scan is := by
  induction is with
  | nil => rfl
  | cons i is ih =>
    unfold scan
    rw [hskip, hvisit, ih]

/-- Walks that see and scan the same blocks go the same way, block by block. -/
theorem run_congr (hblock : ∀ b, w'.tables.block b = w.tables.block b)
    (hscan : ∀ is, w'.scan is = w.scan is) (hentered : ∀ b, w'.entered b = w.entered b)
    (fresh : List BlockId) (queue : List (BlockId × Nat)) : w'.run fresh queue = w.run fresh queue := by
  -- the recursion is on the blocks not entered yet, and both walks take the same one next
  induction fresh, queue using worklist_induct (f := fun e : BlockId × Nat => e.1) with
  | nil fresh => rw [run_nil, run_nil]
  | expand fresh e queue hb ih =>
    rw [run_enter hb, run_enter hb, hblock]
    refine bind_congr fun x => ?_
    rw [hscan]
    refine bind_congr fun verdict => ?_
    cases verdict with
    | passed =>
      rw [hentered]
      exact bind_congr fun next => ih _
    | released => exact ih queue
    | acquired hit => rw [ih queue]
  | skip fresh e queue hb ih =>
    rw [run_skip hb, run_skip hb]
    exact ih

end Walk

namespace Pursuit

/-- A question about a program with all indices in range and blocks that list their instructions. -/
structure WellPosed (q : Pursuit) : Prop where
  inRange : q.tables.InRange
  arranged : q.tables.Arranged
  graph : CallGraph.ofTables q.tables = .ok q.graph
  first : q.first.inst.index < q.tables.insts.size
  aliases : ∀ s ∈ q.aliases, s.inst.index < q.tables.insts.size
  distinct : (q.aliases.map LockSite.inst).Nodup

/-- The walk that is made to answer a question. -/
structure Matches (q : Pursuit) (w : Walk) : Prop where
  tables : w.tables = q.tables
  graph : w.graph = q.graph
  first : w.first = q.first
  aliases : w.aliases = q.aliases
  release : w.release = q.release
  here : q.scope = .here → w.acquirers = []
  everywhere : q.scope = .everywhere →
    ∀ f, w.acquirers.lookup f = if (q.seconds f).isEmpty then none else some (q.seconds f)

/-- What a verdict says about an instruction. -/
def Judged (q : Pursuit) (i : InstId) : Verdict → Prop
  | .passed => ¬ q.Blocks i
  | .released => q.Blocks i ∧ ¬ q.IsHit i
  | .acquired hit => hit.met = i ∧ q.IsHit i ∧ q.Tells hit

/-- What a verdict says about a list of instructions: either none of them blocks, or the verdict is about
the first one that does. -/
inductive Scanned (q : Pursuit) (is : List InstId) : Verdict → Prop where
  | passed (h : ∀ i ∈ is, ¬ q.Blocks i) : Scanned q is .passed
  | stopped {before after : List InstId} {i : InstId} {v : Verdict} (hsplit : is = before ++ i :: after)
      (hbefore : ∀ j ∈ before, ¬ q.Blocks j) (hblocks : q.Blocks i) (hv : q.Judged i v) : Scanned q is v

variable {q : Pursuit} {w : Walk}

/-! ## First instructions that block -/

/-- An instruction that does not block can be put in front. -/
theorem Scanned.cons {i : InstId} {is : List InstId} {v : Verdict} (hi : ¬ q.Blocks i)
    (h : q.Scanned is v) : q.Scanned (i :: is) v := by
  -- nothing in the longer list blocks if nothing in the shorter one does
  have hcons {l : List InstId} (hl : ∀ j ∈ l, ¬ q.Blocks j) : ∀ j ∈ i :: l, ¬ q.Blocks j := by
    intro j hj
    rcases List.mem_cons.mp hj with rfl | hj
    · exact hi
    · exact hl j hj
  cases h with
  | passed h => exact .passed (hcons h)
  | stopped hsplit hbefore hblocks hv => exact .stopped (congrArg _ hsplit) (hcons hbefore) hblocks hv

/-- A list that is passed has nothing in it that blocks. -/
theorem scanned_passed {is : List InstId} (h : q.Scanned is .passed) : ∀ i ∈ is, ¬ q.Blocks i := by
  cases h with
  | passed h => exact h
  | stopped _ _ hblocks hv => exact absurd hblocks hv

/-- A list has one first instruction that blocks. -/
theorem first_blocks_unique {before before' after after' : List InstId} {i i' : InstId}
    (h : before ++ i :: after = before' ++ i' :: after') (hbefore : ∀ j ∈ before, ¬ q.Blocks j)
    (hbefore' : ∀ j ∈ before', ¬ q.Blocks j) (hi : q.Blocks i) (hi' : q.Blocks i') : i = i' := by
  -- where one list ends before the other one, its blocking instruction stands among those that do not
  induction before generalizing before' with
  | nil =>
    cases before' with
    | nil => exact (List.cons.inj h).1
    | cons j before' =>
      obtain rfl := (List.cons.inj h).1
      exact absurd hi (hbefore' _ (List.mem_cons_self ..))
  | cons j before ih =>
    cases before' with
    | nil =>
      obtain rfl := (List.cons.inj h).1
      exact absurd hi' (hbefore _ (List.mem_cons_self ..))
    | cons j' before' =>
      exact ih (List.cons.inj h).2 (fun k hk => hbefore k (List.mem_cons_of_mem _ hk))
        fun k hk => hbefore' k (List.mem_cons_of_mem _ hk)

/-- The blocks that a walk goes on to from the top of a block. -/
def goesOn (w : Walk) (b : BlockId) : Except Fault (List BlockId) := do
  match ← w.scan (← w.tables.block b).insts with
  | .passed => w.entered b
  | _ => return []

/-- A walk meets `hit` when it goes through a block from the top. -/
def MetIn (w : Walk) (b : BlockId) (hit : Hit) : Prop :=
  ∃ x, w.tables.block b = .ok x ∧ w.scan x.insts = .ok (.acquired hit)

/-- What is met from a block on is met in the block or from the blocks that it goes on to. -/
theorem met_expand {fresh work more : List BlockId} {b : BlockId} (hb : b ∈ fresh)
    (hgoes : goesOn w b = .ok more) (hit : Hit) :
    (∃ c, Reached (goesOn w) fresh (b :: work) c ∧ MetIn w c hit) ↔
      MetIn w b hit ∨ ∃ c, Reached (goesOn w) (fresh.erase b) (more ++ work) c ∧ MetIn w c hit := by
  simp only [reached_expand hb hgoes, or_and_right, exists_or, exists_eq_left]

/-! ## Where a walk starts -/

/-- Where a walk starts: the block of the first lock, and what stands behind the lock there. -/
structure StartsAt (q : Pursuit) (home : BlockId) (after : List InstId) : Prop where
  liesIn : q.tables.LiesIn q.first.inst home
  behind : ∃ x before, q.tables.block home = .ok x ∧ x.insts = before ++ q.first.inst :: after

/-- The first lock stands in a block, with something or nothing behind it. -/
theorem exists_startsAt (hq : q.WellPosed) : ∃ home after, q.StartsAt home after := by
  obtain ⟨y, -, hy⟩ : ∃ y ∈ q.tables.insts, q.tables.inst q.first.inst = .ok y := exists_lookUp hq.first
  obtain ⟨x, hx, hin⟩ := hq.arranged.exists_block hy
  obtain ⟨before, after, hsplit⟩ := List.append_of_mem hin
  exact ⟨y.block, after, ⟨y, hy, rfl⟩, x, before, hx, hsplit⟩

section Start

variable {home : BlockId} {after : List InstId} (hstart : q.StartsAt home after)

include hstart

/-- An instruction stands in one block. -/
theorem StartsAt.home_unique {b : BlockId} (hb : q.tables.LiesIn q.first.inst b) : b = home := by
  obtain ⟨x, hx, rfl⟩ := hb
  obtain ⟨y, hy, rfl⟩ := hstart.liesIn
  rw [hx] at hy
  cases hy
  rfl

/-- The blocks left after the first one are those that a route may enter. -/
theorem StartsAt.mem_erase {c : BlockId} : c ∈ q.tables.blockIds.erase home ↔
    (∃ x, q.tables.block c = .ok x) ∧ ¬ q.tables.LiesIn q.first.inst c := by
  rw [q.tables.blockIds_nodup.mem_erase_iff, Tables.mem_blockIds]
  constructor
  · rintro ⟨hne, hlt⟩
    obtain ⟨x, -, hx⟩ : ∃ x ∈ q.tables.blocks, q.tables.block c = .ok x := exists_lookUp hlt
    exact ⟨⟨x, hx⟩, fun hlies => hne (hstart.home_unique hlies)⟩
  · rintro ⟨⟨x, hx⟩, hnot⟩
    refine ⟨?_, Tables.lt_of_block hx⟩
    rintro rfl
    exact hnot hstart.liesIn

variable (hq : q.WellPosed)

include hq

/-- What stands behind the lock are instructions of the program. -/
theorem StartsAt.lt_of_mem_after : ∀ i ∈ after, i.index < q.tables.insts.size := by
  obtain ⟨x, before, hx, hsplit⟩ := hstart.behind
  exact fun i hi => hq.inRange.listed hx i (by simp [hsplit, hi])

/-- An instruction is listed once, so there is one place behind it. -/
theorem StartsAt.after_unique {x : Block} {before' after' : List InstId}
    (hx : q.tables.block home = .ok x) (hsplit' : x.insts = before' ++ q.first.inst :: after') :
    after' = after := by
  obtain ⟨x', before, hx', hsplit⟩ := hstart.behind
  rw [hx] at hx'
  cases hx'
  have hnodup := hq.arranged.insts_nodup hx
  rw [hsplit, List.nodup_append, List.nodup_cons] at hnodup
  have hbefore : q.first.inst ∉ before := fun hin => hnodup.2.2 _ hin _ (List.mem_cons_self ..) rfl
  rw [hsplit] at hsplit'
  -- the lock stands neither before nor behind itself, so both ways to split the block agree
  exact ((List.append_cons_inj_of_notMem hbefore hnodup.2.1.1).mp hsplit').2.2.symm

/-- The walk starts at the place behind the lock. -/
theorem StartsAt.drop_position {x : Block} (hx : q.tables.block home = .ok x) :
    x.insts.drop (((x.insts.findIdx? (· == q.first.inst)).map (· + 1)).getD 0) = after := by
  obtain ⟨x', before, hx', hsplit⟩ := hstart.behind
  rw [hx] at hx'
  cases hx'
  have hnodup := hq.arranged.insts_nodup hx
  rw [hsplit, List.nodup_append] at hnodup
  have hbefore : before.findIdx? (· == q.first.inst) = none := by
    rw [List.findIdx?_eq_none_iff]
    intro i hi
    rw [beq_eq_false_iff_ne]
    rintro rfl
    exact hnodup.2.2 _ hi _ (List.mem_cons_self ..) rfl
  rw [hsplit, List.findIdx?_append, hbefore, List.findIdx?_cons]
  simp

end Start

/-! ## One instruction -/

/-- A call that is no lock and no release blocks only by what can be found through it. -/
theorem not_blocks_of_call {i : InstId} (halias : q.NotAliased i) (hrelease : i ∉ q.release)
    (hsearch : q.scope = .everywhere → ∀ callee, q.tables.calledFunction i = .ok (some callee) →
      q.search i callee = none) : ¬ q.Blocks i := by
  rintro (hit | ⟨-, hin, -⟩)
  · -- it is no lock of the alias set, and the search from its callee finds nothing
    cases hit with
    | direct _ hs hi => exact halias _ hs hi
    | call _ hscope _ _ hcallee hfound =>
      rw [hsearch hscope _ hcallee] at hfound
      cases hfound
  · exact hrelease hin

/-- Phis and debug markers never end a walk. -/
theorem not_blocks_of_skipped {i : InstId} (h : q.tables.isSkipped i = .ok true) : ¬ q.Blocks i := by
  have hactive : ¬ q.Active i := by
    intro hactive
    rw [Active, h] at hactive
    cases hactive
  rintro ((⟨hact, -⟩ | ⟨hact, -⟩) | ⟨hact, -⟩) <;> exact hactive hact

section Acquirers

variable (hm : q.Matches w) (hscope : q.scope = .everywhere)

include hm hscope

/-- A function is in the table of acquirers if it has a second lock. -/
theorem isSome_lookup_acquirers (f : FunctionId) :
    (w.acquirers.lookup f).isSome = !(q.seconds f).isEmpty := by
  rw [hm.everywhere hscope f]
  cases (q.seconds f).isEmpty <;> rfl

/-- The walk searches for the functions that have second locks. -/
theorem run_eq_search (i : InstId) (callee : FunctionId) : (CallGraph.Search.start w.graph i callee).run w.graph
    (fun f => (w.acquirers.lookup f).isSome) = q.search i callee := by
  -- both goals are the same function, not only equal where the search looks
  have hgoal : (fun f => (w.acquirers.lookup f).isSome) = fun f => !(q.seconds f).isEmpty :=
    funext (isSome_lookup_acquirers hm hscope)
  rw [hgoal, hm.graph]
  rfl

/-- The table gives the second locks of the function that was found. -/
theorem lookup_acquirers_of_search {i : InstId} {callee found : FunctionId}
    {parents : List (FunctionId × InstId)} (h : q.search i callee = some (found, parents)) :
    (w.acquirers.lookup found).getD [] = q.seconds found := by
  have hsome : (q.seconds found).isEmpty = false := by
    simpa using CallGraph.Search.goal_of_run h
  rw [hm.everywhere hscope found, hsome]
  rfl

/-- With no acquirers at all, nothing can be found. -/
theorem search_eq_none (hempty : w.acquirers = []) (i : InstId) (callee : FunctionId) :
    q.search i callee = none := by
  rw [← run_eq_search hm hscope, hempty]
  cases hrun : (CallGraph.Search.start w.graph i callee).run w.graph
      (fun f => (([] : List (FunctionId × List LockSite)).lookup f).isSome) with
  | none => rfl
  | some r => cases CallGraph.Search.goal_of_run hrun

end Acquirers

section Walk

variable (hq : q.WellPosed)

include hq

/-- The backtrace from what a search found succeeds. -/
theorem exists_chain {i : InstId} (hi : i.index < q.tables.insts.size) {callee found : FunctionId}
    {parents : List (FunctionId × InstId)} (h : q.search i callee = some (found, parents))
    (root : FunctionId) : ∃ chain, CallGraph.Search.chain q.tables parents root found = .ok chain ∧
      ∀ j ∈ chain, j.index < q.tables.insts.size := by
  refine CallGraph.Search.exists_chain hq.inRange (fun f calls hf c hc => ?_) hi h root
  obtain ⟨hfun, -⟩ := (CallGraph.mem_callsitesOf hq.arranged hq.graph hf).mp hc
  exact Tables.lt_of_functionOf hfun

/-- The call graph knows the callee of every instruction. -/
theorem calleeAt_eq {i : InstId} {f : FunctionId} {callee : Option FunctionId}
    (hf : q.tables.functionOf i = .ok f) (hcallee : q.tables.calledFunction i = .ok callee) :
    q.graph.calleeAt f i = callee := by
  apply Option.ext
  intro c
  rw [CallGraph.calleeAt_eq_some hq.arranged hq.graph, hcallee]
  simp [hf]

variable (hm : q.Matches w)

include hm

/-- A call is judged: it is a hit if a search from its callee finds a function that acquires one of the locks, and
is passed otherwise. -/
theorem exists_visitCall {i : InstId} (hi : i.index < q.tables.insts.size) (hactive : q.Active i)
    (halias : q.NotAliased i) (hrelease : i ∉ q.release) :
    ∃ v, w.visitCall i = .ok v ∧ q.Judged i v := by
  unfold Walk.visitCall
  by_cases hempty : w.acquirers = []
  · -- either calls are not searched, or there is nothing to search for
    rw [if_pos (by simp [hempty])]
    refine ⟨.passed, rfl, not_blocks_of_call halias hrelease fun hscope callee _ => ?_⟩
    exact search_eq_none hm hscope hempty i callee
  · have hscope : q.scope = .everywhere := by
      cases hs : q.scope with
      | here => exact absurd (hm.here hs) hempty
      | everywhere => rfl
    obtain ⟨f, hf, -⟩ := hq.inRange.exists_functionOf hi
    obtain ⟨k, hk⟩ := Tables.InRange.exists_kindOf hi
    have hcalled : q.tables.calledFunction i = .ok k.callee? := Tables.calledFunction_eq_ok.mpr ⟨k, hk, rfl⟩
    rw [if_neg (by simpa using hempty), hm.tables, hf, ok_bind, hm.graph, calleeAt_eq hq hf hcalled]
    cases hkc : k.callee? with
    | none =>
      -- no function is called by name
      refine ⟨.passed, rfl, not_blocks_of_call halias hrelease fun _ callee hc => ?_⟩
      rw [hcalled, hkc] at hc
      cases hc
    | some callee =>
      rw [hkc] at hcalled
      dsimp only
      rw [← hm.graph, run_eq_search hm hscope]
      cases hfound : q.search i callee with
      | none =>
        refine ⟨.passed, rfl, not_blocks_of_call halias hrelease fun _ callee' hc => ?_⟩
        rw [hcalled] at hc
        cases hc
        exact hfound
      | some r =>
        -- the search ends at a function with second locks, and these are reported
        obtain ⟨found, parents⟩ := r
        obtain ⟨root, hroot, -⟩ := hq.inRange.exists_functionOf hq.first
        obtain ⟨chain, hchain, -⟩ := exists_chain hq hi hfound root
        refine ⟨.acquired ⟨i, q.seconds found, chain⟩, ?_, rfl, ?_, ?_⟩
        · simp [hm.first, hroot, hchain, lookup_acquirers_of_search hm hscope hfound]
        · exact .call hactive hscope halias hrelease hcalled hfound
        · exact .call halias hcalled hfound hroot hchain

/-- **One instruction is judged right.** A lock of the alias set is looked for first, then a release, and then
what can be found through a call; the order decides when an instruction is more than one of these. -/
theorem exists_visit {i : InstId} (hi : i.index < q.tables.insts.size) (hactive : q.Active i) :
    ∃ v, w.visit i = .ok v ∧ q.Judged i v := by
  unfold Walk.visit
  rw [hm.aliases, hm.release, hm.first]
  cases hfind : q.aliases.find? fun second => second.inst == i with
  | some s =>
    have hs := List.mem_of_find?_eq_some hfind
    have hsi : s.inst = i := by simpa using List.find?_some hfind
    cases hnests : q.first.kind.nestsWith s.kind with
    | true =>
      -- locks that nest do not block; the walk passes them
      refine ⟨.passed, by simp [hnests], ?_⟩
      rintro (hit | ⟨-, -, halias⟩)
      · cases hit with
        | direct _ hs' hi' hblocks =>
          -- no other site of the group has this instruction
          obtain rfl := List.inj_on_of_nodup_map hq.distinct hs' hs (hi'.trans hsi.symm)
          rw [hnests] at hblocks
          cases hblocks
        | call _ _ halias => exact halias s hs hsi
      · exact halias s hs hsi
    | false =>
      refine ⟨.acquired ⟨i, [s], []⟩, by simp [hnests], rfl, .direct hactive hs hsi hnests, ?_⟩
      rw [← hsi]
      exact .direct hs hnests
  | none =>
    have halias : q.NotAliased i := by
      intro s hs hsi
      exact List.find?_eq_none.mp hfind s hs (by simpa using hsi)
    by_cases hrelease : i ∈ q.release
    · -- a release ends the walk here, and is no hit
      refine ⟨.released, by simp [hrelease], .release hactive hrelease halias, ?_⟩
      intro hit
      cases hit with
      | direct _ hs hsi => exact halias _ hs hsi
      | call _ _ _ hnot => exact hnot hrelease
    · obtain ⟨v, hv, hjudged⟩ := exists_visitCall hq hm hi hactive halias hrelease
      exact ⟨v, by simpa [hrelease] using hv, hjudged⟩

/-! ## One block -/

/-- **Step lemma**: one block is judged by the first instruction in it that blocks. -/
theorem exists_scan {is : List InstId} (hlt : ∀ i ∈ is, i.index < q.tables.insts.size) :
    ∃ v, w.scan is = .ok v ∧ q.Scanned is v := by
  induction is with
  | nil => exact ⟨.passed, rfl, .passed (by simp)⟩
  | cons i is ih =>
    have hi := hlt i (List.mem_cons_self ..)
    obtain ⟨v, hv, hscanned⟩ := ih fun j hj => hlt j (List.mem_cons_of_mem _ hj)
    obtain ⟨skipped, hskipped⟩ := Tables.InRange.exists_isSkipped hi
    unfold Walk.scan
    rw [hm.tables, hskipped, ok_bind]
    cases skipped with
    -- a phi or a debug marker is passed without a look at it
    | true => exact ⟨v, hv, hscanned.cons (not_blocks_of_skipped hskipped)⟩
    | false =>
      obtain ⟨verdict, hverdict, hjudged⟩ := exists_visit hq hm hi hskipped
      simp only [Bool.false_eq_true, if_false, hverdict, ok_bind]
      cases verdict with
      | passed => exact ⟨v, hv, hscanned.cons hjudged⟩
      | released =>
        -- the verdict on what follows is not asked for any more
        exact ⟨_, rfl, .stopped (List.nil_append _).symm (by simp) hjudged.1 hjudged⟩
      | acquired hit =>
        exact ⟨_, rfl, .stopped (List.nil_append _).symm (by simp) (.hit hjudged.2.1) hjudged⟩

/-- A list is passed if nothing in it blocks. -/
theorem scan_eq_passed {is : List InstId} (hlt : ∀ i ∈ is, i.index < q.tables.insts.size) :
    w.scan is = .ok .passed ↔ ∀ i ∈ is, ¬ q.Blocks i := by
  obtain ⟨v, hv, hscanned⟩ := exists_scan hq hm hlt
  rw [hv]
  constructor
  · intro h
    cases h
    exact scanned_passed hscanned
  · intro hpass
    cases hscanned with
    | passed => rfl
    | stopped hsplit _ hblocks => exact absurd hblocks (hpass _ (by simp [hsplit]))

/-- What is met is a hit, and nothing before it blocks. -/
theorem of_scan_acquired {is : List InstId} {hit : Hit} (hlt : ∀ i ∈ is, i.index < q.tables.insts.size)
    (h : w.scan is = .ok (.acquired hit)) :
    ∃ before after, is = before ++ hit.met :: after ∧ (∀ j ∈ before, ¬ q.Blocks j) ∧
      q.IsHit hit.met ∧ q.Tells hit := by
  obtain ⟨v, hv, hscanned⟩ := exists_scan hq hm hlt
  rw [h] at hv
  cases hv
  -- something was met, so the list was not passed
  cases hscanned with
  | stopped hsplit hbefore _ hv =>
    obtain ⟨rfl, hhit, htells⟩ := hv
    exact ⟨_, _, hsplit, hbefore, hhit, htells⟩

/-- A hit with nothing before it that blocks is met. -/
theorem exists_scan_acquired {before after : List InstId} {i : InstId}
    (hlt : ∀ j ∈ before ++ i :: after, j.index < q.tables.insts.size)
    (hbefore : ∀ j ∈ before, ¬ q.Blocks j) (hi : q.IsHit i) :
    ∃ hit, w.scan (before ++ i :: after) = .ok (.acquired hit) ∧ hit.met = i := by
  obtain ⟨v, hv, hscanned⟩ := exists_scan hq hm hlt
  cases hscanned with
  | passed h => exact absurd (.hit hi) (h i (by simp))
  | stopped hsplit hbefore' hblocks hjudged =>
    obtain rfl := first_blocks_unique hsplit hbefore hbefore' (.hit hi) hblocks
    cases v with
    | passed => exact absurd hblocks hjudged
    | released => exact absurd hi hjudged.2
    | acquired hit => exact ⟨hit, hv, hjudged.1⟩

/-! ## All blocks -/

/-- The walk enters the blocks that control flow goes on to. -/
theorem lists_entered {b : BlockId} (hb : b.index < q.tables.blocks.size) :
    Lists (w.entered b) (q.tables.GoesTo b) := by
  obtain ⟨cs, hcs, hlt⟩ := hq.inRange.exists_successors hb
  -- every successor is a block, so whether it is a landing pad can be told
  have hpad : ∀ c ∈ cs, ∃ r, (do return !(← q.tables.isLandingPadBlock c) : Except Fault Bool) = .ok r := by
    intro c hc
    obtain ⟨pad, hpad⟩ := hq.inRange.exists_isLandingPadBlock (hlt c hc)
    exact ⟨!pad, by simp [hpad]⟩
  unfold Walk.entered
  rw [hm.tables, hcs, ok_bind]
  refine (Lists.filterM hpad).congr fun c => ?_
  constructor
  · rintro ⟨hc, h⟩
    exact ⟨cs, hcs, hc, by simpa using h⟩
  · rintro ⟨cs', hcs', hc, h⟩
    rw [hcs] at hcs'
    cases hcs'
    exact ⟨hc, by simp [h]⟩

/-- The walk goes on to where control flow goes if nothing in the block blocks. -/
theorem lists_goesOn {b : BlockId} {x : Block} (hx : q.tables.block b = .ok x) :
    Lists (goesOn w b) fun c => (∀ i ∈ x.insts, ¬ q.Blocks i) ∧ q.tables.GoesTo b c := by
  have hlt := hq.inRange.listed hx
  unfold goesOn
  rw [hm.tables, hx, ok_bind]
  by_cases hpass : ∀ i ∈ x.insts, ¬ q.Blocks i
  · rw [(scan_eq_passed hq hm hlt).mpr hpass, ok_bind]
    exact (lists_entered hq hm (Tables.lt_of_block hx)).congr fun c => (and_iff_right hpass).symm
  · obtain ⟨v, hv, -⟩ := exists_scan hq hm hlt
    -- something in the block blocks, so the walk does not go on from it
    have hstops : v ≠ .passed := by
      rintro rfl
      exact hpass ((scan_eq_passed hq hm hlt).mp hv)
    rw [hv, ok_bind]
    have hnone : ∀ c, c ∈ [] ↔ (∀ i ∈ x.insts, ¬ q.Blocks i) ∧ q.tables.GoesTo b c := by simp [hpass]
    cases v with
    | passed => exact absurd rfl hstops
    | released => exact (Lists.ok []).congr hnone
    | acquired hit => exact (Lists.ok []).congr hnone

/-- Hits that are met in different blocks are different. -/
theorem block_of_metIn {b c : BlockId} {hit hit' : Hit} (hb : MetIn w b hit) (hc : MetIn w c hit')
    (h : hit.met = hit'.met) : b = c := by
  have hlisted {b : BlockId} {hit : Hit} (h : MetIn w b hit) :
      ∃ x, q.tables.block b = .ok x ∧ hit.met ∈ x.insts := by
    obtain ⟨x, hx, hscan⟩ := h
    rw [hm.tables] at hx
    obtain ⟨before, after, hsplit, -⟩ := of_scan_acquired hq hm (hq.inRange.listed hx) hscan
    exact ⟨x, hx, by simp [hsplit]⟩
  obtain ⟨x, hx, hin⟩ := hlisted hb
  obtain ⟨y, hy, hin'⟩ := hlisted hc
  exact hq.arranged.block_unique hx hy hin (h ▸ hin')

/-- **Run lemma**: the hits met from blocks that are entered from the top, each block once. -/
theorem exists_run {fresh : List BlockId} {queue : List (BlockId × Nat)}
    (hfresh : ∀ b ∈ fresh, b.index < q.tables.blocks.size) (hnodup : fresh.Nodup)
    (htop : ∀ e ∈ queue, e.2 = 0) :
    ∃ hits, w.run fresh queue = .ok hits ∧ (hits.map Hit.met).Nodup ∧
      ∀ hit, hit ∈ hits ↔ ∃ b, Reached (goesOn w) fresh (queue.map Prod.fst) b ∧ MetIn w b hit := by
  -- one block leaves `fresh` at a time: what is met from it on is what is met in it, and then what is
  -- met from the blocks that it goes on to
  induction fresh, queue using worklist_induct (f := fun e : BlockId × Nat => e.1) with
  | nil fresh =>
    refine ⟨[], Walk.run_nil, List.nodup_nil, fun hit => ⟨by simp, ?_⟩⟩
    rintro ⟨b, hreached, -⟩
    induction hreached with
    | start hwork => cases hwork
    | step _ _ _ _ ih => exact ih
  | expand fresh e queue hb ih =>
    obtain ⟨b, position⟩ := e
    obtain rfl : position = 0 := htop _ (List.mem_cons_self ..)
    have htop' : ∀ e ∈ queue, e.2 = 0 := fun e he => htop e (List.mem_cons_of_mem _ he)
    have hfresh' : ∀ c ∈ fresh.erase b, c.index < q.tables.blocks.size := fun c hc =>
      hfresh c (List.mem_of_mem_erase hc)
    obtain ⟨x, -, hx⟩ : ∃ x ∈ q.tables.blocks, q.tables.block b = .ok x := exists_lookUp (hfresh b hb)
    obtain ⟨v, hv, -⟩ := exists_scan hq hm (hq.inRange.listed hx)
    -- one scan of a block meets at most one hit
    have hmet (hit : Hit) : MetIn w b hit ↔ v = .acquired hit := by
      simp [MetIn, hm.tables, hx, hv]
    rw [Walk.run_enter hb, hm.tables, hx, ok_bind, List.drop_zero, hv, ok_bind, List.map_cons]
    cases v with
    | passed =>
      obtain ⟨next, hnext, -⟩ := lists_entered hq hm (hfresh b hb)
      have hgoes : goesOn w b = .ok next := by simp [goesOn, hm.tables, hx, hv, hnext]
      -- blocks are put into the queue with their first instruction as the place to start
      have hzero : ∀ e ∈ queue ++ next.map (·, 0), e.2 = 0 := by
        intro e he
        rcases List.mem_append.mp he with he | he
        · exact htop' e he
        · obtain ⟨c, -, rfl⟩ := List.mem_map.mp he
          rfl
      obtain ⟨hits, hrun, hdistinct, hmem⟩ := ih _ hfresh' (hnodup.erase b) hzero
      refine ⟨hits, by simpa [hnext] using hrun, hdistinct, fun hit => ?_⟩
      rw [hmem, met_expand hb hgoes, hmet]
      -- the queue has the new blocks behind the old ones, which makes no difference
      have hqueue : (queue ++ next.map (·, 0)).map Prod.fst = queue.map Prod.fst ++ next := by
        simp [List.map_map, Function.comp_def]
      simp only [hqueue, reached_append_comm, reduceCtorEq, false_or]
    | released =>
      have hgoes : goesOn w b = .ok [] := by simp [goesOn, hm.tables, hx, hv]
      obtain ⟨hits, hrun, hdistinct, hmem⟩ := ih queue hfresh' (hnodup.erase b) htop'
      refine ⟨hits, hrun, hdistinct, fun hit => ?_⟩
      rw [hmem, met_expand hb hgoes, hmet]
      simp only [reduceCtorEq, false_or, List.nil_append]
    | acquired found =>
      have hgoes : goesOn w b = .ok [] := by simp [goesOn, hm.tables, hx, hv]
      obtain ⟨hits, hrun, hdistinct, hmem⟩ := ih queue hfresh' (hnodup.erase b) htop'
      refine ⟨found :: hits, by simp [hrun], ?_, fun hit => ?_⟩
      · rw [List.map_cons, List.nodup_cons]
        refine ⟨fun hin => ?_, hdistinct⟩
        -- a block that is entered later is still fresh, and `b` is not
        obtain ⟨hit, hhit, heq⟩ := List.mem_map.mp hin
        obtain ⟨c, hc, hmetc⟩ := (hmem hit).mp hhit
        obtain rfl := block_of_metIn hq hm hmetc ((hmet found).mpr rfl) heq
        exact hnodup.not_mem_erase hc.mem_fresh
      · rw [List.mem_cons, hmem, met_expand hb hgoes, hmet, List.nil_append]
        simp only [Verdict.acquired.injEq, eq_comm]
  | skip fresh e queue hb ih =>
    obtain ⟨hits, hrun, hdistinct, hmem⟩ := ih hfresh hnodup fun c hc => htop c (List.mem_cons_of_mem _ hc)
    refine ⟨hits, (Walk.run_skip hb _ _).trans hrun, hdistinct, fun hit => ?_⟩
    rw [hmem, List.map_cons]
    simp only [reached_skip hb]

/-! ## Routes -/

section Started

variable {home : BlockId} {after : List InstId} (hstart : q.StartsAt home after)

include hstart

/-- A block that the walk enters from the top has a route to it that passes nothing that blocks. -/
theorem route_of_reached {next : List BlockId} (hnext : w.entered home = .ok next)
    (hafter : ∀ i ∈ after, ¬ q.Blocks i) {c : BlockId}
    (h : Reached (goesOn w) (q.tables.blockIds.erase home) next c) :
    ∃ passed x, q.tables.block c = .ok x ∧
      Route q.tables q.first.inst (fun c => ¬ q.tables.LiesIn q.first.inst c) passed c x.insts ∧
        ∀ j ∈ passed, ¬ q.Blocks j := by
  -- each step of the worklist enters one more block, and adds the block before it to what was passed
  induction h with
  | @start c hwork hfresh =>
    obtain ⟨⟨x, hx⟩, hnot⟩ := hstart.mem_erase.mp hfresh
    obtain ⟨y, before, hy, hsplit⟩ := hstart.behind
    have hgoes := ((lists_entered hq hm (Tables.lt_of_block hy)).mem_iff hnext).mp hwork
    exact ⟨[] ++ after, x, hx, .enter (.start hstart.liesIn hy hsplit) hgoes hnot hx, hafter⟩
  | @step c d more hc hmore hd hfresh ih =>
    obtain ⟨passed, x, hx, hroute, hpassed⟩ := ih
    obtain ⟨⟨y, hy⟩, hnot⟩ := hstart.mem_erase.mp hfresh
    obtain ⟨hpass, hgoes⟩ := ((lists_goesOn hq hm hx).mem_iff hmore).mp hd
    refine ⟨passed ++ x.insts, y, hy, .enter hroute hgoes hnot hy, fun j hj => ?_⟩
    rcases List.mem_append.mp hj with hj | hj
    · exact hpassed j hj
    · exact hpass j hj

/-- A route that passes nothing that blocks has not left the place behind the first lock, or leads to a
block that the walk enters. -/
theorem reached_of_route {next : List BlockId} (hnext : w.entered home = .ok next)
    {passed ahead : List InstId} {c : BlockId}
    (h : Route q.tables q.first.inst (fun c => ¬ q.tables.LiesIn q.first.inst c) passed c ahead)
    (hpassed : ∀ j ∈ passed, ¬ q.Blocks j) :
    (c = home ∧ ahead = after) ∨ (∀ i ∈ after, ¬ q.Blocks i) ∧
      Reached (goesOn w) (q.tables.blockIds.erase home) next c ∧
        ∃ x, q.tables.block c = .ok x ∧ ahead = x.insts := by
  -- along the route; the blocks it enters are fresh, since it does not come back to the first one
  induction h with
  | @start b x before after' hfirst hx hsplit =>
    obtain rfl := hstart.home_unique hfirst
    exact .inl ⟨rfl, hstart.after_unique hq hx hsplit⟩
  | @enter passed ahead b c x hroute hgoes hallowed hx ih =>
    have hfresh := hstart.mem_erase.mpr ⟨⟨x, hx⟩, hallowed⟩
    have hahead : ∀ i ∈ ahead, ¬ q.Blocks i := fun i hi => hpassed i (List.mem_append_right _ hi)
    rcases ih fun j hj => hpassed j (List.mem_append_left _ hj) with ⟨rfl, rfl⟩ | ⟨hafter, hb, y, hy, rfl⟩
    · -- the route leaves the block of the first lock, of which it has passed what stands behind the lock
      obtain ⟨y, before, hy, -⟩ := hstart.behind
      have hin := ((lists_entered hq hm (Tables.lt_of_block hy)).mem_iff hnext).mpr hgoes
      exact .inr ⟨hahead, .start hin hfresh, x, hx, rfl⟩
    · obtain ⟨more, hmore, hmem⟩ := lists_goesOn hq hm hy
      exact .inr ⟨hafter, .step hb hmore ((hmem c).mpr ⟨hahead, hgoes⟩) hfresh, x, hx, rfl⟩

/-! ## All hits -/

/-- A walk looks behind the first lock, and goes on from there if nothing blocks. -/
theorem StartsAt.hits_eq {next : List BlockId} (hnext : w.entered home = .ok next) : w.hits = do
    match ← w.scan after with
    | .passed => w.run (q.tables.blockIds.erase home) (next.map (·, 0))
    | .released => return []
    | .acquired hit => return [hit] := by
  obtain ⟨x, before, hx, -⟩ := hstart.behind
  obtain ⟨y, hy, hhome⟩ := hstart.liesIn
  have hin : home ∈ q.tables.blockIds := Tables.mem_blockIds.mpr (Tables.lt_of_block hx)
  unfold Walk.hits
  simp only [hm.tables, hm.first, hy, hx, hhome, ok_bind]
  -- the first block is the only one that is not entered from the top, so its round is made by hand
  rw [Walk.run_enter hin, hm.tables, hx, ok_bind, hstart.drop_position hq hx]
  simp only [hnext, ok_bind, List.nil_append, Walk.run_nil]
  rfl

/-- A walk meets `hit` behind the first lock, or in a block that it enters later. -/
def Met (q : Pursuit) (w : Walk) (home : BlockId) (after : List InstId) (next : List BlockId) (hit : Hit) :
    Prop :=
  w.scan after = .ok (.acquired hit) ∨ (∀ i ∈ after, ¬ q.Blocks i) ∧
    ∃ c, Reached (goesOn w) (q.tables.blockIds.erase home) next c ∧ MetIn w c hit

/-- All hits of a walk: the one behind the first lock, or those in the blocks that are entered later. -/
theorem StartsAt.exists_hits : ∃ next hits, w.entered home = .ok next ∧ w.hits = .ok hits ∧
    (hits.map Hit.met).Nodup ∧ ∀ hit, hit ∈ hits ↔ q.Met w home after next hit := by
  obtain ⟨x, before, hx, -⟩ := hstart.behind
  obtain ⟨next, hnext, -⟩ := lists_entered hq hm (Tables.lt_of_block hx)
  obtain ⟨v, hv, -⟩ := exists_scan hq hm (hstart.lt_of_mem_after hq)
  -- only if what stands behind the lock is passed does the walk enter other blocks
  have hpassed : (∀ i ∈ after, ¬ q.Blocks i) ↔ v = .passed := by
    rw [← scan_eq_passed hq hm (hstart.lt_of_mem_after hq), hv, Except.ok.injEq]
  simp only [Met, hstart.hits_eq hq hm hnext, hpassed, hv, hnext, ok_bind]
  cases v with
  | passed =>
    have hfresh : ∀ b ∈ q.tables.blockIds.erase home, b.index < q.tables.blocks.size :=
      fun b hb => Tables.mem_blockIds.mp (List.mem_of_mem_erase hb)
    have htop : ∀ e ∈ next.map (fun c => (c, 0)), e.2 = 0 := by simp
    obtain ⟨hits, hrun, hdistinct, hmem⟩ :=
      exists_run hq hm hfresh (q.tables.blockIds_nodup.erase home) htop
    have hblocks : (next.map fun c => (c, 0)).map Prod.fst = next := by
      simp [List.map_map, Function.comp_def]
    exact ⟨next, hits, rfl, hrun, hdistinct, fun hit => by simp [hmem, hblocks]⟩
  | released => exact ⟨next, [], rfl, rfl, List.nodup_nil, by simp⟩
  | acquired hit => exact ⟨next, [hit], rfl, rfl, List.nodup_singleton _, by simp [eq_comm]⟩

variable {next : List BlockId} (hnext : w.entered home = .ok next)

include hnext

/-- **A walk is sound**: control flow comes to every hit that it meets, with nothing before it that blocks. -/
theorem StartsAt.reaches_of_met {hit : Hit} (h : q.Met w home after next hit) :
    q.IsHit hit.met ∧ q.Reaches hit.met ∧ q.Tells hit := by
  rcases h with hscan | ⟨hafter, c, hc, x, hx, hscan⟩
  · obtain ⟨before, rest, rfl, hbefore, hhit, htells⟩ :=
      of_scan_acquired hq hm (hstart.lt_of_mem_after hq) hscan
    obtain ⟨x, _, hx, hsplit⟩ := hstart.behind
    exact ⟨hhit, ⟨[], home, before, rest, .start hstart.liesIn hx hsplit, hbefore⟩, htells⟩
  · rw [hm.tables] at hx
    obtain ⟨before, rest, hsplit, hbefore, hhit, htells⟩ :=
      of_scan_acquired hq hm (hq.inRange.listed hx) hscan
    -- the route to the block, and what stands in the block before the hit
    obtain ⟨passed, x', hx', hroute, hpassed⟩ := route_of_reached hq hm hstart hnext hafter hc
    rw [hx] at hx'
    cases hx'
    rw [hsplit] at hroute
    refine ⟨hhit, ⟨passed, c, before, rest, hroute, fun j hj => ?_⟩, htells⟩
    exact (List.mem_append.mp hj).elim (hpassed j) (hbefore j)

/-- **A walk is complete**: it meets every hit that control flow comes to with nothing before it that blocks. -/
theorem StartsAt.exists_met {i : InstId} (hhit : q.IsHit i) (hreaches : q.Reaches i) :
    ∃ hit, hit.met = i ∧ q.Met w home after next hit := by
  obtain ⟨passed, c, before, rest, hroute, hclear⟩ := hreaches
  have hpassed : ∀ j ∈ passed, ¬ q.Blocks j := fun j hj => hclear j (List.mem_append_left _ hj)
  have hbefore : ∀ j ∈ before, ¬ q.Blocks j := fun j hj => hclear j (List.mem_append_right _ hj)
  -- the route ends behind the first lock, or in a block that the walk enters
  rcases reached_of_route hq hm hstart hnext hroute hpassed with ⟨-, rfl⟩ | ⟨hafter, hc, x, hx, hsplit⟩
  · obtain ⟨hit, hscan, hmet⟩ := exists_scan_acquired hq hm (hstart.lt_of_mem_after hq) hbefore hhit
    exact ⟨hit, hmet, .inl hscan⟩
  · have hlt := hq.inRange.listed hx
    rw [← hsplit] at hlt
    obtain ⟨hit, hscan, hmet⟩ := exists_scan_acquired hq hm hlt hbefore hhit
    rw [hsplit] at hscan
    exact ⟨hit, hmet, .inr ⟨hafter, c, hc, x, by rw [hm.tables, hx], hscan⟩⟩

end Started

/-- **A walk meets exactly the hits that are reached, each once.** Routes are unbounded and may go round loops;
the visited set of the walk loses none of the hits on them. -/
theorem exists_hits : ∃ hits, w.hits = .ok hits ∧ (hits.map Hit.met).Nodup ∧
    (∀ i, i ∈ hits.map Hit.met ↔ q.IsHit i ∧ q.Reaches i) ∧ ∀ hit ∈ hits, q.Tells hit := by
  obtain ⟨home, after, hstart⟩ := exists_startsAt hq
  obtain ⟨next, hits, hnext, hhits, hdistinct, hmem⟩ := hstart.exists_hits hq hm
  have hsound : ∀ hit ∈ hits, q.IsHit hit.met ∧ q.Reaches hit.met ∧ q.Tells hit := fun hit hin =>
    hstart.reaches_of_met hq hm hnext ((hmem hit).mp hin)
  refine ⟨hits, hhits, hdistinct, fun i => ?_, fun hit hin => (hsound hit hin).2.2⟩
  rw [List.mem_map]
  constructor
  · rintro ⟨hit, hin, rfl⟩
    exact ⟨(hsound hit hin).1, (hsound hit hin).2.1⟩
  · rintro ⟨hhit, hreaches⟩
    obtain ⟨hit, hmet, hmeets⟩ := hstart.exists_met hq hm hnext hhit hreaches
    exact ⟨hit, (hmem hit).mpr hmeets, hmet⟩

end Walk

end Pursuit

end Relock
