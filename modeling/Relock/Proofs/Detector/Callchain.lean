import Relock.Proofs.CallGraph.Chain
import Relock.Proofs.Description.Ownership
import Relock.Proofs.Detector.Check

/-!
# The calls that a report names

A walk never leaves the function of the first lock, so a call that it meets lies in that function. The
search for a second lock starts there, and the calls of the report lead from that function to the one
found. They need not start with the call that the walk met: where the call trace comes through the function
of the first lock again, the report starts with the last call in it.

* `Route.inside`: routes stay in one function;
* `Pursuit.grown_of_search`: what a search from a call that was met remembers;
* `Detector.callchain_genuine`: the calls of a report follow each other and come through no function twice;
* `Detector.callchain_last_part`: which part of the call trace they are.
-/

namespace Relock

/-! ## Routes stay in one function -/

/-- The instructions of a block lie in its function. -/
theorem Tables.Arranged.functionOf_mem {t : Tables} (ht : t.Arranged) {b : BlockId} {x : Block}
    (hx : t.block b = .ok x) {i : InstId} (hi : i ∈ x.insts) : t.functionOf i = .ok x.func := by
  obtain ⟨y, hy, rfl⟩ := (ht.mem_insts hx).mp hi
  exact functionOf_eq_ok.mpr ⟨y, x, hy, hx, rfl⟩

/-- The blocks that control goes on to are those of the last instruction. -/
theorem Tables.exists_of_mem_successors {t : Tables} {b c : BlockId} {cs : List BlockId}
    (hcs : t.successors b = .ok cs) (hc : c ∈ cs) :
    ∃ x i k, t.block b = .ok x ∧ i ∈ x.insts ∧ t.kindOf i = .ok k ∧ c ∈ k.blocks := by
  obtain ⟨last, hlast, hcs⟩ := bind_eq_ok.mp hcs
  obtain ⟨x, hx, hlast⟩ := bind_eq_ok.mp hlast
  cases last with
  -- a block without a terminator has no successors
  | none =>
    cases hcs
    cases hc
  -- the terminator is the last instruction, and names the blocks
  | some i =>
    obtain ⟨k, hk, hcs⟩ := bind_eq_ok.mp hcs
    cases hcs
    refine ⟨x, i, k, hx, ?_, hk, ?_⟩
    · cases hget : x.insts.getLast? with
      | none =>
        rw [hget] at hlast
        cases hlast
      | some j =>
        rw [hget] at hlast
        obtain ⟨k', -, hlast⟩ := bind_eq_ok.mp hlast
        split at hlast
        · cases hlast
          exact List.mem_of_getLast? hget
        · cases hlast
    · cases k <;> simp_all [InstKind.blocks, InstKind.targets]

/-- What a route comes to lies in the function that it starts in. -/
theorem Route.inside {t : Tables} (ht : t.Arranged) (hself : t.SelfContained) {first : InstId}
    {root : FunctionId} (hroot : t.functionOf first = .ok root) {allowed : BlockId → Prop}
    {passed ahead : List InstId} {b : BlockId} (h : Route t first allowed passed b ahead) :
    (∃ x, t.block b = .ok x ∧ x.func = root) ∧ ∀ i ∈ ahead, t.functionOf i = .ok root := by
  induction h with
  | @start b x before after hfirst hx hsplit =>
    have hfunc : t.functionOf first = .ok x.func := ht.functionOf_mem hx (by simp [hsplit])
    rw [hroot] at hfunc
    obtain rfl := Except.ok.inj hfunc
    exact ⟨⟨x, hx, rfl⟩, fun i hi => ht.functionOf_mem hx (by simp [hsplit, hi])⟩
  | @enter passed ahead b c y h hgoes hallowed hy ih =>
    obtain ⟨⟨x, hx, rfl⟩, -⟩ := ih
    obtain ⟨cs, hcs, hc, -⟩ := hgoes
    -- control goes on where an instruction of the last block says, and that is in the same function
    obtain ⟨x', i, k, hx', hi, hk, hck⟩ := Tables.exists_of_mem_successors hcs hc
    obtain ⟨y', hy', hfunc⟩ := hself.blocks i _ k (ht.functionOf_mem hx' hi) hk c hck
    rw [hx] at hx'
    rw [hy] at hy'
    cases hx'
    cases hy'
    exact ⟨⟨y, hy, hfunc⟩, fun j hj => hfunc ▸ ht.functionOf_mem hy hj⟩

namespace Pursuit

variable {q : Pursuit} {root : FunctionId}

/-- What a pursuit reaches lies in the function of the first lock. -/
theorem Reaches.inside (ht : q.tables.Arranged) (hself : q.tables.SelfContained)
    (hroot : q.tables.functionOf q.first.inst = .ok root) {i : InstId} (h : q.Reaches i) :
    q.tables.functionOf i = .ok root := by
  obtain ⟨passed, b, before, after, hroute, -⟩ := h
  exact (hroute.inside ht hself hroot).2 i (by simp)

/-- A search remembers a tree of calls that the function found is in. -/
theorem grown_of_search {i : InstId} {callee found : FunctionId} {parents : List (FunctionId × InstId)}
    (h : q.search i callee = some (found, parents)) :
    CallGraph.Search.Grown q.graph i callee parents ∧ found ∈ parents.map Prod.fst :=
  CallGraph.Search.grown_of_run CallGraph.Search.explores_start h

/-- From a call that is reached, the backtrace leads from the function of the first lock to the one found. -/
theorem Reaches.genuine_chain (hq : q.WellPosed) (hself : q.tables.SelfContained)
    (hroot : q.tables.functionOf q.first.inst = .ok root) {i : InstId} (h : q.Reaches i)
    {callee found : FunctionId} {parents : List (FunctionId × InstId)}
    (hcallee : q.tables.calledFunction i = .ok (some callee))
    (hsearch : q.search i callee = some (found, parents)) :
    ∃ chain, CallGraph.Search.chain q.tables parents root found = .ok chain ∧
      q.tables.GenuineChain root chain found := by
  obtain ⟨hgrown, hfound⟩ := grown_of_search hsearch
  exact hgrown.genuine_chain hq.arranged hq.graph (h.inside hq.arranged hself hroot) hcallee hfound

/-- A hit at which no lock of the group is acquired is one through a call. -/
theorem Tells.through_call {hit : Hit} (h : q.Tells hit) (halias : q.NotAliased hit.met)
    (hroot : q.tables.functionOf q.first.inst = .ok root) :
    ∃ callee found parents, q.tables.calledFunction hit.met = .ok (some callee) ∧
      q.search hit.met callee = some (found, parents) ∧ hit.seconds = q.seconds found ∧
        CallGraph.Search.chain q.tables parents root found = .ok hit.callchain := by
  cases h with
  -- a hit on a lock of the alias set itself has no call in between
  | direct hs => exact absurd rfl (halias _ hs)
  | @call i callee found root' parents chain _ hcallee hsearch hroot' hchain =>
    rw [hroot] at hroot'
    cases hroot'
    exact ⟨callee, found, parents, hcallee, hsearch, rfl, hchain⟩

end Pursuit

namespace Detector

/-- Every call that is met after the first lock, and from whose callee a function with a second lock is
found, has a chain of calls to report: it starts in the function of the first lock, ends at the function
found, and comes through no function twice. The walk meets second locks through calls with such chains,
and these are what the reports are about. -/
theorem callchain_genuine {text : String} {p : Program} (hload : Program.load text = .ok p)
    (oracle : Oracle) (policy : Policy) (first : LockSite) {root : FunctionId}
    (hroot : p.functionOf first.inst = .ok root) {aliases : List LockSite}
    (haliases : ∀ s ∈ aliases, s.inst.index < p.insts.size)
    (hdistinct : (aliases.map LockSite.inst).Nodup) (release : List InstId) :
    ∃ d w hits, ofProgram p oracle policy = .ok d ∧ d.walk .everywhere first aliases release = .ok w ∧
      w.hits = .ok hits ∧
      (∀ i callee found parents, (d.pursuit .everywhere first aliases release).Reaches i →
        p.calledFunction i = .ok (some callee) →
        (d.pursuit .everywhere first aliases release).search i callee = some (found, parents) →
        ∃ chain, CallGraph.Search.chain p.toTables parents root found = .ok chain ∧
          p.GenuineChain root chain found) ∧
      (∀ hit ∈ hits, (∀ s ∈ aliases, s.inst ≠ hit.met) → ∃ callee found parents,
        p.calledFunction hit.met = .ok (some callee) ∧
        (d.pursuit .everywhere first aliases release).search hit.met callee = some (found, parents) ∧
        hit.seconds = (d.pursuit .everywhere first aliases release).seconds found ∧
        p.GenuineChain root hit.callchain found) ∧
      ∀ name, p.functionName first.inst = .ok name → policy.isSuppressed name = false →
        ∃ reports, d.check .everywhere first aliases release = .ok reports ∧
          List.Forall₂ (Told p.toTables first) hits reports := by
  obtain ⟨d, hd, hready, rfl, rfl, rfl⟩ := exists_ready hload oracle policy
  -- no instruction of a loaded program refers to another function
  have hself := Program.selfContained_of_load hload
  have hq := hready.wellPosed .everywhere (Tables.lt_of_functionOf hroot) haliases hdistinct release
  obtain ⟨w, hw, hm⟩ := exists_walk hq
  obtain ⟨hits, hhits, -, hmem, htells⟩ := Pursuit.exists_hits hq hm
  refine ⟨d, w, hits, hd, hw, hhits, fun i callee found parents hreach hcallee hsearch => ?_,
    fun hit hin halias => ?_, fun name hname hkept => ?_⟩
  · exact hreach.genuine_chain hq hself hroot hcallee hsearch
  · obtain ⟨callee, found, parents, hcallee, hsearch, hseconds, hchain⟩ :=
      (htells hit hin).through_call halias hroot
    -- a hit is where the walk came to
    have hreach := ((hmem hit.met).mp (List.mem_map_of_mem hin)).2
    obtain ⟨chain, hchain', hgenuine⟩ := hreach.genuine_chain hq hself hroot hcallee hsearch
    -- both are the backtrace of one search
    obtain rfl : chain = hit.callchain := Except.ok.inj (hchain'.symm.trans hchain)
    exact ⟨callee, found, parents, hcallee, hsearch, hseconds, hgenuine⟩
  · obtain ⟨w', hits', reports, hw', hhits', hcheck, htold, -⟩ := exists_check hq hname hkept
    rw [hw] at hw'
    cases hw'
    rw [hhits] at hhits'
    cases hhits'
    exact ⟨reports, hcheck, htold⟩

/-- A hit through a call reports the call trace to the function found, from its last call in the function of the
first lock on. So it starts with the call that was met exactly if no later call of the trace lies in that
function, and it does if that function is the one found or cannot be reached from the callee. -/
theorem callchain_last_part {text : String} {p : Program} (hload : Program.load text = .ok p)
    (oracle : Oracle) (policy : Policy) (first : LockSite) {name : String}
    (hname : p.functionName first.inst = .ok name) (hkept : policy.isSuppressed name = false)
    {aliases : List LockSite} (haliases : ∀ s ∈ aliases, s.inst.index < p.insts.size)
    (hdistinct : (aliases.map LockSite.inst).Nodup) (release : List InstId) :
    ∃ d root w hits reports, ofProgram p oracle policy = .ok d ∧ p.functionOf first.inst = .ok root ∧
      d.walk .everywhere first aliases release = .ok w ∧ w.hits = .ok hits ∧
      d.check .everywhere first aliases release = .ok reports ∧
      List.Forall₂ (Told p.toTables first) hits reports ∧
      ∀ hit ∈ hits, (∀ s ∈ aliases, s.inst ≠ hit.met) →
        ∃ callee found parents before way, p.calledFunction hit.met = .ok (some callee) ∧
          (d.pursuit .everywhere first aliases release).search hit.met callee = some (found, parents) ∧
          hit.seconds = (d.pursuit .everywhere first aliases release).seconds found ∧
          way = CallGraph.Search.way p.toTables parents found ∧
          p.CallChain root way found ∧ way.head? = some hit.met ∧ way = before ++ hit.callchain ∧
          (∃ c after, hit.callchain = c :: after ∧ p.functionOf c = .ok root ∧
            ∀ j ∈ after, p.functionOf j ≠ .ok root) ∧
          (hit.callchain.head? = some hit.met ↔ ∀ j ∈ way.tail, p.functionOf j ≠ .ok root) ∧
          ((d.graph.Reaches callee root → root = found) → hit.callchain.head? = some hit.met) := by
  obtain ⟨d, hd, hready, rfl, rfl, rfl⟩ := exists_ready hload oracle policy
  have hself := Program.selfContained_of_load hload
  obtain ⟨root, hroot, -⟩ := bind_eq_ok.mp hname
  have hq := hready.wellPosed .everywhere (Tables.lt_of_functionName hname) haliases hdistinct release
  obtain ⟨w, hits, reports, hw, hhits, hcheck, htold, -, hmem, htells⟩ := exists_check hq hname hkept
  refine ⟨d, root, w, hits, reports, hd, hroot, hw, hhits, hcheck, htold, fun hit hin halias => ?_⟩
  obtain ⟨callee, found, parents, hcallee, hsearch, hseconds, hchain⟩ :=
    (htells hit hin).through_call halias hroot
  obtain ⟨hgrown, hfound⟩ := Pursuit.grown_of_search hsearch
  have hmet : d.program.functionOf hit.met = .ok root :=
    ((hmem hit.met).mp (List.mem_map_of_mem hin)).2.inside hready.arranged hself hroot
  -- all calls from the one met to the function found
  obtain ⟨rest, hway, hcalls, hother, -⟩ :=
    hgrown.way_spec hready.arranged hready.graph hmet hcallee found hfound
  -- the backtrace stops at the last one of them in the function of the first lock
  obtain ⟨before, c, after, hsplit, hc, hafter, hlast⟩ :=
    hgrown.chain_eq_last_part hready.arranged hready.graph hmet hfound
  have hhead := hgrown.head_chain_iff hready.arranged hready.graph hmet hcallee hfound hchain
  have hparts : hit.callchain = c :: after := Except.ok.inj (hchain.symm.trans hlast)
  refine ⟨callee, found, parents, before, _, hcallee, hsearch, hseconds, rfl, ?_, ?_, ?_,
    ⟨c, after, hparts, hc, hafter⟩, hhead, fun hback => ?_⟩
  · rw [hway]
    exact .cons hmet hcallee hcalls
  · rw [hway, List.head?_cons]
  · rw [hsplit, hparts]
  · -- a later call in the function of the first lock would be a way back to it that ends elsewhere
    refine hhead.mpr fun j hj hjroot => ?_
    rw [hway, List.tail_cons] at hj
    obtain ⟨-, k, hk, hjk, hne⟩ := hother j hj
    rw [hjroot] at hjk
    obtain rfl := Except.ok.inj hjk
    exact hne (hback (hgrown.reaches hready.graph _ hk))

/-! ### A way that comes back -/

/-- After its lock, `f` calls `g`, which calls `f` again. The second lock is in `k`, and `f` comes to it through
`h`, which it calls before it locks. All of them are given one record, which holds the lock. -/
def calledAgain : String :=
  "[[[\"M\",[\"i64\"]]],[],[
    [\"f\",[\"*M\"],\"void\",[[\"s\",[
      \x7b\"op\":\"call\",\"callee\":\"h\",\"args\":[\"%0\"],\"loc\":[\"/src\",\"lib.rs\",1]\x7d,
      \x7b\"id\":\"x\",\"op\":\"field\",\"base\":\"%0\",\"indices\":[0,0],\"ty\":\"*i64\"\x7d,
      \x7b\"op\":\"call\",\"callee\":\"std::sync::mutex::Mutex<T>::lock\",\"args\":[\"x\"],\"ty\":\"*i64\",
        \"loc\":[\"/src\",\"lib.rs\",2]\x7d,
      \x7b\"op\":\"call\",\"callee\":\"g\",\"args\":[\"%0\"],\"loc\":[\"/src\",\"lib.rs\",3]\x7d]]]],
    [\"g\",[\"*M\"],\"void\",[[\"s\",[
      \x7b\"op\":\"call\",\"callee\":\"f\",\"args\":[\"%0\"],\"loc\":[\"/src\",\"lib.rs\",4]\x7d]]]],
    [\"h\",[\"*M\"],\"void\",[[\"s\",[
      \x7b\"op\":\"call\",\"callee\":\"k\",\"args\":[\"%0\"],\"loc\":[\"/src\",\"lib.rs\",5]\x7d]]]],
    [\"k\",[\"*M\"],\"void\",[[\"s\",[
      \x7b\"id\":\"x\",\"op\":\"field\",\"base\":\"%0\",\"indices\":[0,0],\"ty\":\"*i64\"\x7d,
      \x7b\"op\":\"call\",\"callee\":\"std::sync::mutex::Mutex<T>::lock\",\"args\":[\"x\"],
        \"loc\":[\"/src\",\"lib.rs\",6]\x7d]]]]]]"

/-- The tables of `calledAgain`. -/
def againTables : Tables where
  types := #[.void, .int 64, .record "M" [⟨1⟩], .pointer ⟨2⟩, .pointer ⟨1⟩]
  globals := #[]
  functions := #[⟨"f", [⟨3⟩], ⟨0⟩, [⟨0⟩]⟩, ⟨"g", [⟨3⟩], ⟨0⟩, [⟨1⟩]⟩, ⟨"h", [⟨3⟩], ⟨0⟩, [⟨2⟩]⟩,
    ⟨"k", [⟨3⟩], ⟨0⟩, [⟨3⟩]⟩, ⟨"std::sync::mutex::Mutex<T>::lock", [], ⟨4⟩, []⟩]
  blocks := #[⟨"s", ⟨0⟩, [⟨0⟩, ⟨1⟩, ⟨2⟩, ⟨3⟩]⟩, ⟨"s", ⟨1⟩, [⟨4⟩]⟩, ⟨"s", ⟨2⟩, [⟨5⟩]⟩,
    ⟨"s", ⟨3⟩, [⟨6⟩, ⟨7⟩]⟩]
  insts := #[⟨.call (.direct ⟨2⟩) [.arg ⟨0⟩ 0], ⟨0⟩, ⟨0⟩, some ⟨"/src", "lib.rs", 1⟩⟩,
    ⟨.fieldAddr (.arg ⟨0⟩ 0) [0, 0], ⟨4⟩, ⟨0⟩, none⟩,
    ⟨.call (.direct ⟨4⟩) [.inst ⟨1⟩], ⟨4⟩, ⟨0⟩, some ⟨"/src", "lib.rs", 2⟩⟩,
    ⟨.call (.direct ⟨1⟩) [.arg ⟨0⟩ 0], ⟨0⟩, ⟨0⟩, some ⟨"/src", "lib.rs", 3⟩⟩,
    ⟨.call (.direct ⟨0⟩) [.arg ⟨1⟩ 0], ⟨0⟩, ⟨1⟩, some ⟨"/src", "lib.rs", 4⟩⟩,
    ⟨.call (.direct ⟨3⟩) [.arg ⟨2⟩ 0], ⟨0⟩, ⟨2⟩, some ⟨"/src", "lib.rs", 5⟩⟩,
    ⟨.fieldAddr (.arg ⟨3⟩ 0) [0, 0], ⟨4⟩, ⟨3⟩, none⟩,
    ⟨.call (.direct ⟨4⟩) [.inst ⟨6⟩], ⟨4⟩, ⟨3⟩, some ⟨"/src", "lib.rs", 6⟩⟩]

/-- The lock in `f`. -/
def againFirst : LockSite := ⟨⟨2⟩, .inst ⟨1⟩, .inst ⟨2⟩, .stdMutexLock⟩

/-- The lock in `k`. -/
def againSecond : LockSite := ⟨⟨7⟩, .inst ⟨6⟩, .inst ⟨7⟩, .stdMutexLock⟩

/-- What the walk meets: at the call of `g`, the lock in `k`, through the calls of `h` and `k`. -/
def againHit : Hit := ⟨⟨3⟩, [againSecond], [⟨0⟩, ⟨5⟩]⟩

set_option maxRecDepth 4000 in
theorem exists_load_calledAgain : ∃ p, Program.load calledAgain = .ok p ∧ p.toTables = againTables :=
  Program.exists_load_of_chars rfl (by decide +kernel)

/-- The two locks are the lock sites of the program, and the guard of the first one is never dropped. -/
theorem sites_calledAgain {p : Program} (hp : p.toTables = againTables) :
    p.lockSites .all = .ok ⟨[againFirst, againSecond], []⟩ ∧
      Guard.releases p againFirst.inst againFirst.guard = .ok [] := by
  obtain rfl : p = .ofTables againTables := Program.ext_tables hp
  exact ⟨toOption_eq_some.mp (by decide +kernel), toOption_eq_some.mp (by decide +kernel)⟩

theorem functionName_calledAgain {p : Program} (hp : p.toTables = againTables) :
    p.functionName againFirst.inst = .ok "f" := by
  rw [hp]
  rfl

theorem lt_of_mem_calledAgain {p : Program} (hp : p.toTables = againTables) :
    ∀ s ∈ [againSecond], s.inst.index < p.insts.size := by
  rw [hp]
  simp [againSecond, againTables]

/-- The walk from the first lock has this one hit. -/
theorem hits_calledAgain {p : Program} (hp : p.toTables = againTables) {d : Detector} {w : Walk}
    (hd : ofProgram p p.aliasing .default = .ok d)
    (hw : d.walk .everywhere againFirst [againSecond] [] = .ok w) : w.hits = .ok [againHit] := by
  obtain rfl : p = .ofTables againTables := Program.ext_tables hp
  -- the detector and its walk are evaluated at once, from the tables
  have hall : (do
      let d ← ofProgram (.ofTables againTables) (Program.ofTables againTables).aliasing .default
      (← d.walk .everywhere againFirst [againSecond] []).hits).toOption = some [againHit] := by
    decide +kernel
  obtain ⟨d', hd', hall⟩ := bind_eq_ok.mp (toOption_eq_some.mp hall)
  rw [hd] at hd'
  cases hd'
  rw [hw] at hall
  exact hall

/-- The calls of `h` and `k` follow each other, although the walk came upon the call of `g`. -/
theorem callchain_calledAgain : ∃ p d w, Program.load calledAgain = .ok p ∧
    (p.lockSites .all = .ok ⟨[againFirst, againSecond], []⟩ ∧
      Guard.releases p againFirst.inst againFirst.guard = .ok []) ∧
        ofProgram p p.aliasing .default = .ok d ∧
          d.walk .everywhere againFirst [againSecond] [] = .ok w ∧ w.hits = .ok [againHit] ∧
            ∃ found, p.GenuineChain ⟨0⟩ againHit.callchain found := by
  obtain ⟨p, hload, hp⟩ := exists_load_calledAgain
  have hroot : p.functionOf againFirst.inst = .ok ⟨0⟩ := by
    rw [hp]
    rfl
  have haliases := lt_of_mem_calledAgain hp
  obtain ⟨d, w, hits, hd, hw, hhits, -, hgenuine, -⟩ := callchain_genuine hload p.aliasing
    .default againFirst hroot haliases (by simp) []
  -- the hits of the theorem are the computed ones
  have hcomputed := hits_calledAgain hp hd hw
  rw [hhits] at hcomputed
  cases hcomputed
  obtain ⟨callee, found, parents, -, -, -, hchain⟩ :=
    hgenuine againHit (List.mem_singleton_self _) (by simp [againSecond, againHit])
  exact ⟨p, d, w, hload, sites_calledAgain hp, hd, hw, hhits, found, hchain⟩

/-- The calls from that of `g` on come back to `f`, and only the part after that is reported. -/
theorem last_part_calledAgain : ∃ p d w, Program.load calledAgain = .ok p ∧
    ofProgram p p.aliasing .default = .ok d ∧
      d.walk .everywhere againFirst [againSecond] [] = .ok w ∧ w.hits = .ok [againHit] ∧
        ∃ way before root found, p.functionOf ⟨2⟩ = .ok root ∧ p.CallChain root way found ∧
          way.head? = some ⟨3⟩ ∧ way = before ++ [⟨0⟩, ⟨5⟩] := by
  obtain ⟨p, hload, hp⟩ := exists_load_calledAgain
  have hname := functionName_calledAgain hp
  have haliases := lt_of_mem_calledAgain hp
  obtain ⟨d, root, w, hits, reports, hd, hroot, hw, hhits, -, -, hlast⟩ := callchain_last_part hload
    p.aliasing .default againFirst hname (by decide) haliases (by simp) []
  have hcomputed := hits_calledAgain hp hd hw
  rw [hhits] at hcomputed
  cases hcomputed
  obtain ⟨callee, found, parents, before, way, -, -, -, -, hcalls, hhead, hsplit, -⟩ :=
    hlast againHit (List.mem_singleton_self _) (by simp [againSecond, againHit])
  exact ⟨p, d, w, hload, hd, hw, hhits, way, before, root, found, hroot, hcalls, hhead, hsplit⟩

/-- What is reported about the hit. -/
def againReport : Report :=
  .doubleLock .probably {
    first := ⟨"std::sync::Mutex::lock", "f", "/src lib.rs 2"⟩
    seconds := [⟨"std::sync::Mutex::lock", "k", "/src lib.rs 6"⟩]
    callchain := ["/src lib.rs 1", "/src lib.rs 5"] }

/-- The walk meets the lock in `k` at the call of `g`, in line 3. The report names the calls in lines 1 and 5, the
first of which stands before the lock. -/
theorem calledAgain_misses_call_met : ∃ p d w, Program.load calledAgain = .ok p ∧
    (p.lockSites .all = .ok ⟨[againFirst, againSecond], []⟩ ∧
      Guard.releases p againFirst.inst againFirst.guard = .ok []) ∧
        ofProgram p p.aliasing .default = .ok d ∧
          d.walk .everywhere againFirst [againSecond] [] = .ok w ∧ w.hits = .ok [againHit] ∧
            againHit.callchain.head? ≠ some againHit.met ∧ p.describe againHit.met = .ok "/src lib.rs 3" ∧
              d.check .everywhere againFirst [againSecond] [] = .ok [againReport] := by
  obtain ⟨p, hload, hp⟩ := exists_load_calledAgain
  obtain ⟨d, hd, hready, rfl, -, hpolicy⟩ := exists_ready hload p.aliasing .default
  have hname := functionName_calledAgain hp
  have haliases := lt_of_mem_calledAgain hp
  -- the text of the report is read off the tables
  have hreport : d.report againFirst againHit = .ok againReport := by
    unfold report
    rw [hp]
    rfl
  obtain ⟨w, hw, -⟩ := exists_walk
    (hready.wellPosed .everywhere (Tables.lt_of_functionName hname) haliases (by simp) [])
  have hhits := hits_calledAgain hp hd hw
  refine ⟨d.program, d, w, hload, sites_calledAgain hp, hd, hw, hhits, by decide, by rw [hp]; rfl, ?_⟩
  have hkept : d.policy.isSuppressed "f" = false := by
    rw [hpolicy]
    decide
  simp only [check, hname, ok_bind, hkept, Bool.false_eq_true, if_false, hw, hhits, List.mapM_cons, hreport,
    List.mapM_nil]
  rfl

end Detector

end Relock
