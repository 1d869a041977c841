import Relock.Proofs.Description.InRange
import Relock.Proofs.Detector.Walk

/-!
# What a check reports

A check makes a walk and words what the walk met. On a program that was loaded it cannot fault, and its
reports are those on the hits that control flow comes to, one for each.

* `Told`: a report in words about a hit;
* `Detector.exists_walk`: the walk that a check makes;
* `Detector.exists_check`: the reports of a check;
* `Detector.check_eq_reached_hits`: the same for every program that was loaded.
-/

namespace Relock

/-- What is reported about a hit: the locks and the calls in words, and how likely it is a fault. Only
locks that are all shared may not block. -/
inductive Told (t : Tables) (first : LockSite) (hit : Hit) : Report → Prop where
  | doubleLock {diagnosis : DoubleLock} (hfirst : first.toText t = .ok diagnosis.first)
      (hseconds : List.Forall₂ (fun s text => s.toText t = .ok text) hit.seconds diagnosis.seconds)
      (hcalls : List.Forall₂ (fun i text => t.describe i = .ok text) hit.callchain diagnosis.callchain) :
      Told t first hit (.doubleLock
        (if ∀ s ∈ first :: hit.seconds, s.kind.access = .shared then .possibly else .probably) diagnosis)

namespace Pursuit

variable {q : Pursuit}

/-- The functions that acquire one of the locks, each with its locks. -/
theorem WellPosed.exists_acquirersOf (hq : q.WellPosed) :
    ∃ acquirers, acquirersOf q.tables q.first q.aliases = .ok acquirers ∧
      ∀ f, acquirers.lookup f = if (q.seconds f).isEmpty then none else some (q.seconds f) := by
  obtain ⟨keyed, hkeyed⟩ : ∃ keyed, ((q.aliases.filter fun s => !q.first.kind.nestsWith s.kind).mapM
      fun s => do return (← q.tables.functionOf s.inst, s)) = .ok keyed := by
    -- every lock of the alias set has a function
    refine exists_mapM_ok fun s hs => ?_
    obtain ⟨f, hf, -⟩ := hq.inRange.exists_functionOf (hq.aliases s (List.mem_of_mem_filter hs))
    exact ⟨(f, s), by simp [hf]⟩
  refine ⟨_, bind_eq_ok.mpr ⟨keyed, hkeyed, rfl⟩, fun f => ?_⟩
  -- the locks that nest are taken out before grouping here, and after it in `seconds`
  have hseconds : (keyed.filter fun e => e.1 == f).map Prod.snd = q.seconds f := by
    rw [filter_keyed hkeyed, List.filter_filter]
    exact List.filter_congr fun s _ => Bool.and_comm ..
  rw [lookup_groupBy CallGraph.strictTotal_functionId, hseconds]

/-- What is reported about a hit names instructions of the program only. -/
theorem Tells.inRange (hq : q.WellPosed) {hit : Hit} (h : q.Tells hit) :
    (∀ s ∈ hit.seconds, s.inst.index < q.tables.insts.size) ∧
      ∀ i ∈ hit.callchain, i.index < q.tables.insts.size := by
  cases h with
  | @direct s hs => exact ⟨by simpa using hq.aliases s hs, by simp⟩
  | @call i callee found root parents chain _ hcallee hsearch _ hchain =>
    refine ⟨fun s hs => hq.aliases s (List.mem_of_mem_filter hs), ?_⟩
    obtain ⟨k, hk, -⟩ := Tables.calledFunction_eq_ok.mp hcallee
    obtain ⟨x, hx, -⟩ := Tables.kindOf_eq_ok.mp hk
    -- the backtrace has succeeded already; that all its calls are instructions is known of the one that exists
    obtain ⟨chain', hchain', hlt⟩ := exists_chain hq (Tables.lt_of_inst hx) hsearch root
    rw [hchain] at hchain'
    cases hchain'
    exact hlt

/-- Where a lock of the group is met, it is the second lock. -/
theorem Tells.eq_direct (hq : q.WellPosed) {hit : Hit} (h : q.Tells hit) {s : LockSite}
    (hs : s ∈ q.aliases) (hmet : hit.met = s.inst) : hit = ⟨s.inst, [s], []⟩ := by
  cases h with
  | direct hs' => rw [List.inj_on_of_nodup_map hq.distinct hs' hs hmet]
  | call halias => exact absurd hmet.symm (halias s hs)

end Pursuit

namespace Detector

variable {d : Detector} {scope : Scope} {first : LockSite} {aliases : List LockSite} {release : List InstId}

/-- What a check looks for. -/
def pursuit (d : Detector) (scope : Scope) (first : LockSite) (aliases : List LockSite)
    (release : List InstId) : Pursuit :=
  ⟨d.program.toTables, d.graph, scope, first, aliases, release⟩

/-- A detector that was made for a program can check every lock in it. -/
structure Ready (d : Detector) : Prop where
  inRange : d.program.InRange
  arranged : d.program.Arranged
  graph : CallGraph.ofTables d.program.toTables = .ok d.graph

/-- A detector can be made for every program that is arranged. -/
theorem exists_ready_of_arranged {p : Program} (hrange : p.InRange) (harranged : p.Arranged) (oracle : Oracle)
    (policy : Policy) : ∃ d, ofProgram p oracle policy = .ok d ∧ d.Ready ∧ d.program = p ∧
      d.oracle = oracle ∧ d.policy = policy := by
  obtain ⟨graph, hgraph⟩ := CallGraph.exists_ofTables harranged
  exact ⟨⟨p, graph, oracle, policy⟩, bind_eq_ok.mpr ⟨graph, hgraph, rfl⟩, ⟨hrange, harranged, hgraph⟩, rfl, rfl, rfl⟩

/-- A detector can be made for every program that was loaded. -/
theorem exists_ready {text : String} {p : Program} (hload : Program.load text = .ok p) (oracle : Oracle)
    (policy : Policy) : ∃ d, ofProgram p oracle policy = .ok d ∧ d.Ready ∧ d.program = p ∧
      d.oracle = oracle ∧ d.policy = policy :=
  exists_ready_of_arranged (Program.inRange_of_load hload) (Program.arranged_of_load hload) oracle policy

/-- What a detector that is ready can be asked. -/
theorem Ready.wellPosed (hd : d.Ready) (scope : Scope) (hfirst : first.inst.index < d.program.insts.size)
    (haliases : ∀ s ∈ aliases, s.inst.index < d.program.insts.size)
    (hdistinct : (aliases.map LockSite.inst).Nodup) (release : List InstId) :
    (d.pursuit scope first aliases release).WellPosed :=
  ⟨hd.inRange, hd.arranged, hd.graph, hfirst, haliases, hdistinct⟩

/-- What a report says is what was found, in words. -/
theorem told_of_report {hit : Hit} {r : Report} (h : d.report first hit = .ok r) :
    Told d.program.toTables first hit r := by
  obtain ⟨text, htext, h⟩ := bind_eq_ok.mp h
  obtain ⟨seconds, hseconds, h⟩ := bind_eq_ok.mp h
  obtain ⟨calls, hcalls, h⟩ := bind_eq_ok.mp h
  -- a report is a possible fault only if all locks in it are shared
  have hshared : (first.kind.access == .shared && hit.seconds.all fun s => s.kind.access == .shared) = true ↔
      ∀ s ∈ first :: hit.seconds, s.kind.access = .shared := by
    simp
  simp only [hshared, pure_eq_ok] at h
  subst h
  exact @Told.doubleLock _ _ _ ⟨text, seconds, calls⟩ htext (mapM_eq_ok.mp hseconds) (mapM_eq_ok.mp hcalls)

section Check

variable (hq : (d.pursuit scope first aliases release).WellPosed)

include hq

/-- The walk that a check makes is the one that answers its question: the acquirers are looked for in the whole
program, or not at all. -/
theorem exists_walk : ∃ w, d.walk scope first aliases release = .ok w ∧
    (d.pursuit scope first aliases release).Matches w := by
  cases scope with
  -- within the function there are no acquirers to look for
  | here => exact ⟨_, rfl, rfl, rfl, rfl, rfl, rfl, fun _ => rfl, nofun⟩
  | everywhere =>
    obtain ⟨acquirers, hacquirers, hlookup⟩ := hq.exists_acquirersOf
    refine ⟨⟨d.program.toTables, d.graph, first, aliases, release, acquirers⟩, ?_, rfl, rfl, rfl, rfl, rfl,
      nofun, fun _ => hlookup⟩
    exact bind_eq_ok.mpr ⟨acquirers, hacquirers, rfl⟩

/-- Every lock site of the program can be put into words. -/
theorem exists_toText {s : LockSite} (hs : s.inst.index < d.program.insts.size) :
    ∃ text, s.toText d.program.toTables = .ok text := by
  obtain ⟨name, hname⟩ := hq.inRange.exists_functionName hs
  obtain ⟨place, hplace⟩ := hq.inRange.exists_describe hs
  exact ⟨_, bind_eq_ok.mpr ⟨name, hname, bind_eq_ok.mpr ⟨place, hplace, rfl⟩⟩⟩

/-- A hit can be reported without a fault: it names instructions of the program only. -/
theorem exists_report {hit : Hit} (hhit : (d.pursuit scope first aliases release).Tells hit) :
    ∃ r, d.report first hit = .ok r := by
  obtain ⟨hseconds, hcalls⟩ := hhit.inRange hq
  obtain ⟨text, htext⟩ := exists_toText hq hq.first
  obtain ⟨seconds, hseconds⟩ := exists_mapM_ok fun s hs => exists_toText hq (hseconds s hs)
  obtain ⟨calls, hcalls⟩ := exists_mapM_ok fun i hi => hq.inRange.exists_describe (hcalls i hi)
  exact ⟨_, bind_eq_ok.mpr ⟨text, htext, bind_eq_ok.mpr ⟨seconds, hseconds,
    bind_eq_ok.mpr ⟨calls, hcalls, rfl⟩⟩⟩⟩

/-- The reports of a check are those on the hits that are reached. -/
theorem exists_check {name : String} (hname : d.program.functionName first.inst = .ok name)
    (hkept : d.policy.isSuppressed name = false) :
    ∃ w hits reports, d.walk scope first aliases release = .ok w ∧ w.hits = .ok hits ∧
      d.check scope first aliases release = .ok reports ∧
        List.Forall₂ (Told d.program.toTables first) hits reports ∧ (hits.map Hit.met).Nodup ∧
          (∀ i, i ∈ hits.map Hit.met ↔ (d.pursuit scope first aliases release).IsHit i ∧
            (d.pursuit scope first aliases release).Reaches i) ∧
            ∀ hit ∈ hits, (d.pursuit scope first aliases release).Tells hit := by
  -- the walk meets the hits that are reached, and wording what it met cannot fault
  obtain ⟨w, hw, hm⟩ := exists_walk hq
  obtain ⟨hits, hhits, hdistinct, hmem, htells⟩ := Pursuit.exists_hits hq hm
  obtain ⟨reports, hreports⟩ := exists_mapM_ok fun hit hin => exists_report hq (htells hit hin)
  have htold := (mapM_eq_ok.mp hreports).imp fun _ _ => told_of_report
  refine ⟨w, hits, reports, hw, hhits, ?_, htold, hdistinct, hmem, htells⟩
  simp [check, hname, hkept, hw, hhits, hreports]

end Check

/-- **A check reports exactly the hits that control flow comes to**, for every lock in every program that was
loaded, and one report for each. -/
theorem check_eq_reached_hits {text : String} {p : Program} (hload : Program.load text = .ok p)
    (oracle : Oracle) (policy : Policy) (scope : Scope) (first : LockSite) {name : String}
    (hname : p.functionName first.inst = .ok name) (hkept : policy.isSuppressed name = false)
    {aliases : List LockSite} (haliases : ∀ s ∈ aliases, s.inst.index < p.insts.size)
    (hdistinct : (aliases.map LockSite.inst).Nodup) (release : List InstId) :
    ∃ d hits reports, ofProgram p oracle policy = .ok d ∧
      d.check scope first aliases release = .ok reports ∧
        List.Forall₂ (Told p.toTables first) hits reports ∧ (hits.map Hit.met).Nodup ∧
          (∀ i, i ∈ hits.map Hit.met ↔ (d.pursuit scope first aliases release).IsHit i ∧
            (d.pursuit scope first aliases release).Reaches i) ∧
              ∀ hit ∈ hits, (d.pursuit scope first aliases release).Tells hit := by
  obtain ⟨d, hd, hready, rfl, rfl, rfl⟩ := exists_ready hload oracle policy
  have hq := hready.wellPosed scope (Tables.lt_of_functionName hname) haliases hdistinct release
  obtain ⟨w, hits, reports, -, -, h⟩ := exists_check hq hname hkept
  exact ⟨d, hits, reports, hd, h⟩

/-! ### A lock that is released on one branch only -/

/-- A lock that is acquired again in block `t`, where control comes from block `a`, which drops the guard, and
from the loop in block `b`, which does not. -/
def releasedOnOneBranch : String :=
  "[[],[],[[\"f\",[\"*i64\"],\"void\",[
    [\"s\",[\x7b\"id\":\"g\",\"op\":\"call\",\"callee\":\"std::sync::mutex::Mutex<T>::lock\",\"args\":[\"%0\"],
        \"ty\":\"*i64\"\x7d,
      \x7b\"op\":\"cond_br\",\"cond\":0,\"then_dest\":\"a\",\"else_dest\":\"b\"\x7d]],
    [\"a\",[\x7b\"op\":\"call\",\"callee\":\"core::mem::drop\",\"args\":[\"g\"]\x7d,
      \x7b\"op\":\"br\",\"dest\":\"t\"\x7d]],
    [\"b\",[\x7b\"op\":\"cond_br\",\"cond\":0,\"then_dest\":\"b\",\"else_dest\":\"t\"\x7d]],
    [\"t\",[\x7b\"op\":\"call\",\"callee\":\"std::sync::mutex::Mutex<T>::lock\",\"args\":[\"%0\"]\x7d,
      \x7b\"op\":\"br\",\"dest\":\"s\"\x7d]]]]]]"

/-- The tables of `releasedOnOneBranch`. -/
def branchTables : Tables where
  types := #[.void, .int 64, .pointer ⟨1⟩]
  globals := #[]
  functions := #[⟨"f", [⟨2⟩], ⟨0⟩, [⟨0⟩, ⟨1⟩, ⟨2⟩, ⟨3⟩]⟩, ⟨"std::sync::mutex::Mutex<T>::lock", [], ⟨2⟩, []⟩,
    ⟨"core::mem::drop", [], ⟨0⟩, []⟩]
  blocks := #[⟨"s", ⟨0⟩, [⟨0⟩, ⟨1⟩]⟩, ⟨"a", ⟨0⟩, [⟨2⟩, ⟨3⟩]⟩, ⟨"b", ⟨0⟩, [⟨4⟩]⟩, ⟨"t", ⟨0⟩, [⟨5⟩, ⟨6⟩]⟩]
  insts := #[⟨.call (.direct ⟨1⟩) [.arg ⟨0⟩ 0], ⟨2⟩, ⟨0⟩, none⟩, ⟨.condBr (.const 0) ⟨1⟩ ⟨2⟩, ⟨0⟩, ⟨0⟩, none⟩,
    ⟨.call (.direct ⟨2⟩) [.inst ⟨0⟩], ⟨0⟩, ⟨1⟩, none⟩, ⟨.br ⟨3⟩, ⟨0⟩, ⟨1⟩, none⟩,
    ⟨.condBr (.const 0) ⟨2⟩ ⟨3⟩, ⟨0⟩, ⟨2⟩, none⟩, ⟨.call (.direct ⟨1⟩) [.arg ⟨0⟩ 0], ⟨2⟩, ⟨3⟩, none⟩,
    ⟨.br ⟨0⟩, ⟨0⟩, ⟨3⟩, none⟩]

set_option maxRecDepth 4000 in
/-- The description is accepted, and gives these tables. -/
theorem exists_load_releasedOnOneBranch :
    ∃ p, Program.load releasedOnOneBranch = .ok p ∧ p.toTables = branchTables :=
  Program.exists_load_of_chars rfl (by decide +kernel)

/-- The mutex that the first function is given, acquired at an instruction. -/
def mutexAt (i : InstId) : LockSite := ⟨i, .arg ⟨0⟩ 0, .inst i, .stdMutexLock⟩

/-- Both lock calls are found as lock sites. -/
theorem lockSites_releasedOnOneBranch :
    branchTables.lockSites .all = .ok ⟨[mutexAt ⟨0⟩, mutexAt ⟨5⟩], []⟩ :=
  toOption_eq_some.mp (by decide +kernel)

/-- The guard of the first lock is dropped in block `a`, and nowhere else. -/
theorem releases_releasedOnOneBranch {p : Program} (hp : p.toTables = branchTables) :
    Guard.releases p ⟨0⟩ (.inst ⟨0⟩) = .ok [⟨2⟩] := by
  obtain rfl : p = .ofTables branchTables := Program.ext_tables hp
  exact toOption_eq_some.mp (by decide +kernel)

/-- A route to the second lock that goes round the loop. -/
theorem route_releasedOnOneBranch {allowed : BlockId → Prop} (hb : allowed ⟨2⟩) (ht : allowed ⟨3⟩) :
    Route branchTables ⟨0⟩ allowed [⟨1⟩, ⟨4⟩, ⟨4⟩] ⟨3⟩ [⟨5⟩, ⟨6⟩] := by
  have hs : Route branchTables ⟨0⟩ allowed [] ⟨0⟩ [⟨1⟩] :=
    .start ⟨_, rfl, rfl⟩ rfl (List.nil_append _).symm
  have hloop : Route branchTables ⟨0⟩ allowed [⟨1⟩] ⟨2⟩ [⟨4⟩] :=
    hs.enter ⟨_, rfl, by decide, rfl⟩ hb rfl
  have hagain : Route branchTables ⟨0⟩ allowed [⟨1⟩, ⟨4⟩] ⟨2⟩ [⟨4⟩] :=
    hloop.enter ⟨_, rfl, by decide, rfl⟩ hb rfl
  exact hagain.enter ⟨_, rfl, by decide, rfl⟩ ht rfl

/-- Nothing on that route blocks: the drop is on the other branch. -/
theorem reaches_releasedOnOneBranch (graph : CallGraph) :
    Pursuit.Reaches ⟨branchTables, graph, .here, mutexAt ⟨0⟩, [mutexAt ⟨5⟩], [⟨2⟩]⟩ ⟨5⟩ := by
  have hhome {b : BlockId} (hb : b ≠ ⟨0⟩) : ¬ branchTables.LiesIn ⟨0⟩ b := by
    rintro ⟨x, hx, rfl⟩
    cases hx
    exact hb rfl
  refine ⟨_, _, [], _, route_releasedOnOneBranch (hhome (by decide)) (hhome (by decide)), fun i hi => ?_⟩
  refine Pursuit.not_blocks_of_call (fun s hs => ?_) (fun hin => ?_) nofun
  · cases List.mem_singleton.mp hs
    rintro rfl
    simp [mutexAt] at hi
  · cases List.mem_singleton.mp hin
    simp at hi

/-- Through the loop, the second lock site is met before the guard of the first one is dropped. -/
theorem check_releasedOnOneBranch : ∃ p d hits reports, Program.load releasedOnOneBranch = .ok p ∧
    p.lockSites .all = .ok ⟨[mutexAt ⟨0⟩, mutexAt ⟨5⟩], []⟩ ∧ Guard.releases p ⟨0⟩ (.inst ⟨0⟩) = .ok [⟨2⟩] ∧
      ofProgram p p.aliasing .default = .ok d ∧
        d.check .here (mutexAt ⟨0⟩) [mutexAt ⟨5⟩] [⟨2⟩] = .ok reports ∧
          List.Forall₂ (Told p.toTables (mutexAt ⟨0⟩)) hits reports ∧ ⟨5⟩ ∈ hits.map Hit.met := by
  obtain ⟨p, hload, hp⟩ := exists_load_releasedOnOneBranch
  have hname : p.functionName ⟨0⟩ = .ok "f" := by
    rw [hp]
    rfl
  have haliases : ∀ s ∈ [mutexAt ⟨5⟩], s.inst.index < p.insts.size := by
    rw [hp]
    simp [mutexAt, branchTables]
  have hsites : p.lockSites .all = .ok ⟨[mutexAt ⟨0⟩, mutexAt ⟨5⟩], []⟩ := by
    rw [hp]
    exact lockSites_releasedOnOneBranch
  obtain ⟨d, hits, reports, hd, hcheck, htold, -, hmem, -⟩ := check_eq_reached_hits hload p.aliasing
    .default .here (mutexAt ⟨0⟩) hname (by decide) haliases (by simp) [⟨2⟩]
  refine ⟨p, d, hits, reports, hload, hsites, releases_releasedOnOneBranch hp, hd, hcheck, htold,
    (hmem ⟨5⟩).mpr ?_⟩
  obtain ⟨graph, -, h⟩ := bind_eq_ok.mp hd
  cases h
  rw [pursuit, hp]
  exact ⟨.direct rfl (List.mem_singleton_self (mutexAt ⟨5⟩)) rfl rfl, reaches_releasedOnOneBranch graph⟩

end Detector

end Relock
