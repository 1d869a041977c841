import Relock.Proofs.Detector.Check
import Relock.Proofs.Guard.Release
import Relock.Proofs.Lock.Site

/-!
# Locks come before releases

An instruction can be a lock of the group and a release at once. A call of a lock operation never drops
anything, so there is one way to become both: the call is the first thing done where the program goes on
after the first lock failed. A walk asks for a lock first, and so it never notices such a release: the lock
is reported although its guard is gone by then.

* `Guard.FailsAt`: where a program goes on after a lock operation failed;
* `Guard.releasedAt_iff_failsAt`: how an instruction that drops nothing can be a release;
* `Walk.hits_congr_release`, `Detector.check_congr_release`: releases at locks of the group do not matter;
* `Pursuit.direct_mem_iff`: which locks of the group are met;
* `Detector.second_lock_precedes_release`: which second locks are reported, whether or not they are releases.
-/

namespace Relock

/-! ## Releases that are not drops -/

namespace Guard

variable {p : Program} {lock i : InstId} {result : Value}

/-- Where a program goes on after the lock operation with the guard `result` failed, as a cast of the guard
shows. -/
def FailsAt (p : Program) (lock : InstId) (result : Value) (i : InstId) : Prop :=
  ∃ g c v, IsGuard p lock result g ∧ Uses p lock g c (.cast v) ∧ FailsThrough p lock c i

/-- An instruction that drops nothing is a release only by standing where the lock operation failed. -/
theorem releasedAt_iff_failsAt (hi : p.callsA isRelease i ≠ .ok true) :
    ReleasedAt p lock result i ↔ FailsAt p lock result i := by
  constructor
  · intro h
    cases h with
    | guard hg hu hthrough =>
      cases hthrough with
      -- the one rule that does not end in a drop
      | failed hcast hfails => exact ⟨_, _, _, hg, ⟨hu, hcast⟩, hfails⟩
      | dropped hdrop => exact absurd hdrop hi
      | loaded _ hdrop => exact absurd hdrop.2 hi
      | slot _ hdrop => exact absurd hdrop.2 hi
      | reloaded _ _ hdrop => exact absurd hdrop.2 hi
      | payload _ _ hdrop => exact absurd hdrop.2 hi
    -- what the payload was moved into is released by drops only
    | relocated _ hrelocated =>
      cases hrelocated with
      | dropped hdrop => exact absurd hdrop.2 hi
      | loaded _ hdrop => exact absurd hdrop.2 hi
  · rintro ⟨g, c, v, hg, hcast, hfails⟩
    exact .guard hg hcast.1 (.failed hcast.2 hfails)

/-- The call of a lock operation drops nothing. -/
theorem not_drops_of_isLockSite {s : LockSite} (hs : p.IsLockSite s) : p.callsA isRelease s.inst ≠ .ok true := by
  intro hcall
  obtain ⟨name, hname, hkind⟩ := hs.operation
  obtain ⟨name', hname', hrelease⟩ := Tables.callsA_eq_true.mp hcall
  rw [hname] at hname'
  cases hname'
  rw [isRelease_of_ofSymbol hkind] at hrelease
  cases hrelease

end Guard

/-- The call of a lock operation is not passed over. -/
theorem Tables.IsLockSite.isSkipped {t : Tables} {s : LockSite} (hs : t.IsLockSite s) :
    t.isSkipped s.inst = .ok false := by
  obtain ⟨name, hname, -⟩ := hs.operation
  obtain ⟨k, f, -, hk, hcallee, -⟩ := Tables.calledName_eq_some.mp hname
  refine Tables.isSkipped_eq_ok.mpr ⟨k, hk, ?_⟩
  -- phis and debug markers have no callee
  cases k with
  | phi => cases hcallee
  | debug => cases hcallee
  | _ => rfl

/-! ## Walks with other releases -/

/-- Two sets of releases differ in locks of the group only. -/
def SameBesides (aliases : List LockSite) (release release' : List InstId) : Prop :=
  ∀ i, (∀ s ∈ aliases, s.inst ≠ i) → (i ∈ release ↔ i ∈ release')

namespace Walk

variable {w : Walk} {release : List InstId} (h : SameBesides w.aliases release w.release)

include h

/-- **Step lemma**: an instruction has the same verdict, since it is looked up in the alias set first. -/
theorem visit_congr_release (i : InstId) : Walk.visit { w with release := release } i = w.visit i := by
  unfold visit
  dsimp only
  cases hfind : w.aliases.find? fun s => s.inst == i with
  -- a lock of the alias set gets its verdict before releases are asked for
  | some s => rfl
  | none =>
    -- no lock of the group is acquired here, so the releases agree
    have hnone : ∀ s ∈ w.aliases, s.inst ≠ i := by
      intro s hs
      simpa using List.find?_eq_none.mp hfind s hs
    have hcontains : release.contains i = w.release.contains i := by
      rw [Bool.eq_iff_iff, List.contains_iff_mem, List.contains_iff_mem]
      exact h i hnone
    show (if release.contains i then _ else _) = _
    rw [hcontains]
    rfl

/-- **Run lemma**: the walk meets the same second locks. -/
theorem hits_congr_release : Walk.hits { w with release := release } = w.hits := by
  have hskip (i : InstId) : Tables.isSkipped { w with release := release }.tables i = w.tables.isSkipped i := rfl
  have hblock (b : BlockId) : Tables.block { w with release := release }.tables b = w.tables.block b := rfl
  have hentered (b : BlockId) : Walk.entered { w with release := release } b = w.entered b := rfl
  -- block by block, and control flow has nothing to do with releases
  have hscan := scan_congr hskip (visit_congr_release h)
  unfold hits
  exact bind_congr fun x => bind_congr fun block => run_congr hblock hscan hentered _ _

end Walk

/-- A lock of the group is met as itself, if it may block and is reached. -/
theorem Pursuit.direct_mem_iff {q : Pursuit} {hits : List Hit} (hq : q.WellPosed)
    (hmem : ∀ i, i ∈ hits.map Hit.met ↔ q.IsHit i ∧ q.Reaches i) (htells : ∀ hit ∈ hits, q.Tells hit)
    {s : LockSite} (hs : s ∈ q.aliases) (hactive : q.Active s.inst) :
    ⟨s.inst, [s], []⟩ ∈ hits ↔ q.first.kind.nestsWith s.kind = false ∧ q.Reaches s.inst := by
  constructor
  · intro hin
    obtain ⟨hhit, hreaches⟩ := (hmem s.inst).mp (List.mem_map_of_mem hin)
    refine ⟨?_, hreaches⟩
    cases hhit with
    -- the alias set has one lock at each instruction
    | direct _ hs' hinst hblocks => rwa [List.inj_on_of_nodup_map hq.distinct hs' hs hinst] at hblocks
    | call _ _ halias => exact absurd rfl (halias s hs)
  · rintro ⟨hblocks, hreaches⟩
    have hhit : q.IsHit s.inst := .direct hactive hs rfl hblocks
    obtain ⟨hit, hin, hmet⟩ := List.mem_map.mp ((hmem s.inst).mpr ⟨hhit, hreaches⟩)
    rwa [(htells hit hin).eq_direct hq hs hmet] at hin

namespace Detector

/-- Releases at locks of the group do not change what a check reports. -/
theorem check_congr_release {d : Detector} {scope : Scope} {first : LockSite} {aliases : List LockSite}
    {release release' : List InstId} (h : SameBesides aliases release release') :
    d.check scope first aliases release = d.check scope first aliases release' := by
  -- whatever functions the search through calls looks for
  have hhits (acquirers : List (FunctionId × List LockSite)) :
      Walk.hits ⟨d.program.toTables, d.graph, first, aliases, release, acquirers⟩ =
        Walk.hits ⟨d.program.toTables, d.graph, first, aliases, release', acquirers⟩ :=
    Walk.hits_congr_release (w := ⟨d.program.toTables, d.graph, first, aliases, release', acquirers⟩) h
  unfold check walk
  refine bind_congr fun name => ?_
  split
  · rfl
  · cases scope with
    | here =>
      show (Walk.hits ⟨d.program.toTables, d.graph, first, aliases, release, []⟩ >>= _) = _
      rw [hhits]
      rfl
    | everywhere =>
      cases acquirersOf d.program.toTables first aliases with
      | error fault => rfl
      | ok acquirers =>
        show (Walk.hits ⟨d.program.toTables, d.graph, first, aliases, release, acquirers⟩ >>= _) = _
        rw [hhits]
        rfl

/-- **A second lock is reported whether or not it is a release.** Of the releases of the first lock only those
that are no locks of the group count. A lock of the group is a release exactly if it stands where the first
lock failed, and it is reported all the same if it may block and control flow comes to it. -/
theorem second_lock_precedes_release {text : String} {p : Program} (hload : Program.load text = .ok p)
    (hends : p.ChainsEnd) (oracle : Oracle) (policy : Policy) (scope : Scope) {first : LockSite} {name : String}
    (hname : p.functionName first.inst = .ok name) (hkept : policy.isSuppressed name = false)
    {aliases : List LockSite} (haliases : ∀ s ∈ aliases, p.IsLockSite s)
    (hdistinct : (aliases.map LockSite.inst).Nodup) :
    ∃ d release hits reports, ofProgram p oracle policy = .ok d ∧
      Guard.releases p first.inst first.guard = .ok release ∧
        d.check scope first aliases release = .ok reports ∧
          d.check scope first aliases (release.filter fun i => aliases.all fun s => s.inst != i) = .ok reports ∧
            List.Forall₂ (Told p.toTables first) hits reports ∧ ∀ second ∈ aliases,
              (second.inst ∈ release ↔ Guard.FailsAt p first.inst first.guard second.inst) ∧
                (⟨second.inst, [second], []⟩ ∈ hits ↔ first.kind.nestsWith second.kind = false ∧
                  (d.pursuit scope first aliases release).Reaches second.inst) := by
  obtain ⟨d, hd, hready, rfl, rfl, rfl⟩ := exists_ready hload oracle policy
  obtain ⟨found, hreleases, hfound⟩ := Guard.exists_releases first.inst hready.inRange hends first.guard
  have hlt (s : LockSite) (hs : s ∈ aliases) : s.inst.index < d.program.insts.size := (haliases s hs).lt
  -- the pursuit is made with all releases, those at locks included
  have hq := hready.wellPosed scope (Tables.lt_of_functionName hname) hlt hdistinct
    (d.program.instIds.filter (found.contains ·))
  obtain ⟨w, hits, reports, -, -, hcheck, htold, -, hmem, htells⟩ := exists_check hq hname hkept
  refine ⟨d, _, hits, reports, hd, hreleases, hcheck, ?_, htold, fun second hsecond => ⟨?_, ?_⟩⟩
  · rw [← hcheck]
    refine check_congr_release fun i hi => ?_
    rw [List.mem_filter]
    refine and_iff_left (List.all_eq_true.mpr fun s hs => ?_)
    exact bne_iff_ne.mpr (hi s hs)
  · rw [← Guard.releasedAt_iff_failsAt (Guard.not_drops_of_isLockSite (haliases second hsecond)), ← hfound,
      List.mem_filter, List.contains_iff_mem, Tables.mem_instIds]
    exact and_iff_right (hlt second hsecond)
  · exact Pursuit.direct_mem_iff hq hmem htells hsecond (haliases second hsecond).isSkipped

/-! ### A lock that is tried again -/

/-- A lock that is acquired again at once where the first try failed. -/
def triedAgain : String :=
  "[[[\"M\",[\"i64\"]]],[],[[\"f\",[\"*M\"],\"void\",[
    [\"s\",[\x7b\"id\":\"g\",\"op\":\"call\",\"callee\":\"lock_api::mutex::Mutex<T>::lock\",\"args\":[\"%0\"],
        \"ty\":\"*i64\"\x7d,
      \x7b\"id\":\"c\",\"op\":\"cast\",\"value\":\"g\",\"ty\":\"*i64\"\x7d,
      \x7b\"id\":\"d\",\"op\":\"load\",\"ptr\":\"c\",\"ty\":\"i64\"\x7d,
      \x7b\"id\":\"z\",\"op\":\"icmp\",\"pred\":\"eq\",\"lhs\":\"d\",\"rhs\":0\x7d,
      \x7b\"op\":\"cond_br\",\"cond\":\"z\",\"then_dest\":\"ok\",\"else_dest\":\"err\"\x7d]],
    [\"ok\",[\x7b\"op\":\"ret\"\x7d]],
    [\"err\",[\x7b\"op\":\"call\",\"callee\":\"lock_api::mutex::Mutex<T>::lock\",\"args\":[\"%0\"]\x7d,
      \x7b\"op\":\"ret\"\x7d]]]]]]"

/-- The tables of `triedAgain`. -/
def triedTables : Tables where
  types := #[.void, .int 64, .record "M" [⟨1⟩], .pointer ⟨2⟩, .pointer ⟨1⟩, .int 1]
  globals := #[]
  functions := #[⟨"f", [⟨3⟩], ⟨0⟩, [⟨0⟩, ⟨1⟩, ⟨2⟩]⟩, ⟨"lock_api::mutex::Mutex<T>::lock", [], ⟨4⟩, []⟩]
  blocks := #[⟨"s", ⟨0⟩, [⟨0⟩, ⟨1⟩, ⟨2⟩, ⟨3⟩, ⟨4⟩]⟩, ⟨"ok", ⟨0⟩, [⟨5⟩]⟩, ⟨"err", ⟨0⟩, [⟨6⟩, ⟨7⟩]⟩]
  insts := #[⟨.call (.direct ⟨1⟩) [.arg ⟨0⟩ 0], ⟨4⟩, ⟨0⟩, none⟩, ⟨.cast (.inst ⟨0⟩), ⟨4⟩, ⟨0⟩, none⟩,
    ⟨.load (.inst ⟨1⟩), ⟨1⟩, ⟨0⟩, none⟩, ⟨.icmp .eq (.inst ⟨2⟩) (.const 0), ⟨5⟩, ⟨0⟩, none⟩,
    ⟨.condBr (.inst ⟨3⟩) ⟨1⟩ ⟨2⟩, ⟨0⟩, ⟨0⟩, none⟩, ⟨.ret none, ⟨0⟩, ⟨1⟩, none⟩,
    ⟨.call (.direct ⟨1⟩) [.arg ⟨0⟩ 0], ⟨4⟩, ⟨2⟩, none⟩, ⟨.ret none, ⟨0⟩, ⟨2⟩, none⟩]

set_option maxRecDepth 4000 in
theorem exists_load_triedAgain : ∃ p, Program.load triedAgain = .ok p ∧ p.toTables = triedTables :=
  Program.exists_load_of_chars rfl (by decide +kernel)

/-- The first lock of `triedAgain`. -/
def firstTry : LockSite := ⟨⟨0⟩, .arg ⟨0⟩ 0, .inst ⟨0⟩, .lockApiMutexLock⟩

/-- The lock of `triedAgain` where the first one failed. -/
def secondTry : LockSite := ⟨⟨6⟩, .arg ⟨0⟩ 0, .inst ⟨6⟩, .lockApiMutexLock⟩

theorem isLockSite_triedAgain : triedTables.IsLockSite firstTry ∧ triedTables.IsLockSite secondTry := by
  have hsymbol : LockKind.ofSymbol "lock_api::mutex::Mutex<T>::lock" = some .lockApiMutexLock := by
    decide +kernel
  constructor
  · exact ⟨⟨⟨0⟩, _, by decide, rfl, by decide⟩, ⟨_, rfl, hsymbol⟩, rfl⟩
  · exact ⟨⟨⟨0⟩, _, by decide, rfl, by decide⟩, ⟨_, rfl, hsymbol⟩, rfl⟩

/-- The second lock is the one release of the first. -/
theorem releases_triedAgain {p : Program} (hp : p.toTables = triedTables) :
    Guard.releases p firstTry.inst firstTry.guard = .ok [secondTry.inst] := by
  obtain rfl : p = .ofTables triedTables := Program.ext_tables hp
  exact toOption_eq_some.mp (by decide +kernel)

/-- Nothing keeps control flow from coming to the second lock. -/
theorem reaches_triedAgain (graph : CallGraph) (scope : Scope) :
    Pursuit.Reaches ⟨triedTables, graph, scope, firstTry, [secondTry], [secondTry.inst]⟩ secondTry.inst := by
  have hstart : Route triedTables ⟨0⟩ (fun c => ¬ triedTables.LiesIn ⟨0⟩ c) [] ⟨0⟩ [⟨1⟩, ⟨2⟩, ⟨3⟩, ⟨4⟩] :=
    .start ⟨_, rfl, rfl⟩ rfl (List.nil_append _).symm
  have hother : ¬ triedTables.LiesIn ⟨0⟩ ⟨2⟩ := by
    rintro ⟨x, hx, hblock⟩
    cases hx
    cases hblock
  -- control flow goes to the block where the lock operation failed
  have hfailed := hstart.enter (c := ⟨2⟩) ⟨_, rfl, by decide, rfl⟩ hother rfl
  refine ⟨_, _, [], _, hfailed, fun i hi => ?_⟩
  -- what is passed is neither a call nor the second lock
  have hlt : i.index < 6 ∧ triedTables.calledFunction i = .ok none := by
    simp only [List.nil_append, List.append_nil, List.mem_cons, List.not_mem_nil, or_false] at hi
    rcases hi with rfl | rfl | rfl | rfl <;> exact ⟨by decide, rfl⟩
  refine Pursuit.not_blocks_of_call (fun s hs => ?_) (fun hin => ?_) fun _ callee hcallee => ?_
  · cases List.mem_singleton.mp hs
    rintro rfl
    exact absurd hlt.1 (by decide)
  · cases List.mem_singleton.mp hin
    exact absurd hlt.1 (by decide)
  · cases hlt.2.symm.trans hcallee

/-- The second lock is reported with the release and without it. -/
theorem second_lock_triedAgain : ∃ p d hits reports, Program.load triedAgain = .ok p ∧ p.ChainsEnd ∧
    ofProgram p p.aliasing .default = .ok d ∧
      Guard.releases p firstTry.inst firstTry.guard = .ok [secondTry.inst] ∧
        d.check .here firstTry [secondTry] [secondTry.inst] = .ok reports ∧
          d.check .here firstTry [secondTry] [] = .ok reports ∧
            List.Forall₂ (Told p.toTables firstTry) hits reports ∧
              Guard.FailsAt p firstTry.inst firstTry.guard secondTry.inst ∧
                ⟨secondTry.inst, [secondTry], []⟩ ∈ hits := by
  obtain ⟨p, hload, hp⟩ := exists_load_triedAgain
  have hends : p.ChainsEnd := by
    rw [Tables.chainsEnd_iff (Program.inRange_of_load hload), hp]
    decide +kernel
  have hname : p.functionName firstTry.inst = .ok "f" := by
    rw [hp]
    rfl
  have haliases : ∀ s ∈ [secondTry], p.IsLockSite s := by
    intro s hs
    rw [List.mem_singleton.mp hs, hp]
    exact isLockSite_triedAgain.2
  obtain ⟨d, release, hits, reports, hd, hrelease, hcheck, hfiltered, htold, hall⟩ :=
    second_lock_precedes_release hload hends p.aliasing .default .here hname (by decide +kernel) haliases (by simp)
  rw [releases_triedAgain hp] at hrelease
  cases hrelease
  obtain ⟨hfails, hreported⟩ := hall secondTry (List.mem_singleton_self _)
  refine ⟨p, d, hits, reports, hload, hends, hd, releases_triedAgain hp, hcheck, hfiltered, htold,
    hfails.mp (List.mem_singleton_self _), hreported.mpr ⟨rfl, ?_⟩⟩
  obtain ⟨graph, -, h⟩ := bind_eq_ok.mp hd
  cases h
  rw [pursuit, hp]
  exact reaches_triedAgain graph .here

/-- The second lock is a release of the first one and is reported as its second lock, within the function and
through calls. -/
theorem triedAgain_reported_at_release : ∃ p d release, Program.load triedAgain = .ok p ∧
    ofProgram p p.aliasing .default = .ok d ∧ p.IsLockSite firstTry ∧ p.IsLockSite secondTry ∧
      Guard.releases p firstTry.inst firstTry.guard = .ok release ∧ secondTry.inst ∈ release ∧
        ∀ scope, ∃ reports, d.check scope firstTry [secondTry] release = .ok reports ∧
          ∃ report ∈ reports, Told p.toTables firstTry ⟨secondTry.inst, [secondTry], []⟩ report := by
  obtain ⟨p, hload, hp⟩ := exists_load_triedAgain
  obtain ⟨d, hd, hready, rfl, -, hpolicy⟩ := exists_ready hload p.aliasing .default
  have hsites : d.program.IsLockSite firstTry ∧ d.program.IsLockSite secondTry := by
    rw [hp]
    exact isLockSite_triedAgain
  have hname : d.program.functionName firstTry.inst = .ok "f" := by
    rw [hp]
    rfl
  have hlt (s : LockSite) (hs : s ∈ [secondTry]) : s.inst.index < d.program.insts.size := by
    rw [List.mem_singleton.mp hs]
    exact hsites.2.lt
  refine ⟨d.program, d, _, hload, hd, hsites.1, hsites.2, releases_triedAgain hp, List.mem_singleton_self _,
    fun scope => ?_⟩
  have hq := hready.wellPosed scope (Tables.lt_of_functionName hname) hlt (by simp) [secondTry.inst]
  obtain ⟨w, hits, reports, -, -, hcheck, htold, -, hmem, htells⟩ :=
    exists_check hq hname (by rw [hpolicy]; decide +kernel)
  -- the walk is not stopped before the second lock
  have hreaches : (d.pursuit scope firstTry [secondTry] [secondTry.inst]).Reaches secondTry.inst := by
    rw [pursuit, hp]
    exact reaches_triedAgain d.graph scope
  have hhit := (Pursuit.direct_mem_iff hq hmem htells (List.mem_singleton_self _) hsites.2.isSkipped).mpr
    ⟨rfl, hreaches⟩
  exact ⟨reports, hcheck, exists_of_forall₂ htold.flip hhit⟩

end Detector

end Relock
