import Relock.Proofs.Detector.Safety

/-!
# A policy only selects

A policy says which flavors of locks are analysed and which functions are suppressed. Neither changes what is
found: the reports under a policy are a selection, in order, of the reports that each flavor has on its own.
A function that is suppressed has no report on a lock that is acquired there first. It is not spared in any
other way: its locks are still second locks, and its lock calls that cannot be parsed are still reported.

* `Program.reports`: the reports on a program under a policy;
* `Policy.keeps`: which reports a policy lets through;
* `Tables.lockSites_select`: the lock sites of some flavors are a selection of all;
* `Detector.detect_eq_filter`, `Detector.reports_eq_filter_keeps`: suppression takes out the reports on first
  locks;
* `Detector.reports_eq_selection`: the reports under any policy, from those of each flavor.
-/

namespace Relock

/-- The reports on a program under a policy. -/
def Program.reports (p : Program) (oracle : Oracle) (policy : Policy) : Except Fault (List Report) := do
  return (← (← Detector.ofProgram p oracle policy).detect).2

/-- The function of the first lock of a report. -/
def Report.firstFunction? : Report → Option String
  | .doubleLock _ d => some d.first.function
  | .unparsedSite _ => none
  | .manualDrop _ => none

namespace Policy

/-- Whether a report is not about a first lock in a function that is suppressed. -/
def keeps (policy : Policy) (r : Report) : Bool :=
  !r.firstFunction?.any policy.isSuppressed

/-- One flavor, and no suppressions. -/
def only (f : Flavor) : Policy := ⟨FlavorSet.empty.insert f, []⟩

/-- A report is let through if the function of its first lock, should it have one, is not suppressed. -/
theorem keeps_eq_true {policy : Policy} {r : Report} :
    policy.keeps r = true ↔ ∀ name, r.firstFunction? = some name → policy.isSuppressed name = false := by
  unfold keeps
  cases r.firstFunction? <;> simp

end Policy

/-! ## Lock sites -/

namespace LockSites

variable {s : LockSites} {flavors : FlavorSet} {i : InstId} {k : LockKind} {site : Except SiteError LockSite}

end LockSites

namespace Tables

variable {t : Tables} {flavors : FlavorSet}

end Tables

/-! ## Reports -/

/-- What is reported about a lock call that cannot be parsed. -/
inductive Tables.ToldUnparsed (t : Tables) (u : UnparsedSite) : Report → Prop where
  | unparsedSite {place : String} (hplace : t.describe u.inst = .ok place) :
      ToldUnparsed t u (.unparsedSite (u.kind.display ++ " at " ++ place ++ ": " ++ u.error.message))

namespace Tables.ToldUnparsed

variable {t : Tables} {u : UnparsedSite} {r : Report} (h : t.ToldUnparsed u r)

include h

theorem bugKind : r.bugKind = "UnparsedLockSite" := by
  cases h
  rfl

theorem firstFunction?_eq_none : r.firstFunction? = none := by
  cases h
  rfl

end Tables.ToldUnparsed

namespace Detector

/-- The same detector under another policy. -/
def under (d : Detector) (policy : Policy) : Detector := { d with policy }

variable {d : Detector}

/-- A policy has no part in what makes a detector ready. -/
theorem Ready.under (hd : d.Ready) (policy : Policy) : (d.under policy).Ready :=
  ⟨hd.inRange, hd.arranged, hd.graph⟩

/-- One detector gives the reports under every policy. -/
theorem Ready.reports_eq (hd : d.Ready) (policy : Policy) :
    d.program.reports d.oracle policy = Prod.snd <$> (d.under policy).detect := by
  have hofProgram : ofProgram d.program d.oracle policy = .ok (d.under policy) :=
    bind_eq_ok.mpr ⟨d.graph, hd.graph, rfl⟩
  unfold Program.reports
  rw [hofProgram, ok_bind]
  cases (d.under policy).detect <;> rfl

/-- The report names the operation, the location and the error. -/
theorem toldUnparsed_of_reportUnparsed {u : UnparsedSite} {r : Report} (h : d.reportUnparsed u = .ok r) :
    d.program.ToldUnparsed u r := by
  obtain ⟨place, hplace, h⟩ := bind_eq_ok.mp h
  cases h
  exact .unparsedSite hplace

/-! ### Suppression -/

section Suppression

variable (hd : d.Ready) (flavors : FlavorSet)

include hd

/-- A check in a function that is suppressed is skipped, and skipping it loses no fault. -/
theorem check_eq_filter (scope : Scope) {first : LockSite} (hfirst : d.program.IsLockSite first)
    {aliases : List LockSite} (haliases : d.IsGroup aliases) (release : List InstId) :
    d.check scope first aliases release = List.filter d.policy.keeps <$>
      (d.under ⟨flavors, []⟩).check scope first aliases release := by
  -- the check returns for every lock site, so a check that is skipped hides no fault
  obtain ⟨name, hname⟩ := hd.inRange.exists_functionName hfirst.lt
  obtain ⟨reports, hreports⟩ := exists_check_ok (hd.under ⟨flavors, []⟩) scope hfirst
    ⟨haliases.sorted, fun _ => Iff.rfl⟩ haliases.sites release
  -- all reports are about the same first lock, so they are all kept or all dropped
  have hfunction : ∀ r ∈ reports, r.firstFunction? = some name := by
    intro r hr
    obtain ⟨hit, htold⟩ := told_of_check hreports r hr
    cases htold with
    | doubleLock htext =>
      obtain ⟨name', hname', htext⟩ := bind_eq_ok.mp htext
      obtain ⟨place, -, htext⟩ := bind_eq_ok.mp htext
      have hsame := Except.ok.inj (hname.symm.trans hname')
      rw [Report.firstFunction?, ← pure_eq_ok.mp htext, hsame]
  rw [hreports]
  show _ = Except.ok (reports.filter d.policy.keeps)
  by_cases hsuppressed : d.policy.isSuppressed name = true
  · have hnone : reports.filter d.policy.keeps = [] := by
      rw [List.filter_eq_nil_iff]
      intro r hr
      simp [Policy.keeps, hfunction r hr, hsuppressed]
    unfold check
    rw [hnone, hname, ok_bind, if_pos hsuppressed]
    rfl
  · have hall : reports.filter d.policy.keeps = reports := by
      rw [List.filter_eq_self]
      intro r hr
      simp [Policy.keeps, hfunction r hr, hsuppressed]
    rw [hall, ← hreports]
    unfold check
    -- the two policies give the same answer here
    show (d.program.functionName first.inst >>= _) = (d.program.functionName first.inst >>= _)
    rw [hname, ok_bind, ok_bind, if_neg hsuppressed]
    rfl

theorem checkLocal_eq_filter {group : List LockSite} (hgroup : d.IsGroup group) {first : LockSite}
    (hfirst : first ∈ group) (released : List (InstId × List InstId)) :
    d.checkLocal released group first = List.filter d.policy.keeps <$>
      (d.under ⟨flavors, []⟩).checkLocal released group first := by
  unfold checkLocal
  -- which locks are the same is not up to the policy
  show (d.sameLock group first >>= _) = _ <$> (d.sameLock group first >>= _)
  cases haliases : d.sameLock group first with
  | error e => rfl
  | ok aliases =>
    rw [ok_bind, ok_bind]
    by_cases hnone : aliases.isEmpty = true
    · rw [if_pos hnone, if_pos hnone]
      rfl
    · rw [if_neg hnone, if_neg hnone]
      exact check_eq_filter hd flavors .here (hgroup.sites first hfirst)
        (hgroup.sublist (sublist_of_filterM haliases)) _

theorem checkGlobal_eq_filter {group : List LockSite} (hgroup : d.IsGroup group) {first : LockSite}
    (hfirst : first ∈ group) (released : List (InstId × List InstId)) :
    d.checkGlobal released group first = List.filter d.policy.keeps <$>
      (d.under ⟨flavors, []⟩).checkGlobal released group first :=
  check_eq_filter hd flavors .everywhere (hgroup.sites first hfirst) (hgroup.sublist List.filter_sublist) _

omit hd in
/-- The reports on a group are filtered site by site. -/
theorem checkGroup_eq_filter {one other : List LockSite → LockSite → Except Fault (List Report)}
    {group : List LockSite} (h : ∀ first ∈ group, one group first = List.filter d.policy.keeps <$> other group first) :
    checkGroup one group = List.filter d.policy.keeps <$> checkGroup other group := by
  unfold checkGroup
  -- a group of one is not checked under either policy
  split
  · rfl
  · rw [mapM_eq_map h]
    cases group.mapM (other group) with
    | error e => rfl
    | ok parts => exact congrArg Except.ok List.filter_flatten.symm

/-- Suppression takes reports out of those on the sites of a flavor, and changes nothing else. -/
theorem detectFlavor_eq_filter {sites : List LockSite} (hsites : d.IsGroup sites) :
    d.detectFlavor sites = List.filter d.policy.keeps <$> (d.under ⟨flavors, []⟩).detectFlavor sites := by
  unfold detectFlavor
  -- groups and releases are the same under both policies
  show (LockGroups.ofSites d.program.toTables sites >>= _) =
    _ <$> (LockGroups.ofSites d.program.toTables sites >>= _)
  cases hgroups : LockGroups.ofSites d.program.toTables sites with
  | error e => rfl
  | ok groups =>
    obtain ⟨places, hplaces, h⟩ := bind_eq_ok.mp hgroups
    cases h
    show (releasesOf d.program sites >>= _) = _ <$> (releasesOf d.program sites >>= _)
    cases releasesOf d.program sites with
    | error e => rfl
    | ok released =>
      rw [ok_bind, ok_bind]
      -- groups within functions, then groups across functions
      have hhere := mapM_eq_map fun g hg => checkGroup_eq_filter fun first hfirst =>
        checkLocal_eq_filter hd flavors (hsites.intra hplaces hg) hfirst released
      have heverywhere := mapM_eq_map fun g hg => checkGroup_eq_filter fun first hfirst =>
        checkGlobal_eq_filter hd flavors (hsites.inter hplaces hg) hfirst released
      rw [hhere, heverywhere]
      cases (LockGroups.ofPlaces places).intra.mapM fun g =>
          checkGroup ((d.under ⟨flavors, []⟩).checkLocal released) g.2 with
      | error e => rfl
      | ok here =>
        cases (LockGroups.ofPlaces places).inter.mapM fun g =>
            checkGroup ((d.under ⟨flavors, []⟩).checkGlobal released) g.2 with
        | error e => rfl
        | ok everywhere =>
          refine congrArg Except.ok ?_
          rw [List.filter_append, List.filter_flatten, List.filter_flatten]

omit hd in
/-- A lock call that cannot be parsed is reported whether or not its function is suppressed. -/
theorem filter_keeps_unparsed (policy : Policy) {us : List UnparsedSite} {texts : List Report}
    (h : us.mapM d.reportUnparsed = .ok texts) : texts.filter policy.keeps = texts := by
  rw [List.filter_eq_self]
  intro r hr
  obtain ⟨u, -, hu⟩ := (mem_of_mapM h).mp hr
  simp [Policy.keeps, (toldUnparsed_of_reportUnparsed hu).firstFunction?_eq_none]

omit flavors in
/-- Suppression takes out the reports on first locks in functions that are suppressed, whether or not the
analysis faults. -/
theorem detect_eq_filter :
    d.detect = Prod.map id (List.filter d.policy.keeps) <$> (d.under ⟨d.policy.flavors, []⟩).detect := by
  obtain ⟨found, hfound, -, hunparsed, -⟩ :=
    Tables.exists_lockSites hd.inRange hd.arranged d.policy.flavors
  obtain ⟨texts, htexts⟩ := exists_mapM_ok fun u hu => exists_reportUnparsed hd (hunparsed u hu)
  have hflavors := mapM_eq_map fun f (_ : f ∈ Flavor.all.filter d.policy.isEnabled) =>
    detectFlavor_eq_filter hd d.policy.flavors (isGroup_of_lockSites hd hfound f)
  unfold detect
  -- the same sites are looked at, and the same calls cannot be parsed
  show (d.program.lockSites d.policy.flavors >>= _) = _ <$> (d.program.lockSites d.policy.flavors >>= _)
  rw [hfound, ok_bind, ok_bind]
  show (found.unparsed.mapM d.reportUnparsed >>= _) = _ <$> (found.unparsed.mapM d.reportUnparsed >>= _)
  rw [htexts, ok_bind, ok_bind, hflavors]
  show _ = _ <$> ((Flavor.all.filter d.policy.isEnabled).mapM _ >>= _)
  cases (Flavor.all.filter d.policy.isEnabled).mapM fun f =>
      (d.under ⟨d.policy.flavors, []⟩).detectFlavor (found.ofFlavor f) with
  | error e => rfl
  | ok perFlavor =>
    refine congrArg Except.ok (Prod.ext rfl ?_)
    show texts ++ (perFlavor.map (List.filter d.policy.keeps)).flatten =
      (texts ++ perFlavor.flatten).filter d.policy.keeps
    rw [List.filter_append, filter_keeps_unparsed d.policy htexts, List.filter_flatten]

omit flavors in
theorem Ready.reports_eq_filter (policy : Policy) : d.program.reports d.oracle policy =
    List.filter policy.keeps <$> d.program.reports d.oracle ⟨policy.flavors, []⟩ := by
  rw [hd.reports_eq, hd.reports_eq, detect_eq_filter (hd.under policy)]
  show Prod.snd <$> Prod.map id (List.filter policy.keeps) <$> (d.under ⟨policy.flavors, []⟩).detect = _
  cases (d.under ⟨policy.flavors, []⟩).detect <;> rfl

end Suppression

/-! ### Flavors -/

section Selected

variable (policy : Policy) {unparsed : List (UnparsedSite × Report)} {alone : Flavor → List Report}
  (hunparsed : ∀ e ∈ unparsed, e.2.bugKind = "UnparsedLockSite")
  (halone : ∀ f, ∀ r ∈ alone f, r.bugKind = "DoubleLock")

include hunparsed halone

end Selected

/-- Suppression spares first locks and nothing else: the reports are those without suppressions, but for the
reports on a first lock in a function that is suppressed. -/
theorem reports_eq_filter_keeps {text : String} {p : Program} (hload : Program.load text = .ok p)
    (oracle : Oracle) (policy : Policy) :
    p.reports oracle policy = List.filter policy.keeps <$> p.reports oracle ⟨policy.flavors, []⟩ ∧
      (∀ reports, p.reports oracle policy = .ok reports → ∀ r ∈ reports, ∀ name,
        r.firstFunction? = some name → policy.isSuppressed name = false) ∧
        (p.ChainsEnd → (oracle = p.aliasing ∨ ∀ a b, ∃ r, oracle a b = .ok r) →
          ∃ reports, p.reports oracle policy = .ok reports) := by
  obtain ⟨d, -, hready, rfl, rfl, rfl⟩ := exists_ready hload oracle policy
  have heq := hready.reports_eq_filter d.policy
  refine ⟨heq, fun reports hreports r hr name hname => ?_, fun hends horacle => ?_⟩
  · rw [heq] at hreports
    obtain ⟨everything, -, rfl⟩ := map_eq_ok.mp hreports
    exact Policy.keeps_eq_true.mp (List.mem_filter.mp hr).2 name hname
  · -- a run that returns without suppressions returns with them
    obtain ⟨_, _, reports, hdetect, -⟩ := exists_detect hready hends ((hready.compares horacle).answers hends)
    exact ⟨reports, by rw [hready.reports_eq]; exact map_eq_ok.mpr ⟨_, hdetect, rfl⟩⟩

/-! ### A second lock in a function that is suppressed -/

/-- A lock that is known by its record type is acquired in `f` and again in its callee `g`, which also calls a
lock operation without a lock. -/
def lockedInCallee : String :=
  "[[[\"M\",[\"i64\"]]],[],[
    [\"f\",[\"*M\"],\"void\",[[\"s\",[
      \x7b\"op\":\"cast\",\"id\":\"x\",\"value\":\"%0\",\"ty\":\"*i64\"\x7d,
      \x7b\"op\":\"call\",\"callee\":\"lock_api::mutex::Mutex<T>::lock\",\"args\":[\"x\"]\x7d,
      \x7b\"op\":\"call\",\"callee\":\"g\",\"args\":[\"%0\"]\x7d]]]],
    [\"g\",[\"*M\"],\"void\",[[\"s\",[
      \x7b\"op\":\"call\",\"callee\":\"std::sync::mutex::Mutex<T>::lock\"\x7d,
      \x7b\"op\":\"cast\",\"id\":\"y\",\"value\":\"%0\",\"ty\":\"*i64\"\x7d,
      \x7b\"op\":\"call\",\"callee\":\"lock_api::mutex::Mutex<T>::lock\",\"args\":[\"y\"]\x7d]]]]]]"

/-- The tables of `lockedInCallee`. -/
def calleeTables : Tables where
  types := #[.void, .int 64, .record "M" [⟨1⟩], .pointer ⟨2⟩, .pointer ⟨1⟩]
  globals := #[]
  functions := #[⟨"f", [⟨3⟩], ⟨0⟩, [⟨0⟩]⟩, ⟨"g", [⟨3⟩], ⟨0⟩, [⟨1⟩]⟩,
    ⟨"lock_api::mutex::Mutex<T>::lock", [], ⟨0⟩, []⟩, ⟨"std::sync::mutex::Mutex<T>::lock", [], ⟨0⟩, []⟩]
  blocks := #[⟨"s", ⟨0⟩, [⟨0⟩, ⟨1⟩, ⟨2⟩]⟩, ⟨"s", ⟨1⟩, [⟨3⟩, ⟨4⟩, ⟨5⟩]⟩]
  insts := #[⟨.cast (.arg ⟨0⟩ 0), ⟨4⟩, ⟨0⟩, none⟩, ⟨.call (.direct ⟨2⟩) [.inst ⟨0⟩], ⟨0⟩, ⟨0⟩, none⟩,
    ⟨.call (.direct ⟨1⟩) [.arg ⟨0⟩ 0], ⟨0⟩, ⟨0⟩, none⟩, ⟨.call (.direct ⟨3⟩) [], ⟨0⟩, ⟨1⟩, none⟩,
    ⟨.cast (.arg ⟨1⟩ 0), ⟨4⟩, ⟨1⟩, none⟩, ⟨.call (.direct ⟨2⟩) [.inst ⟨4⟩], ⟨0⟩, ⟨1⟩, none⟩]

/-- The locks of `lockedInCallee`, and the call that cannot be parsed. -/
def calleeSites : LockSites where
  locks := [⟨⟨1⟩, .inst ⟨0⟩, .inst ⟨1⟩, .lockApiMutexLock⟩, ⟨⟨5⟩, .inst ⟨4⟩, .inst ⟨5⟩, .lockApiMutexLock⟩]
  unparsed := [⟨⟨3⟩, .stdMutexLock, .noArguments⟩]

/-- What is reported about the call that cannot be parsed. -/
def calleeCall : Report :=
  .unparsedSite "std::sync::Mutex::lock at g: <unknown location>: lock call without arguments"

/-- What is reported about the lock that `g` acquires again. -/
def calleeLock : Report :=
  .doubleLock .probably {
    first := ⟨"lock_api::Mutex::lock", "f", "f: <unknown location>"⟩
    seconds := [⟨"lock_api::Mutex::lock", "g", "g: <unknown location>"⟩]
    callchain := ["f: <unknown location>"] }

set_option maxRecDepth 4000 in
theorem exists_load_lockedInCallee : ∃ p, Program.load lockedInCallee = .ok p ∧ p.toTables = calleeTables :=
  Program.exists_load_of_chars rfl (by decide +kernel)

theorem lockSites_lockedInCallee : calleeTables.lockSites .all = .ok calleeSites :=
  toOption_eq_some.mp (by decide +kernel)

/-- Without suppressions both are reported. -/
theorem reports_lockedInCallee {p : Program} (hp : p.toTables = calleeTables) :
    p.reports p.aliasing ⟨.all, []⟩ = .ok [calleeCall, calleeLock] := by
  obtain rfl : p = .ofTables calleeTables := Program.ext_tables hp
  -- the walk from the lock in `f` goes into `g`
  have hlocks : (do
      (← ofProgram (.ofTables calleeTables) calleeTables.aliasing ⟨.all, []⟩).detectFlavor
        calleeSites.locks).toOption = some [calleeLock] := by
    decide +kernel
  obtain ⟨d, hd, hlocks⟩ := bind_eq_ok.mp (toOption_eq_some.mp hlocks)
  have hperFlavor : Flavor.all.mapM (fun f => d.detectFlavor (calleeSites.ofFlavor f)) =
      .ok [[], [], [calleeLock]] :=
    mapM_eq_ok.mpr (.cons rfl (.cons rfl (.cons hlocks .nil)))
  refine bind_eq_ok.mpr ⟨d, hd, ?_⟩
  obtain ⟨graph, -, h⟩ := bind_eq_ok.mp hd
  cases h
  exact bind_eq_ok.mpr ⟨_, bind_eq_ok.mpr ⟨calleeSites, lockSites_lockedInCallee,
    bind_eq_ok.mpr ⟨_, rfl, bind_eq_ok.mpr ⟨_, hperFlavor, rfl⟩⟩⟩, rfl⟩

/-- The report is about `f`, so it is taken out if `f` is suppressed. -/
theorem suppressed_lockedInCallee : ∃ p, Program.load lockedInCallee = .ok p ∧
    p.reports p.aliasing ⟨.all, ["f"]⟩ = .ok [calleeCall] := by
  obtain ⟨p, hload, hp⟩ := exists_load_lockedInCallee
  refine ⟨p, hload, ?_⟩
  rw [(reports_eq_filter_keeps hload p.aliasing ⟨.all, ["f"]⟩).1, reports_lockedInCallee hp]
  decide +kernel

/-- Both reports name a lock operation in `g`, and both are made although `g` is suppressed. -/
theorem suppressed_callee_reported : ∃ p, Program.load lockedInCallee = .ok p ∧
    Policy.isSuppressed ⟨.all, ["g"]⟩ "g" = true ∧
      p.reports p.aliasing ⟨.all, ["g"]⟩ = .ok [calleeCall, calleeLock] := by
  obtain ⟨p, hload, hp⟩ := exists_load_lockedInCallee
  obtain ⟨d, -, hready, rfl, horacle, -⟩ := exists_ready hload p.aliasing ⟨.all, ["g"]⟩
  refine ⟨d.program, hload, by decide +kernel, ?_⟩
  rw [← horacle, hready.reports_eq_filter, horacle, reports_lockedInCallee hp]
  decide +kernel

end Detector

end Relock
