import Relock.Proofs.Builder.Arrangement
import Relock.Proofs.Detector.Safety
import Relock.Proofs.Guard.Bare

/-!
# Phis and debug markers do not matter

What a detector reports does not depend on the values that phis and debug markers name. Each part of the
analysis is shown to give the same on the program without these values: the comparison of pointers, the call
graph, the lock sites and their places, the walk from a lock and the search through calls, and the releases
of guards. Two programs that differ in such values only therefore have the same reports.

* `Tables.aliasing_bare`, `Tables.lockSites_bare`, `LockGroups.ofSites_bare`, `CallGraph.ofTables_bare`: what
  the analysis starts from;
* `Walk.hits_bare`: what a walk meets;
* `Detector.detect_bare`: all reports on a program;
* `Detector.detect_eq_of_bare_eq`: programs that differ in the values of markers only.
-/

namespace Relock

namespace Tables

variable {t : Tables}

/-! ## Values -/

@[simp] theorem address_bare (v : Value) : t.bare.address v = t.address v := by
  unfold address
  rw [derivation_bare]

/-- An object is identified by the kind of its instruction, which no phi shares. -/
@[simp] theorem isIdentified_bare (v : Value) : t.bare.isIdentified v = t.isIdentified v := by
  cases v with
  | inst i => exact kindOf_bare_bind (fun k => by cases k <;> rfl) i
  | _ => rfl

/-- **The structural oracle gives the same answers.** -/
@[simp] theorem aliasing_bare : t.bare.aliasing = t.aliasing := by
  -- addresses and identified objects are all that is compared
  funext a b
  simp [aliasing]

/-! ## Lock sites -/

@[simp] theorem parseSite_bare (i : InstId) (k : LockKind) : t.bare.parseSite i k = t.parseSite i k := by
  unfold parseSite
  refine inst_bare_bind (fun x => ?_) i
  -- the arguments are read off the call, which no marker is
  have hargs : x.bare.kind.args? = x.kind.args? := InstKind.args?_bare x.kind
  rw [hargs]
  rfl

@[simp] theorem lockKindAt_bare (flavors : FlavorSet) (i : InstId) :
    t.bare.lockKindAt flavors i = t.lockKindAt flavors i := by
  unfold lockKindAt
  rw [calledName_bare]

theorem lockSitesAmong_bare (flavors : FlavorSet) (is : List InstId) :
    t.bare.lockSitesAmong flavors is = t.lockSitesAmong flavors is := by
  induction is with
  | nil => rfl
  | cons i is ih =>
    unfold lockSitesAmong
    simp only [lockKindAt_bare, parseSite_bare, ih]

/-- **The lock sites are the same.** -/
@[simp] theorem lockSites_bare (flavors : FlavorSet) : t.bare.lockSites flavors = t.lockSites flavors :=
  bind_congr fun iss => lockSitesAmong_bare flavors iss.flatten

/-! ## Places -/

/-- The record that a pointer points to is read off types and casts. -/
@[simp] theorem pointedRecord_bare (v : Value) : t.bare.pointedRecord v = t.pointedRecord v := by
  unfold pointedRecord
  simp only [stripCasts_bare, valueType_bare]
  rfl

/-- **A lock has the same identity.** -/
@[simp] theorem identityOf_bare (v : Value) : t.bare.identityOf v = t.identityOf v := by
  cases v with
  | inst i =>
    -- a lock is known by its field through a cast or a field address only
    refine kindOf_bare_bind (fun k => ?_) i
    cases k with
    | fieldAddr base indices =>
      show (t.bare.pointedRecord base >>= _) = _
      rw [pointedRecord_bare]
    | cast v =>
      show (t.bare.pointedRecord v >>= _) = _
      rw [pointedRecord_bare]
    | _ => rfl
  | _ => rfl

@[simp] theorem placeOf_bare (s : LockSite) : t.bare.placeOf s = t.placeOf s := by
  unfold placeOf
  simp only [identityOf_bare, functionOf_bare, valueType_bare]

/-! ## Calls -/

theorem callSitesAmong_bare (caller : FunctionId) (is : List InstId) :
    t.bare.callSitesAmong caller is = t.callSitesAmong caller is := by
  induction is with
  | nil => rfl
  | cons i is ih =>
    unfold callSitesAmong
    simp only [calledFunction_bare, ih]

@[simp] theorem callSites_bare : t.bare.callSites = t.callSites := by
  have hcalls : t.bare.callSitesOf = t.callSitesOf := by
    funext caller
    exact bind_congr fun is => callSitesAmong_bare caller is
  unfold callSites
  rw [hcalls]
  rfl

end Tables

/-- Sites are grouped alike, both within functions and across them. -/
@[simp] theorem LockGroups.ofSites_bare {t : Tables} (sites : List LockSite) :
    LockGroups.ofSites t.bare sites = LockGroups.ofSites t sites := by
  unfold LockGroups.ofSites
  simp only [Tables.placeOf_bare]

@[simp] theorem LockSite.toText_bare {t : Tables} (s : LockSite) : s.toText t.bare = s.toText t := by
  unfold LockSite.toText
  simp only [Tables.functionName_bare, Tables.describe_bare]

namespace CallGraph

/-- **The call graph is the same.** -/
@[simp] theorem ofTables_bare {t : Tables} : CallGraph.ofTables t.bare = CallGraph.ofTables t := by
  unfold ofTables
  rw [Tables.callSites_bare]
  rfl

/-- The backtrace asks for the functions of call sites only. -/
theorem Search.chainFrom_bare {t : Tables} (parents : List (FunctionId × InstId)) (root : FunctionId)
    (unseen : List FunctionId) (f : FunctionId) (later : List InstId) :
    chainFrom t.bare parents root unseen f later = chainFrom t parents root unseen f later := by
  fun_induction chainFrom t parents root unseen f later with
  | case1 unseen f later hnone =>
    rw [chainFrom, hnone]
  | case2 unseen f later site hsome hmem ih =>
    rw [chainFrom, hsome]
    simp only [hmem, if_true, Tables.functionOf_bare]
    refine bind_congr fun caller => ?_
    rw [ih caller]
  | case3 unseen f later site hsome hmem =>
    rw [chainFrom, hsome]
    simp only [hmem, if_false]

@[simp] theorem Search.chain_bare {t : Tables} (parents : List (FunctionId × InstId)) (root found : FunctionId) :
    chain t.bare parents root found = chain t parents root found :=
  chainFrom_bare parents root _ found []

end CallGraph

/-! ## The walk from a lock -/

theorem acquirersOf_bare {t : Tables} (first : LockSite) (aliases : List LockSite) :
    acquirersOf t.bare first aliases = acquirersOf t first aliases := by
  unfold acquirersOf
  simp only [Tables.functionOf_bare]

namespace Walk

/-- The same walk without the values of phis and debug markers. -/
def bare (w : Walk) : Walk := { w with tables := w.tables.bare }

variable {w : Walk}

theorem visitCall_bare (i : InstId) : w.bare.visitCall i = w.visitCall i := by
  unfold visitCall bare
  simp only [Tables.functionOf_bare, CallGraph.Search.chain_bare]

theorem visit_bare (i : InstId) : w.bare.visit i = w.visit i := by
  unfold visit
  rw [visitCall_bare]
  rfl

/-- **Step lemma**: a block gets the same verdict, since markers are passed over in both programs. -/
theorem scan_bare (is : List InstId) : w.bare.scan is = w.scan is :=
  scan_congr Tables.isSkipped_bare visit_bare is

theorem entered_bare (b : BlockId) : w.bare.entered b = w.entered b := by
  unfold entered bare
  simp only [Tables.successors_bare, Tables.isLandingPadBlock_bare]

/-- **Run lemma**: the worklists go alike, block by block. -/
theorem run_bare (fresh : List BlockId) (queue : List (BlockId × Nat)) :
    w.bare.run fresh queue = w.run fresh queue := by
  -- blocks list the same instructions, bare or not
  have hblock (b : BlockId) : w.bare.tables.block b = w.tables.block b := rfl
  exact run_congr hblock scan_bare entered_bare fresh queue

/-- **A walk meets the same second locks.** -/
theorem hits_bare : w.bare.hits = w.hits := by
  unfold hits
  show (w.tables.bare.inst w.first.inst >>= _) = _
  refine Tables.inst_bare_bind (fun x => ?_) w.first.inst
  refine bind_congr fun block => ?_
  exact run_bare _ _

end Walk

/-! ## Reports -/

namespace Detector

/-- The same detector without the values of phis and debug markers. -/
def bare (d : Detector) : Detector := { d with program := d.program.bare }

variable {d : Detector}

theorem report_bare (first : LockSite) (hit : Hit) : d.bare.report first hit = d.report first hit := by
  have hsites : LockSite.toText d.program.toTables.bare = LockSite.toText d.program.toTables :=
    funext LockSite.toText_bare
  have hcalls : d.program.toTables.bare.describe = d.program.describe := funext Tables.describe_bare
  unfold report
  show (LockSite.toText d.program.toTables.bare first >>= fun _ =>
    hit.seconds.mapM (LockSite.toText d.program.toTables.bare) >>= fun _ =>
      hit.callchain.mapM d.program.toTables.bare.describe >>= _) = _
  rw [hsites, hcalls]

/-- The walk is the same one without the values of markers. -/
theorem walk_bare (scope : Scope) (first : LockSite) (aliases : List LockSite) (release : List InstId) :
    d.bare.walk scope first aliases release = Walk.bare <$> d.walk scope first aliases release := by
  unfold walk
  cases scope with
  | here => rfl
  | everywhere =>
    show (acquirersOf d.program.toTables.bare first aliases >>= _) =
      _ <$> (acquirersOf d.program.toTables first aliases >>= _)
    rw [acquirersOf_bare]
    cases acquirersOf d.program.toTables first aliases <;> rfl

/-- A first lock has the same reports. -/
theorem check_bare (scope : Scope) (first : LockSite) (aliases : List LockSite) (release : List InstId) :
    d.bare.check scope first aliases release = d.check scope first aliases release := by
  unfold check
  show (d.program.toTables.bare.functionName first.inst >>= _) = _
  rw [Tables.functionName_bare]
  refine bind_congr fun name => ?_
  show (if d.policy.isSuppressed name = true then _ else _) = _
  -- a suppressed function is not walked through at all
  split
  · rfl
  · show (d.bare.walk scope first aliases release >>= _) = _
    rw [walk_bare]
    cases d.walk scope first aliases release with
    | error e => rfl
    | ok w =>
      show (w.bare.hits >>= fun hits => hits.mapM (d.bare.report first)) = w.hits >>= _
      rw [Walk.hits_bare, show d.bare.report first = d.report first from funext (report_bare first)]

theorem checkLocal_bare (released : List (InstId × List InstId)) :
    d.bare.checkLocal released = d.checkLocal released := by
  funext group first
  unfold checkLocal
  simp only [check_bare]
  rfl

theorem checkGlobal_bare (released : List (InstId × List InstId)) :
    d.bare.checkGlobal released = d.checkGlobal released := by
  funext group first
  exact check_bare ..

section Releases

variable (hrange : d.program.InRange) (hends : d.program.ChainsEnd)

include hrange hends

theorem releasesOf_bare (sites : List LockSite) : releasesOf d.program.bare sites = releasesOf d.program sites := by
  unfold releasesOf
  simp only [Guard.releases_bare hrange hends]

theorem detectFlavor_bare (sites : List LockSite) : d.bare.detectFlavor sites = d.detectFlavor sites := by
  unfold detectFlavor
  show (LockGroups.ofSites d.program.toTables.bare sites >>= fun _ =>
    releasesOf d.program.bare sites >>= _) = _
  simp only [LockGroups.ofSites_bare, releasesOf_bare hrange hends, checkLocal_bare, checkGlobal_bare]

/-- A detector reports the same without the values that phis and debug markers name. -/
theorem detect_bare : d.bare.detect = d.detect := by
  -- a lock call that cannot be parsed is shown by its location
  have hunparsed : d.bare.reportUnparsed = d.reportUnparsed := by
    funext u
    show (d.program.toTables.bare.describe u.inst >>= _) = _
    rw [Tables.describe_bare]
    rfl
  unfold detect
  show (d.program.toTables.bare.lockSites d.policy.flavors >>= _) = _
  simp only [Tables.lockSites_bare, hunparsed, detectFlavor_bare hrange hends]
  rfl

end Releases

/-- Nothing else is left of a detector than its program, oracle and policy. -/
theorem bare_eq_bare {d' : Detector} (hd : d.Ready) (hd' : d'.Ready)
    (hprogram : d.program.toTables.bare = d'.program.toTables.bare) (horacle : d.oracle = d'.oracle)
    (hpolicy : d.policy = d'.policy) : d.bare = d'.bare := by
  -- a ready detector has the call graph of its program, and phis and debug markers are no calls
  have hgraph : d.graph = d'.graph := by
    apply Except.ok.inj
    rw [← hd.graph, ← hd'.graph, ← CallGraph.ofTables_bare, hprogram, CallGraph.ofTables_bare]
  have hbare : d.program.bare = d'.program.bare := Program.ext_tables hprogram
  unfold bare
  rw [hbare, hgraph, horacle, hpolicy]

/-- Two programs that are built step by step and differ in nothing but the values that phis and debug markers
name have the same reports. -/
theorem detect_eq_of_bare_eq {steps steps' : List Step} {b b' : Builder}
    (hb : Builder.empty.runAll steps = .ok b) (hb' : Builder.empty.runAll steps' = .ok b')
    (hrange : b.finish.InRange) (hrange' : b'.finish.InRange) (hends : b.finish.ChainsEnd)
    (hsame : b.finish.toTables.bare = b'.finish.toTables.bare) {oracle oracle' : Oracle}
    (horacle : oracle = b.finish.aliasing ∧ oracle' = b'.finish.aliasing ∨
      oracle = oracle' ∧ ∀ v w, ∃ r, oracle v w = .ok r) (policy : Policy) :
    ∃ d d' found, ofProgram b.finish oracle policy = .ok d ∧ ofProgram b'.finish oracle' policy = .ok d' ∧
      d.detect = .ok found ∧ d'.detect = .ok found := by
  obtain ⟨d, hd, hready, hp, rfl, rfl⟩ :=
    exists_ready_of_arranged hrange (Builder.arranged_of_runAll hb) oracle policy
  obtain ⟨d', hd', hready', hp', rfl, hpolicy⟩ :=
    exists_ready_of_arranged hrange' (Builder.arranged_of_runAll hb') oracle' d.policy
  rw [← hp] at hends hsame horacle
  rw [← hp'] at hsame horacle
  -- whether chains end is the same question about both programs
  have hends' : d'.program.ChainsEnd := by
    rw [← Tables.chainsEnd_bare, ← hsame, Tables.chainsEnd_bare]
    exact hends
  -- pointers are compared in the same way, since the values of markers do not lead anywhere
  have horacles : d.oracle = d'.oracle := by
    rcases horacle with ⟨h, h'⟩ | ⟨h, -⟩
    · rw [h, h', ← Tables.aliasing_bare, hsame, Tables.aliasing_bare]
    · exact h
  -- so both detectors answer, and one answer is enough
  have hanswers : d.Answers :=
    (hready.compares (horacle.imp And.left And.right)).answers hends
  obtain ⟨sites, parts, reports, hdetect, -⟩ := exists_detect hready hends hanswers
  refine ⟨d, d', _, hd, hd', hdetect, ?_⟩
  rw [← detect_bare hready'.inRange hends', ← bare_eq_bare hready hready' hsame horacles hpolicy.symm,
    detect_bare hready.inRange hends, hdetect]

/-! ### A guard that is named by markers -/

/-- A lock is acquired twice, and a phi and a debug marker name values in between. -/
def markedSteps (incoming : List (Value × BlockId)) (operands : List Value) : List Step :=
  [.pointer .word, .function "f" [⟨2⟩] .void, .function "lock_api::mutex::Mutex<T>::lock" [⟨2⟩] .word,
    .block ⟨0⟩ "s", .call ⟨0⟩ ⟨1⟩ [.arg ⟨0⟩ 0], .push ⟨0⟩ (.phi incoming) .word,
    .push ⟨0⟩ (.debug operands) .void, .call ⟨0⟩ ⟨1⟩ [.arg ⟨0⟩ 0]]

/-- The tables that `markedSteps` make. -/
def markedTables (incoming : List (Value × BlockId)) (operands : List Value) : Tables where
  types := #[.void, .int 64, .pointer ⟨1⟩]
  globals := #[]
  functions := #[⟨"f", [⟨2⟩], ⟨0⟩, [⟨0⟩]⟩, ⟨"lock_api::mutex::Mutex<T>::lock", [⟨2⟩], ⟨1⟩, []⟩]
  blocks := #[⟨"s", ⟨0⟩, [⟨0⟩, ⟨1⟩, ⟨2⟩, ⟨3⟩]⟩]
  insts := #[⟨.call (.direct ⟨1⟩) [.arg ⟨0⟩ 0], ⟨1⟩, ⟨0⟩, none⟩, ⟨.phi incoming, ⟨1⟩, ⟨0⟩, none⟩,
    ⟨.debug operands, ⟨0⟩, ⟨0⟩, none⟩, ⟨.call (.direct ⟨1⟩) [.arg ⟨0⟩ 0], ⟨1⟩, ⟨0⟩, none⟩]

/-- The steps succeed, whatever values the markers name. -/
theorem runAll_markedSteps (incoming : List (Value × BlockId)) (operands : List Value) :
    ∃ b, Builder.empty.runAll (markedSteps incoming operands) = .ok b ∧
      b.tables = markedTables incoming operands :=
  ⟨_, rfl, rfl⟩

/-- The guard has two users in one program and none in the other one, and the reports are the same. -/
theorem detect_markedSteps : ∃ b b' d d' found,
    Builder.empty.runAll (markedSteps [(.inst ⟨0⟩, ⟨0⟩)] [.inst ⟨0⟩]) = .ok b ∧
      Builder.empty.runAll (markedSteps [] []) = .ok b' ∧ b.finish.users (.inst ⟨0⟩) = [⟨1⟩, ⟨2⟩] ∧
        b'.finish.users (.inst ⟨0⟩) = [] ∧ ofProgram b.finish b.finish.aliasing .default = .ok d ∧
          ofProgram b'.finish b'.finish.aliasing .default = .ok d' ∧ d.detect = .ok found ∧
            d'.detect = .ok found := by
  obtain ⟨b, hb, ht⟩ := runAll_markedSteps [(.inst ⟨0⟩, ⟨0⟩)] [.inst ⟨0⟩]
  obtain ⟨b', hb', ht'⟩ := runAll_markedSteps [] []
  have hp : b.finish = .ofTables (markedTables [(.inst ⟨0⟩, ⟨0⟩)] [.inst ⟨0⟩]) := Program.ext_tables ht
  have hp' : b'.finish = .ofTables (markedTables [] []) := Program.ext_tables ht'
  have hrange : b.finish.InRange := by
    rw [hp]
    decide +kernel
  have hrange' : b'.finish.InRange := by
    rw [hp']
    decide +kernel
  have hends : b.finish.ChainsEnd := by
    rw [Tables.chainsEnd_iff hrange, hp]
    decide +kernel
  -- the two tables differ in the phi and in the debug marker only
  have hsame : b.finish.toTables.bare = b'.finish.toTables.bare := by
    rw [hp, hp']
    decide +kernel
  obtain ⟨d, d', found, hd, hd', hdetect, hdetect'⟩ :=
    detect_eq_of_bare_eq hb hb' hrange hrange' hends hsame (.inl ⟨rfl, rfl⟩) .default
  refine ⟨b, b', d, d', found, hb, hb', ?_, ?_, hd, hd', hdetect, hdetect'⟩
  · rw [hp, Program.users_eq]
    rfl
  · rw [hp', Program.users_eq]
    rfl

end Detector

end Relock
