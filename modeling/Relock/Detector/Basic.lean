import Relock.Alias
import Relock.Detector.Walk
import Relock.Guard.Release
import Relock.Lock.Identity
import Relock.Policy
import Relock.Report.Basic

/-!
# Finding locks that are acquired twice

The double-lock detector. The lock sites of each flavor are grouped by what is known about their locks, into
intra-procedural groups, where all that is known is the type of the lock, and inter-procedural groups, where the
lock is a field of a record. From every site of a group with more than one, a walk looks for the other ones: the
local check stays in the function of the site and asks the alias oracle which of them are the same lock, the
global check also follows calls, and takes all sites of the group for the same lock.

* `Detector.check`: the reports of one walk;
* `Detector.detectFlavor`: the reports for the sites of one flavor;
* `Detector.detect`: all reports on a program.
-/

namespace Relock

/-- What a detector works with. -/
structure Detector where
  program : Program
  graph : CallGraph
  oracle : Oracle
  policy : Policy

/-- Which acquisitions a walk looks for. -/
inductive Scope where
  /-- Those in the function of the first lock. -/
  | here
  /-- Those in the functions that it calls as well. -/
  | everywhere
deriving DecidableEq, Repr

namespace Detector

/-- A detector for a program. -/
def ofProgram (p : Program) (oracle : Oracle) (policy : Policy) : Except Fault Detector := do
  return ⟨p, ← CallGraph.ofTables p.toTables, oracle, policy⟩

/-- The report on a lock that is acquired again. Reads that do not nest may only block if a writer
waits. -/
def report (d : Detector) (first : LockSite) (hit : Hit) : Except Fault Report := do
  let shared := first.kind.access == .shared && hit.seconds.all fun s => s.kind.access == .shared
  return .doubleLock (if shared then .possibly else .probably) {
    first := ← first.toText d.program.toTables
    seconds := ← hit.seconds.mapM (LockSite.toText d.program.toTables)
    callchain := ← hit.callchain.mapM d.program.describe }

/-- The walk from a lock. -/
def walk (d : Detector) (scope : Scope) (first : LockSite) (aliases : List LockSite)
    (release : List InstId) : Except Fault Walk := do
  let acquirers ← match scope with
    | .here => pure []
    | .everywhere => acquirersOf d.program.toTables first aliases
  return ⟨d.program.toTables, d.graph, first, aliases, release, acquirers⟩

/-- The reports on a lock, given its alias set, by instruction, and its release set. There are none if its
function is suppressed. -/
def check (d : Detector) (scope : Scope) (first : LockSite) (aliases : List LockSite)
    (release : List InstId) : Except Fault (List Report) := do
  if d.policy.isSuppressed (← d.program.functionName first.inst) then return []
  (← (← d.walk scope first aliases release).hits).mapM (d.report first)

/-- Sites by instruction. Of several sites with one instruction the last one counts. -/
def byInst (sites : List LockSite) : List LockSite :=
  sites.foldl (fun kept s => insertBy (fun a b => decide (a.inst.index < b.inst.index)) s
    (kept.filter fun other => other.inst != s.inst)) []

/-- The alias set of the local check: the locks of a group that the oracle takes for the lock of `first`. -/
def sameLock (d : Detector) (group : List LockSite) (first : LockSite) :
    Except Fault (List LockSite) :=
  group.filterM fun other => do
    if other.inst == first.inst then return false
    d.oracle.must first.target other.target

/-- The alias set of the global check: all other sites of a group. -/
def others (group : List LockSite) (first : LockSite) : List LockSite :=
  group.filter fun other => other.inst != first.inst

/-- The local check: the reports on a site of an intra-procedural group. -/
def checkLocal (d : Detector) (released : List (InstId × List InstId)) (group : List LockSite)
    (first : LockSite) : Except Fault (List Report) := do
  let aliases ← d.sameLock group first
  if aliases.isEmpty then return []
  d.check .here first aliases ((released.lookup first.inst).getD [])

/-- The global check: the reports on a site of an inter-procedural group. -/
def checkGlobal (d : Detector) (released : List (InstId × List InstId)) (group : List LockSite)
    (first : LockSite) : Except Fault (List Report) :=
  d.check .everywhere first (others group first) ((released.lookup first.inst).getD [])

/-- The reports on all sites of a group with more than one. -/
def checkGroup (one : List LockSite → LockSite → Except Fault (List Report))
    (group : List LockSite) : Except Fault (List Report) := do
  if group.length < 2 then return []
  return (← group.mapM (one group)).flatten

/-- The release sets of lock sites, by the instruction of the site. -/
def releasesOf (p : Program) (sites : List LockSite) :
    Except Fault (List (InstId × List InstId)) :=
  sites.mapM fun s => do return (s.inst, ← Guard.releases p s.inst s.guard)

/-- The reports on the lock sites of one flavor, which stand in the order of their instructions. Intra-procedural
groups are checked before inter-procedural ones. -/
def detectFlavor (d : Detector) (sites : List LockSite) : Except Fault (List Report) := do
  let groups ← LockGroups.ofSites d.program.toTables sites
  let released ← releasesOf d.program sites
  let here ← groups.intra.mapM fun g => checkGroup (d.checkLocal released) g.2
  let everywhere ← groups.inter.mapM fun g => checkGroup (d.checkGlobal released) g.2
  return here.flatten ++ everywhere.flatten

/-- The report on a lock call that cannot be parsed. -/
def reportUnparsed (d : Detector) (s : UnparsedSite) : Except Fault Report := do
  return .unparsedSite
    (s.kind.display ++ " at " ++ (← d.program.describe s.inst) ++ ": " ++ s.error.message)

/-- All reports on a program, with the number of lock sites looked at. -/
def detect (d : Detector) : Except Fault (Nat × List Report) := do
  let sites ← d.program.lockSites d.policy.flavors
  let unparsed ← sites.unparsed.mapM d.reportUnparsed
  let perFlavor ← (Flavor.all.filter d.policy.isEnabled).mapM fun f => d.detectFlavor (sites.ofFlavor f)
  return (sites.locks.length, unparsed ++ perFlavor.flatten)

end Detector

end Relock
