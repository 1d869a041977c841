import Relock.Json.Basic
import Relock.Lock.Site
import Relock.Program.Lookup

/-!
# Reports

What an analysis has to say, in words: a lock acquired again, a lock call that could not be understood,
or the explicit drops of a guard.

* `Report.display`: a report as plain text;
* `Report.toJson`: a report as a JSON value.
-/

namespace Relock

/-- How likely a report is a fault of the program. -/
inductive Possibility where
  | probably
  | possibly
  | unknown
deriving DecidableEq, Repr

/-- The word for a possibility. -/
def Possibility.display : Possibility → String
  | .probably => "Probably"
  | .possibly => "Possibly"
  | .unknown => "Unknown"

/-- A lock acquisition in words. -/
structure SiteText where
  kind : String
  function : String
  location : String
deriving DecidableEq, Repr

/-- A lock acquisition in words. -/
def LockSite.toText (t : Tables) (s : LockSite) : Except Fault SiteText := do
  return ⟨s.kind.display, ← t.functionName s.inst, ← t.describe s.inst⟩

/-- A lock that is acquired again while its guard may be alive. -/
structure DoubleLock where
  first : SiteText
  seconds : List SiteText
  /-- The calls that lead from the first lock's function to that of the second ones; none if both are
  in one function. -/
  callchain : List String
deriving DecidableEq, Repr

/-- The explicit drops of the guard of a lock. -/
structure ManualDrop where
  function : String
  lock : String
  drops : List String
deriving DecidableEq, Repr

/-- A report. -/
inductive Report where
  | doubleLock (possibility : Possibility) (diagnosis : DoubleLock)
  | unparsedSite (diagnosis : String)
  | manualDrop (diagnosis : ManualDrop)
deriving DecidableEq, Repr

/-- A line for each text, one blank further in. -/
def indented (lines : List String) : String :=
  String.join (lines.map fun l => " " ++ l ++ "\n")

/-- A diagnosis as plain text. -/
def DoubleLock.display (d : DoubleLock) : String :=
  "Double Lock Happens! First Lock:\n" ++ indented [d.first.location] ++
    "Second Lock(s):\n" ++ indented (d.seconds.map SiteText.location) ++
    if d.callchain.isEmpty then "" else "Callchain:\n" ++ indented d.callchain

/-- A diagnosis as plain text. -/
def ManualDrop.display (d : ManualDrop) : String :=
  "Manual Drop! Lock:\n" ++ indented [d.lock] ++ "Drop(s):\n" ++ indented d.drops

/-- A lock acquisition as JSON. -/
def SiteText.toJson (s : SiteText) : Json :=
  .ofFields [("kind", .text s.kind), ("function", .text s.function), ("location", .text s.location)]

/-- A diagnosis as JSON. -/
def DoubleLock.toJson (d : DoubleLock) : Json :=
  .ofFields [("first_lock", d.first.toJson), ("second_locks", .array (d.seconds.map SiteText.toJson)),
    ("callchain", .array (d.callchain.map .text))]

/-- A diagnosis as JSON. -/
def ManualDrop.toJson (d : ManualDrop) : Json :=
  .ofFields [("function", .text d.function), ("lock", .text d.lock),
    ("drops", .array (d.drops.map .text))]

namespace Report

/-- What a report is about. -/
def bugKind : Report → String
  | .doubleLock .. => "DoubleLock"
  | .unparsedSite _ => "UnparsedLockSite"
  | .manualDrop _ => "ManualDrop"

/-- How likely a report is a fault. -/
def possibility : Report → Possibility
  | .doubleLock p _ => p
  | .unparsedSite _ => .unknown
  | .manualDrop _ => .unknown

/-- Why a report is made. -/
def explanation : Report → String
  | .doubleLock .. => "The first lock is not released when acquiring the second lock"
  | .unparsedSite _ => "The lock call does not have the expected arguments and is not analyzed"
  | .manualDrop _ => "The guard is released by an explicit drop"

/-- A report as plain text. -/
def display : Report → String
  | .doubleLock _ d => d.display
  | .unparsedSite d => "Unparsed Lock Site: " ++ d ++ "\n"
  | .manualDrop d => d.display

/-- The diagnosis of a report as JSON. -/
def diagnosis : Report → Json
  | .doubleLock _ d => d.toJson
  | .unparsedSite d => .text d
  | .manualDrop d => d.toJson

/-- A report as JSON. -/
def toJson (r : Report) : Json :=
  .ofFields [(r.bugKind, .ofFields [("bug_kind", .text r.bugKind),
    ("possibility", .text r.possibility.display), ("diagnosis", r.diagnosis),
    ("explanation", .text r.explanation)])]

end Report

end Relock
