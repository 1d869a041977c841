import Relock.Grouping
import Relock.Lock.Symbol
import Relock.Policy
import Relock.Program.Lookup

/-!
# Lock sites

The calls of lock operations in the bodies of a program, with the lock that each acquires and the value that its
guard lives in. A call whose arguments do not fit the layout of its operation cannot be parsed, and is collected
with the reason.

* `Tables.parseSite`: the lock and the guard of one call;
* `Tables.lockSites`: all lock sites of the flavors that are analysed;
* `LockSites.ofFlavor`: those of one flavor, by instruction.
-/

namespace Relock

/-- A lock acquisition. -/
structure LockSite where
  inst : InstId
  /-- The lock that is acquired. -/
  target : Value
  /-- Where the guard lives: the call itself, or its first argument. -/
  guard : Value
  kind : LockKind
deriving DecidableEq, Repr

/-- Why a call of a lock operation cannot be parsed. -/
inductive SiteError where
  | noArguments
  /-- There is no result and no room for a slot for the guard. -/
  | missingOutParam (args : Nat)
deriving DecidableEq, Repr

/-- The wording of a `SiteError`. -/
def SiteError.message : SiteError → String
  | .noArguments => "lock call without arguments"
  | .missingOutParam args =>
    "void lock call with " ++ toString args ++ " argument(s), expected a guard slot and a lock"

/-- The lock and the guard of a call with arguments `first` and `rest`, for each layout. -/
def Layout.locate (isVoid : Bool) (call first : Value) (rest : List Value) :
    Layout → Except SiteError (Value × Value)
  | .receiver => .ok (first, call)
  | .outParam =>
    if !isVoid then .ok (first, call)
    else
      match rest with
      | [] => .error (.missingOutParam 1)
      | second :: _ => .ok (second, first)
  | .outParamTarget =>
    if !isVoid then .ok (first, call)
    else
      -- the lock is the second argument here too, but the guard is taken to be the call
      match rest with
      | [] => .error (.missingOutParam 1)
      | second :: _ => .ok (second, call)

/-- The lock site of a call of the operation `k`. -/
def Tables.parseSite (t : Tables) (i : InstId) (k : LockKind) :
    Except Fault (Except SiteError LockSite) := do
  let x ← t.inst i
  match x.kind.args?.getD [] with
  | [] => return .error .noArguments
  | first :: rest =>
    match k.layout.locate (← t.isVoid x.ty) (.inst i) first rest with
    | .ok (target, guard) => return .ok ⟨i, target, guard, k⟩
    | .error e => return .error e

/-- A call of a lock operation that cannot be parsed. -/
structure UnparsedSite where
  inst : InstId
  kind : LockKind
  error : SiteError
deriving DecidableEq, Repr

/-- The calls of lock operations of a program, in layout order. -/
structure LockSites where
  locks : List LockSite
  unparsed : List UnparsedSite
deriving DecidableEq, Repr

namespace LockSites

/-- No calls. -/
def empty : LockSites := ⟨[], []⟩

/-- One more call in front. -/
def cons (i : InstId) (k : LockKind) (site : Except SiteError LockSite) (s : LockSites) : LockSites :=
  match site with
  | .ok site => { s with locks := site :: s.locks }
  | .error e => { s with unparsed := ⟨i, k, e⟩ :: s.unparsed }

/-- The lock sites of one flavor, by instruction. -/
def ofFlavor (s : LockSites) (f : Flavor) : List LockSite :=
  sortBy (fun a b => decide (a.inst.index < b.inst.index))
    (s.locks.filter fun site => site.kind.flavor == f)

end LockSites

/-- The lock operation that an instruction calls, if its flavor is in the set. -/
def Tables.lockKindAt (t : Tables) (flavors : FlavorSet) (i : InstId) :
    Except Fault (Option LockKind) := do
  match ← t.calledName i with
  | none => return none
  | some name => return (LockKind.ofSymbol name).filter fun k => flavors.contains k.flavor

/-- The calls of lock operations among instructions. -/
def Tables.lockSitesAmong (t : Tables) (flavors : FlavorSet) : List InstId → Except Fault LockSites
  | [] => .ok .empty
  | i :: is => do
    match ← t.lockKindAt flavors i with
    | none => t.lockSitesAmong flavors is
    | some k => return .cons i k (← t.parseSite i k) (← t.lockSitesAmong flavors is)

/-- The calls of lock operations in all bodies. -/
def Tables.lockSites (t : Tables) (flavors : FlavorSet) : Except Fault LockSites := do
  t.lockSitesAmong flavors (← t.bodies.mapM t.instsOf).flatten

end Relock
