import Relock.Audit.Symbol
import Relock.Closure
import Relock.Guard.Symbol
import Relock.Program.DefUse
import Relock.Report.Basic

/-!
# Auditing explicit drops

The manual-drop auditor. For every call that looks like a lock operation, the explicit drops that its guard, or
anything computed or stored from it, can reach. It is coarser than the release tracer: every user of a value
passes it on, whatever the instruction does, but for explicit drops, and for stores, which pass it on to the place
stored to.

* `Audit.heldBy`: what a value is passed on to;
* `Audit.drops`: the explicit drops of a guard;
* `Audit.audit`: a report for each lock call whose guard is dropped explicitly.
-/

namespace Relock.Audit

/-- What the user `u` of the value `v` passes it on to: the place it is stored in, or the result. -/
def heldAt (p : Program) (v : Value) (u : InstId) : Except Fault (List Value) := do
  if ← p.callsA Guard.isManualDrop u then return []
  match ← p.kindOf u with
  -- storing to the value does not pass the value on
  | .store stored ptr => return if stored == v then [ptr] else []
  | _ => return [.inst u]

/-- What a value is passed on to. -/
def heldBy (p : Program) (lock : InstId) (v : Value) : Except Fault (List Value) := do
  return (← (p.usersExcept lock v).mapM (heldAt p v)).flatten

/-- The values that the guard `g` of a lock call is passed on to: the worklist of the auditor. -/
def holders (p : Program) (lock : InstId) (g : Value) : Except Fault (List Value) :=
  reach (heldBy p lock) p.usedValues [g]

/-- The explicit drops of a value. -/
def dropsOf (p : Program) (lock : InstId) (v : Value) : Except Fault (List InstId) :=
  (p.usersExcept lock v).filterM (p.callsA Guard.isManualDrop)

/-- The explicit drops of the guard `g` of a lock call, by instruction. -/
def drops (p : Program) (lock : InstId) (g : Value) : Except Fault (List InstId) := do
  let found := (← (← holders p lock g).mapM (dropsOf p lock)).flatten
  return p.instIds.filter fun i => found.contains i

/-- The guard of a lock call: the first of several arguments if there is no result, else the call. -/
def guardOf (p : Program) (i : InstId) : Except Fault (Option Value) := do
  let x ← p.inst i
  match x.kind.args? with
  | none => return none
  | some args =>
    -- without a result the guard is written through the first argument, and the lock is the second one
    if ← p.isVoid x.ty then
      match args with
      | first :: _ :: _ => return some first
      | _ => return none
    return some (.inst i)

/-- The report on an instruction of the function `f`, if it looks like a lock operation and its guard is
dropped explicitly. -/
def auditAt (p : Program) (f : FunctionId) (i : InstId) : Except Fault (Option Report) := do
  if !(← p.callsA isLockLike i) then return none
  match ← guardOf p i with
  | none => return none
  | some g =>
    let ds ← drops p i g
    if ds.isEmpty then return none
    return some (.manualDrop {
      function := (← p.function f).name
      lock := ← p.describe i
      drops := ← ds.mapM p.describe })

/-- The reports on a function, in layout order. -/
def auditFunction (p : Program) (f : FunctionId) : Except Fault (List Report) := do
  return (← (← p.instsOf f).mapM (auditAt p f)).reduceOption

/-- The reports on a program, function by function. -/
def audit (p : Program) : Except Fault (List Report) := do
  return (← p.bodies.mapM (auditFunction p)).flatten

end Relock.Audit
