import Relock.Closure
import Relock.Guard.Symbol
import Relock.Lock.Site
import Relock.Program.Chain
import Relock.Program.DefUse

/-!
# Where guards are released

The release tracer. Starting from the guard of a lock site, def-use chains are followed through loads, stores to
stack slots, casts and the functions that unwrap a result, and into the stack objects that the payload of the
guard is moved to, until a drop is reached. A lock is also released at the start of the branch that is taken when
the lock operation failed. The tracer is a worklist run to a fixed point, so the shape of the def-use graph never
affects termination.

* `Carrier`: what holds a guard;
* `carriersFrom`: what else holds the guard, one step further;
* `releasesFrom`: the releases at one carrier;
* `releases`: all releases of a lock site, by instruction.
-/

namespace Relock.Guard

/-- What holds a guard. -/
inductive Carrier where
  /-- The guard itself, or the result of unwrapping it. -/
  | guard (v : Value)
  /-- A stack object that the payload of the guard was moved into. -/
  | relocated (v : Value)
deriving DecidableEq, Repr

/-- The instructions among `is` whose kind passes a test. -/
def withKind (p : Program) (test : InstKind → Bool) : List InstId → Except Fault (List InstId)
  | [] => .ok []
  | i :: is => do
    let rest ← withKind p test is
    return if test (← p.kindOf i) then i :: rest else rest

/-- The loads of a value. -/
def loadsOf (p : Program) (lock : InstId) (v : Value) : Except Fault (List InstId) :=
  withKind p InstKind.isLoad (p.usersExcept lock v)

/-- The addresses of a field of a value. -/
def fieldsOf (p : Program) (lock : InstId) (v : Value) (path : List Int) :
    Except Fault (List InstId) :=
  withKind p (fun k => k.indices? == some path) (p.usersExcept lock v)

/-- The calls that drop a value. -/
def dropsOf (p : Program) (lock : InstId) (v : Value) : Except Fault (List InstId) :=
  (p.usersExcept lock v).filterM (p.callsA isRelease)

/-- The calls that drop what is loaded from a value. -/
def reloadedDropsOf (p : Program) (lock : InstId) (v : Value) : Except Fault (List InstId) := do
  return (← (← loadsOf p lock v).mapM fun l => dropsOf p lock (.inst l)).flatten

/-! ## Failed lock operations -/

/-- The block that a comparison with zero sends other values to. -/
def nonzeroDest (pred : Predicate) (thenDest elseDest : BlockId) : Option BlockId :=
  match pred with
  | .eq => some elseDest
  | .ne => some thenDest
  | .other => none

/-- The first instruction on the branch for other values than zero, if `u` branches on a comparison. -/
def failureAt (p : Program) (pred : Predicate) (u : InstId) : Except Fault (List InstId) := do
  match ← p.kindOf u with
  | .condBr _ thenDest elseDest =>
    match nonzeroDest pred thenDest elseDest with
    | some b => return (← p.firstActiveOf b).toList
    | none => return []
  | _ => return []

/-- The failure branches of the instruction `u`, if it compares a value with zero. -/
def failuresOfCompare (p : Program) (lock u : InstId) : Except Fault (List InstId) := do
  match ← p.kindOf u with
  | .icmp pred lhs rhs =>
    -- the zero may stand on either side
    if lhs == .const 0 || rhs == .const 0 then
      return (← (p.usersExcept lock (.inst u)).mapM (failureAt p pred)).flatten
    return []
  | _ => return []

/-- The failure branches that depend on what is loaded through the cast `c` of a guard: a match on the result of a
lock operation loads the discriminant, compares it with zero and branches. -/
def failuresOf (p : Program) (lock c : InstId) : Except Fault (List InstId) := do
  let perLoad ← (← loadsOf p lock (.inst c)).mapM fun l => do
    return (← (p.usersExcept lock (.inst l)).mapM (failuresOfCompare p lock)).flatten
  return perLoad.flatten

/-! ## Payloads -/

/-- The path of the payload in a result. -/
def payloadPath : List Int := [0, 1]

/-- The path of the pointer in a payload. -/
def innerPath : List Int := [0, 0]

/-- The calls that drop the payload in place, seen through the cast `c` of a guard. A payload that is moved
elsewhere is found by `relocationsOf`. -/
def payloadDropsOf (p : Program) (lock c : InstId) : Except Fault (List InstId) := do
  let payloads ← fieldsOf p lock (.inst c) payloadPath
  return (← payloads.mapM fun f => dropsOf p lock (.inst f)).flatten

/-- The object that `u` moves the loaded value `l` into, if fields of that object are used. -/
def relocationAt (p : Program) (l u : InstId) : Except Fault (List Value) := do
  match ← p.kindOf u with
  | .store v ptr =>
    if v == .inst l then
      let object ← p.underlyingObject ptr
      -- every user counts here, the lock call too
      let fields ← withKind p (fun k => k.indices?.isSome) (p.users object)
      return if fields.isEmpty then [] else [object]
    return []
  | _ => return []

/-- The objects that the payload is moved into, seen through the cast `c` of a guard. -/
def relocationsOf (p : Program) (lock c : InstId) : Except Fault (List Value) := do
  let payloads ← fieldsOf p lock (.inst c) payloadPath
  let inner := (← payloads.mapM fun f => fieldsOf p lock (.inst f) innerPath).flatten
  let loads := (← inner.mapM fun f => loadsOf p lock (.inst f)).flatten
  return (← loads.mapM fun l => do
    return (← (p.usersExcept lock (.inst l)).mapM (relocationAt p l)).flatten).flatten

/-! ## Carriers and releases -/

/-- What the call `u` unwraps its argument into: its result, or the object of its first argument. -/
def unwrapped (p : Program) (u : InstId) : Except Fault (List Value) := do
  let x ← p.inst u
  if ← p.isVoid x.ty then
    match x.kind.args?.getD [] with
    | [] => return []
    | out :: _ => return [← p.underlyingObject out]
  return [.inst u]

/-- The carriers that the user `u` of a guard makes: an unwrapping call makes one of its result or out-parameter,
and a cast to the layout of the result makes those that the payload is moved into. -/
def carriersAt (p : Program) (lock u : InstId) : Except Fault (List Carrier) := do
  -- a drop is a release, and nothing holds the guard after it
  if ← p.callsA isRelease u then return []
  match ← p.kindOf u with
  | .cast _ => return (← relocationsOf p lock u).map .relocated
  | .call .. | .invoke .. =>
    if ← p.callsA isUnwrap u then return (← unwrapped p u).map .guard
    return []
  | _ => return []

/-- What else holds the guard that a carrier holds. -/
def carriersFrom (p : Program) (lock : InstId) : Carrier → Except Fault (List Carrier)
  | .guard g => do return (← (p.usersExcept lock g).mapM (carriersAt p lock)).flatten
  | .relocated _ => .ok []

/-- The releases at the user `u` of the guard `g`: a drop of the guard, of what is loaded from it, of the slot
that it is stored in, of its payload, and the start of the branch for a failed lock operation. -/
def releasesAt (p : Program) (lock : InstId) (g : Value) (u : InstId) :
    Except Fault (List InstId) := do
  if ← p.callsA isRelease u then return [u]
  match ← p.kindOf u with
  | .load _ => dropsOf p lock (.inst u)
  | .store v slot =>
    -- the guard may also be the address that is stored to, which moves it nowhere
    if v == g then return (← dropsOf p lock slot) ++ (← reloadedDropsOf p lock slot)
    return []
  | .cast _ => return (← failuresOf p lock u) ++ (← payloadDropsOf p lock u)
  | _ => return []

/-- The releases at a carrier. -/
def releasesFrom (p : Program) (lock : InstId) : Carrier → Except Fault (List InstId)
  | .guard g => do return (← (p.usersExcept lock g).mapM (releasesAt p lock g)).flatten
  | .relocated o => do return (← dropsOf p lock o) ++ (← reloadedDropsOf p lock o)

/-- Every carrier that has a user. -/
def allCarriers (p : Program) : List Carrier :=
  p.usedValues.map .guard ++ p.usedValues.map .relocated

/-- The carriers of the guard `g` of the lock call `lock`: the worklist of the tracer, started with the guard and
run to a fixed point. -/
def carriers (p : Program) (lock : InstId) (g : Value) : Except Fault (List Carrier) :=
  reach (carriersFrom p lock) (allCarriers p) [.guard g]

/-- Where the guard `g` of the lock call `lock` is released: the release set of a lock site, ordered by
instruction. The tracer looks for releases at every carrier that its worklist comes to. -/
def releases (p : Program) (lock : InstId) (g : Value) : Except Fault (List InstId) := do
  let found := (← (← carriers p lock g).mapM (releasesFrom p lock)).flatten
  return p.instIds.filter fun i => found.contains i

end Relock.Guard
