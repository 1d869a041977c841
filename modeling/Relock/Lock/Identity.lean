import Relock.Lock.Site
import Relock.Program.Chain

/-!
# Which lock is it?

Where the mutex of a lock site comes from. A lock that is a field of a record has a structural identity, the
record type and the path of the field, whichever record it belongs to. Any other lock is only compared with locks
of the same type in the same function.

* `LockIdentity`, `Tables.identityOf`: a lock known by its field;
* `LockGroups`: the lock sites of one flavor that may acquire the same lock.
-/

namespace Relock

/-- The structural identity of a lock: the record that holds it, and the field. -/
structure LockIdentity where
  /-- The record type. -/
  aggregate : TypeId
  /-- The path of the field, empty for the record itself seen as a lock. -/
  indices : List Int
deriving DecidableEq, Repr

/-- Paths in lexicographic order, the start of a path before the path. -/
def pathLt : List Int → List Int → Bool
  | [], [] => false
  | [], _ :: _ => true
  | _ :: _, [] => false
  | a :: p, b :: q => decide (a < b) || (a == b && pathLt p q)

namespace LockIdentity

/-- The order of identities: by type, then by path. -/
def lt (a b : LockIdentity) : Bool :=
  decide (a.aggregate.index < b.aggregate.index) ||
    (a.aggregate == b.aggregate && pathLt a.indices b.indices)

/-- An identity for people. -/
def describe (t : Tables) (l : LockIdentity) : Except Fault String := do
  let path := String.intercalate ", " (l.indices.map toString)
  return (← t.typeName l.aggregate) ++ "[" ++ path ++ "]"

end LockIdentity

namespace Tables

/-- The record type that a value points to, seen through casts. -/
def pointedRecord (t : Tables) (v : Value) : Except Fault (Option TypeId) := do
  match ← t.pointee (← t.valueType (← t.stripCasts v)) with
  | none => return none
  | some r => return if ← t.isRecord r then some r else none

/-- The identity of a lock, from the instruction that computes its address. -/
def identityOf (t : Tables) : Value → Except Fault (Option LockIdentity)
  | .inst i => do
    match ← t.kindOf i with
    -- one address only: a field of a field is known by the record that its own path starts from
    | .fieldAddr base indices => return (← t.pointedRecord base).map (⟨·, indices⟩)
    | .cast v => return (← t.pointedRecord v).map (⟨·, []⟩)
    | _ => return none
  | _ => .ok none

end Tables

/-- What is known about the lock of a site. -/
inductive LockPlace where
  | field (identity : LockIdentity)
  | within (f : FunctionId) (ty : TypeId)
deriving DecidableEq, Repr

/-- What is known about the lock of a site. -/
def Tables.placeOf (t : Tables) (site : LockSite) : Except Fault LockPlace := do
  match ← t.identityOf site.target with
  | some l => return .field l
  | none => return .within (← t.functionOf site.inst) (← t.valueType site.target)

/-- The lock sites of one flavor that may acquire the same lock. -/
structure LockGroups where
  /-- The inter-procedural groups: locks with a structural identity, which may be acquired anywhere. -/
  inter : List (LockIdentity × List LockSite)
  /-- The intra-procedural groups: the other locks, by function and type. -/
  intra : List ((FunctionId × TypeId) × List LockSite)
deriving DecidableEq, Repr

namespace LockGroups

/-- The order of intra-procedural groups. -/
def intraLt (a b : FunctionId × TypeId) : Bool :=
  decide (a.1.index < b.1.index) || (a.1 == b.1 && decide (a.2.index < b.2.index))

/-- Group sites by what is known about their locks. -/
def ofPlaces (places : List (LockPlace × LockSite)) : LockGroups where
  inter := groupBy LockIdentity.lt (places.filterMap fun
    | (.field l, site) => some (l, site)
    | (.within _ _, _) => none)
  intra := groupBy intraLt (places.filterMap fun
    | (.field _, _) => none
    | (.within f ty, site) => some ((f, ty), site))

/-- Group sites, which stand in the order of their instructions. -/
def ofSites (t : Tables) (sites : List LockSite) : Except Fault LockGroups := do
  return ofPlaces (← sites.mapM fun site => do return (← t.placeOf site, site))

end LockGroups

end Relock
