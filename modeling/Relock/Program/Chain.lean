import Relock.Program.Lookup

/-!
# Where pointers come from

Casts and field addresses derive one pointer from another. A chain of them that does not come back to
itself passes every instruction at most once, so the table's size bounds how far it has to be followed.

* `Tables.derivation`: the object that a pointer is derived from, and the fields on the way;
* `Tables.stripCasts`, `Tables.underlyingObject`: the two ends that analyses ask for.
-/

namespace Relock

/-- How a pointer is computed from an object. -/
structure Derivation where
  object : Value
  /-- The indices of the field addresses, that nearest to the object first. -/
  segments : List (List Int)
deriving DecidableEq, Repr

namespace Tables

/-- Follow casts for at most `fuel` instructions. -/
def stripCastsWithin (t : Tables) : Nat → Value → Except Fault Value
  | 0, v => .error (.endlessChain v)
  | fuel + 1, v =>
    match v with
    | .inst i => do
      match ← t.kindOf i with
      | .cast w => t.stripCastsWithin fuel w
      | _ => return v
    | _ => .ok v

/-- The value that casts lead back to. -/
def stripCasts (t : Tables) (v : Value) : Except Fault Value :=
  t.stripCastsWithin (t.insts.size + 1) v

/-- Follow casts and field addresses for at most `fuel` instructions, with the indices of the field
addresses passed before in `segments`. -/
def derivationWithin (t : Tables) : Nat → List (List Int) → Value → Except Fault Derivation
  | 0, _, v => .error (.endlessChain v)
  | fuel + 1, segments, v =>
    match v with
    | .inst i => do
      match ← t.kindOf i with
      | .cast w => t.derivationWithin fuel segments w
      -- the field address nearest to the object is met last and ends up first
      | .fieldAddr base indices => t.derivationWithin fuel (indices :: segments) base
      | _ => return ⟨v, segments⟩
    | _ => .ok ⟨v, segments⟩

/-- How a pointer is computed. -/
def derivation (t : Tables) (v : Value) : Except Fault Derivation :=
  t.derivationWithin (t.insts.size + 1) [] v

/-- The object that casts and field addresses lead back to. -/
def underlyingObject (t : Tables) (v : Value) : Except Fault Value := do
  return (← t.derivation v).object

end Tables

end Relock
