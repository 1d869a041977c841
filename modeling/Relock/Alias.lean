import Relock.Program.Chain

/-!
# Aliasing of pointers

Two pointers are compared by the object they are derived from and the constant path of fields to them.

* `Address`, `Address.ofDerivation`: a pointer as an object and a path;
* `Oracle`: what the analyses ask about two pointers of one function;
* `Tables.aliasing`: the answers by structure.
-/

namespace Relock

/-- Whether two pointers denote the same place. -/
inductive Aliasing where
  | no
  | may
  | must
deriving DecidableEq, Repr

/-- A pointer as an object and a path of fields. -/
structure Address where
  object : Value
  path : List Int
  /-- False if a step on the way is not a step to a field. -/
  exact : Bool
deriving DecidableEq, Repr

/-- The path of the segments of a derivation. From the second segment on the first index steps over a
pointer to a field, and only zero leaves that pointer where it is. -/
def Address.ofDerivation (d : Derivation) : Address :=
  match d.segments with
  | [] => ⟨d.object, [], true⟩
  | s :: rest =>
    ⟨d.object, s ++ rest.flatMap List.tail, rest.all fun r => r.headD 0 == 0⟩

/-- An answer to the question whether two pointers of one function alias. -/
abbrev Oracle := Value → Value → Except Fault Aliasing

/-- An oracle that always gives the same answer. -/
def Oracle.constant (a : Aliasing) : Oracle := fun _ _ => .ok a

/-- Whether an oracle is certain that two pointers are the same. -/
def Oracle.must (o : Oracle) (a b : Value) : Except Fault Bool := do
  return (← o a b) == .must

/-- Whether an oracle is not certain that two pointers differ. -/
def Oracle.may (o : Oracle) (a b : Value) : Except Fault Bool := do
  return (← o a b) != .no

namespace Tables

/-- A pointer as an object and a path of fields. -/
def address (t : Tables) (v : Value) : Except Fault Address := do
  return .ofDerivation (← t.derivation v)

/-- Whether a value is an object that no other such value denotes. -/
def isIdentified (t : Tables) : Value → Except Fault Bool
  | .global _ => .ok true
  | .inst i => do
    match ← t.kindOf i with
    | .alloca => return true
    | _ => return false
  | _ => .ok false

/-- Two paths from one object. A path overlaps every path that it is the start of. -/
def comparePaths (p q : List Int) : Aliasing :=
  if p == q then .must
  else if p.isPrefixOf q || q.isPrefixOf p then .may
  else .no

/-- Whether two pointers alias, by structure: the same value, different identified objects, or one object with
paths that are compared. -/
def aliasing (t : Tables) : Oracle := fun a b => do
  if a == b then return .must
  let x ← t.address a
  let y ← t.address b
  -- objects that are not identified may be the same at run time
  if x.object != y.object then
    let apart := (← t.isIdentified x.object) && (← t.isIdentified y.object)
    return if apart then .no else .may
  -- a path with a step that is not a field says nothing about the place
  if !(x.exact && y.exact) then return .may
  return comparePaths x.path y.path

end Tables

end Relock
