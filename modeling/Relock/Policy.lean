import Relock.Lock.Kind
import Relock.Text.Basic

/-!
# Analysis policy

Which flavors of locks are analysed, and the functions whose locks are left out.

* `FlavorSet`, `FlavorSet.ofText`: a set of flavors and its comma-separated spelling;
* `Policy.isEnabled`, `Policy.isSuppressed`: the questions that the analysis asks.
-/

namespace Relock

/-- A set of lock flavors. -/
structure FlavorSet where
  mutex : Bool
  rwLock : Bool
  lockApi : Bool
deriving DecidableEq, Repr

namespace FlavorSet

/-- The set of no flavor. -/
def empty : FlavorSet := ⟨false, false, false⟩

/-- The set of all flavors. -/
def all : FlavorSet := ⟨true, true, true⟩

/-- Whether a flavor is in the set. -/
def contains (fs : FlavorSet) : Flavor → Bool
  | .mutex => fs.mutex
  | .rwLock => fs.rwLock
  | .lockApi => fs.lockApi

/-- The set with one more flavor. -/
def insert (fs : FlavorSet) : Flavor → FlavorSet
  | .mutex => { fs with mutex := true }
  | .rwLock => { fs with rwLock := true }
  | .lockApi => { fs with lockApi := true }

/-- The set as a number, one bit for each flavor. -/
def bits (fs : FlavorSet) : Nat :=
  fs.mutex.toNat + 2 * fs.rwLock.toNat + 4 * fs.lockApi.toNat

end FlavorSet

/-- The flavor with a given spelling. -/
def Flavor.ofText (s : String) : Option Flavor :=
  if s = "mutex" then some .mutex
  else if s = "rwlock" then some .rwLock
  else if s = "lockapi" then some .lockApi
  else none

/-- Why a text does not denote a set of flavors. -/
inductive FlavorError where
  | unsupported (name : String)
deriving DecidableEq, Repr

/-- The wording of a `FlavorError`. -/
def FlavorError.message : FlavorError → String
  | .unsupported _ => "UnsupportedLockFlavor"

/-- The set of the flavors named in `names`, added to `fs`. -/
def FlavorSet.insertNames (fs : FlavorSet) : List String → Except FlavorError FlavorSet
  | [] => .ok fs
  | n :: ns =>
    match Flavor.ofText n with
    | some f => (fs.insert f).insertNames ns
    | none => .error (.unsupported n)

/-- The set spelled by a text: names between commas, blanks around a name and empty names ignored. -/
def FlavorSet.ofText (s : String) : Except FlavorError FlavorSet :=
  let names := (Text.pieces ',' s.toList).map Text.trim
  FlavorSet.empty.insertNames ((names.filter fun n => !n.isEmpty).map String.ofList)

/-- What the analysis looks at. -/
structure Policy where
  /-- The flavors to analyse. -/
  flavors : FlavorSet
  /-- How the names of the functions start whose locks are never taken as a first lock. -/
  suppressed : List String
deriving DecidableEq, Repr

namespace Policy

/-- Functions that are left out unless the user asks for them: searching them takes too long. -/
def defaultSuppressed : List String :=
  ["_ZN12ethcore_sync10light_sync18LightSync$LT$L$GT$13maintain_sync17h",
    "ethcore_sync::light_sync::LightSync<L>::maintain_sync"]

/-- All flavors, with the default suppressions. -/
def default : Policy := ⟨.all, defaultSuppressed⟩

/-- Whether a flavor is analysed. -/
def isEnabled (p : Policy) (f : Flavor) : Bool :=
  p.flavors.contains f

/-- Whether the locks of a function are left out. -/
def isSuppressed (p : Policy) (function : String) : Bool :=
  p.suppressed.any fun start => start.toList.isPrefixOf function.toList

end Policy

end Relock
