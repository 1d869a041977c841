/-!
# Lock operations

The six lock operations that the analysis knows, in three flavors that are analysed independently.

* `LockKind.flavor`, `LockKind.access`, `LockKind.layout`: what an operation is and where its call
  carries the lock and the guard;
* `LockKind.nestsWith`: which acquisitions cannot block while a guard of another one is held.
-/

namespace Relock

/-- A family of locks. A lock is only compared with locks of its own flavor. -/
inductive Flavor where
  | mutex
  | rwLock
  | lockApi
deriving DecidableEq, Repr

/-- Every flavor, in the order in which they are analysed. -/
def Flavor.all : List Flavor := [.mutex, .rwLock, .lockApi]

/-- Whether an acquisition tolerates other holders. -/
inductive Access where
  | exclusive
  | shared
deriving DecidableEq, Repr

/-- Where a lock call carries the lock object and the guard. -/
inductive Layout where
  /-- The lock is the first argument and the guard is the result. -/
  | receiver
  /-- As `receiver`, but a call without a result takes the guard's slot first and the lock second. -/
  | outParam
  /-- The lock is found as for `outParam`; the guard is always the call. -/
  | outParamTarget
deriving DecidableEq, Repr

/-- A lock operation. -/
inductive LockKind where
  | stdMutexLock
  | stdRwLockRead
  | stdRwLockWrite
  | lockApiMutexLock
  | lockApiRwLockRead
  | lockApiRwLockWrite
deriving DecidableEq, Repr

namespace LockKind

/-- Every lock operation, in the order in which symbols are compared with them. -/
def all : List LockKind :=
  [.stdMutexLock, .stdRwLockRead, .stdRwLockWrite,
    .lockApiMutexLock, .lockApiRwLockRead, .lockApiRwLockWrite]

/-- The family that an operation belongs to. -/
def flavor : LockKind → Flavor
  | .stdMutexLock => .mutex
  | .stdRwLockRead | .stdRwLockWrite => .rwLock
  | .lockApiMutexLock | .lockApiRwLockRead | .lockApiRwLockWrite => .lockApi

/-- Reads are shared, everything else is exclusive. -/
def access : LockKind → Access
  | .stdRwLockRead | .lockApiRwLockRead => .shared
  | .stdMutexLock | .stdRwLockWrite | .lockApiMutexLock | .lockApiRwLockWrite => .exclusive

/-- The layout of the calls of an operation, which depends on its flavor alone. -/
def layout (k : LockKind) : Layout :=
  match k.flavor with
  | .mutex => .outParam
  | .rwLock => .outParamTarget
  | .lockApi => .receiver

/-- Whether acquiring `other` while a guard of `held` lives cannot block. A `lock_api` read lock is not
recursive, because a writer may queue up between two reads; so only reads of the standard library
nest. -/
def nestsWith (held other : LockKind) : Bool :=
  held == .stdRwLockRead && other == .stdRwLockRead

/-- The name of an operation in reports. -/
def display : LockKind → String
  | .stdMutexLock => "std::sync::Mutex::lock"
  | .stdRwLockRead => "std::sync::RwLock::read"
  | .stdRwLockWrite => "std::sync::RwLock::write"
  | .lockApiMutexLock => "lock_api::Mutex::lock"
  | .lockApiRwLockRead => "lock_api::RwLock::read"
  | .lockApiRwLockWrite => "lock_api::RwLock::write"

end LockKind

end Relock
