import Relock.Lock.Kind
import Relock.Text.Pattern

/-!
# Recognising lock operations by symbol

A symbol names a lock operation in its mangled form, up to the hash, or as a path, with an optional `<`
in front, in which the type arguments of the lock are any text on one line.

* `LockKind.accepts`: the symbols of one operation;
* `LockKind.ofSymbol`: the operation that a symbol names.
-/

namespace Relock

open Text Pattern

namespace LockKind

/-- How the mangled symbols of an operation start. -/
def mangled : LockKind → String
  | .stdMutexLock => "_ZN3std4sync5mutex14Mutex$LT$T$GT$4lock17h"
  | .stdRwLockRead => "_ZN3std4sync6rwlock15RwLock$LT$T$GT$4read17h"
  | .stdRwLockWrite => "_ZN3std4sync6rwlock15RwLock$LT$T$GT$5write17h"
  | .lockApiMutexLock => "_ZN8lock_api5mutex18Mutex$LT$R$C$T$GT$4lock17h"
  | .lockApiRwLockRead => "_ZN8lock_api6rwlock19RwLock$LT$R$C$T$GT$4read17h"
  | .lockApiRwLockWrite => "_ZN8lock_api6rwlock19RwLock$LT$R$C$T$GT$5write17h"

/-- The type of a standard lock, `rest` standing after the bracket that opens its arguments. -/
def stdPath (type : String) (rest : Pattern) : Pattern :=
  literal "std::sync::" (optional "poison::" (literal type rest))

/-- Type arguments on one line, then the method `name` as the end of a segment. -/
def methodOf (name : String) : Pattern :=
  run1 (literal name segmentEnd)

/-- The path of an operation. -/
def path : LockKind → Pattern
  | .stdMutexLock => stdPath "mutex::Mutex<" (methodOf ">::lock")
  | .stdRwLockRead => stdPath "rwlock::RwLock<" (methodOf ">::read")
  | .stdRwLockWrite => stdPath "rwlock::RwLock<" (methodOf ">::write")
  | .lockApiMutexLock => literal "lock_api::mutex::Mutex<" (methodOf ">::lock")
  | .lockApiRwLockRead => literal "lock_api::rwlock::RwLock<" (methodOf ">::read")
  | .lockApiRwLockWrite => literal "lock_api::rwlock::RwLock<" (methodOf ">::write")

/-- The symbols of an operation. -/
def accepts (k : LockKind) : Pattern :=
  fun s => literal k.mangled anything s || optional "<" k.path s

/-- The first operation in `LockKind.all` that accepts a symbol. -/
def ofSymbol (name : String) : Option LockKind :=
  all.find? fun k => k.accepts name.toList

end LockKind

end Relock
