import Relock.Text.Pattern

/-!
# Symbols that look like lock operations

A looser test than the one on lock operations: it goes by the words in a symbol, so that wrappers around
locks are covered as well, and leaves out the raw locks beneath them.
-/

namespace Relock.Audit

open Text Pattern

/-- A `lock` of something with a mutex in its name. -/
def mutexLike : Pattern :=
  somewhere (oneOf ["Mutex", "mutex"] (run fun s =>
    literal "$GT$4lock17h" anything s || literal ">::lock" segmentEnd s))

/-- A `read` or `write` of something with a reader-writer lock in its name. -/
def rwLockLike : Pattern :=
  somewhere (oneOf ["RwLock", "rwlock"] (run fun s =>
    literal "$GT$" (oneOf ["4read", "5write"] (literal "17h" anything)) s ||
    literal ">::" (oneOf ["read", "write"] segmentEnd) s))

/-- The shorthand `rl` and `wl` of handy reader-writer locks. -/
def handyLike : Pattern :=
  somewhere (literal "HandyRwLock" (run fun s =>
    oneOf ["2rl17h", "2wl17h"] anything s || literal "::" (oneOf ["rl", "wl"] segmentEnd) s))

/-- The names of raw locks. -/
def rawLock : Pattern :=
  somewhere (oneOf ["raw_mutex", "raw_rwlock", "RawMutex", "RawRwLock"] anything)

/-- Whether a call to `name` looks like a lock operation. -/
def isLockLike (name : String) : Bool :=
  let s := name.toList
  !rawLock s && (mutexLike s || rwLockLike s || handyLike s)

end Relock.Audit
