import Relock.Audit.Symbol
import Relock.Proofs.Guard.Symbol
import Relock.Proofs.Lock.Symbol

/-!
# How the tests on symbols go together

A call is tested by the symbol of its callee, as a lock operation, as a release, as an unwrapping and, in an
audit, as something like a lock operation. The analyses ask one test before the other and rely on how the
tests go together: the first three exclude each other, and the last one, which goes by words, leaves out no
lock operation but those on raw locks.

* `mentions`, `rawLock_eq_true`: tests that go by words;
* `like_of_accepts`: lock operations look like lock operations;
* `symbols_consistent`: how all the tests go together.
-/

namespace Relock.Audit

open Text Pattern LockKind

/-! ## Words in a symbol -/

/-- A symbol with one of the words, and with something that `k` accepts behind it on the same line. -/
theorem mentions {words : List String} {word : String} {k : Pattern} {middle rest : List Char}
    (before : List Char) (hword : word ∈ words) (hline : '\n' ∉ middle) (hrest : k rest = true) :
    somewhere (oneOf words (run k)) (before ++ (word.toList ++ (middle ++ rest))) = true := by
  refine somewhere_eq_true.mpr ⟨before, _, rfl, oneOf_eq_true.mpr ⟨word, hword, ?_⟩⟩
  exact literal_eq_true.mpr ⟨_, rfl, run_eq_true.mpr ⟨middle, rest, rfl, hline, hrest⟩⟩

/-- The words that mark raw locks. -/
def rawWords : List String := ["raw_mutex", "raw_rwlock", "RawMutex", "RawRwLock"]

/-- Raw locks are recognised by a word anywhere in the symbol. -/
theorem rawLock_eq_true {s : List Char} : rawLock s = true ↔ ∃ word ∈ rawWords, word.toList <:+: s := by
  rw [rawLock, somewhere_eq_true]
  constructor
  · rintro ⟨before, q, rfl, hq⟩
    obtain ⟨word, hword, hq⟩ := oneOf_eq_true.mp hq
    obtain ⟨after, rfl, -⟩ := literal_eq_true.mp hq
    exact ⟨word, hword, before, after, List.append_assoc ..⟩
  · rintro ⟨word, hword, before, after, rfl⟩
    -- nothing is asked of what follows the word
    refine ⟨before, _, List.append_assoc .., oneOf_eq_true.mpr ⟨word, hword, ?_⟩⟩
    exact literal_eq_true.mpr ⟨after, rfl, rfl⟩

/-! ## Lock operations -/

/-- The word for the lock of an operation in its symbols. -/
def typeWord : LockKind → String
  | .stdMutexLock | .lockApiMutexLock => "Mutex"
  | .stdRwLockRead | .stdRwLockWrite | .lockApiRwLockRead | .lockApiRwLockWrite => "RwLock"

/-- The end of the mangled symbols of an operation, behind the type arguments. -/
def mangledEnd : LockKind → String
  | .stdMutexLock | .lockApiMutexLock => "$GT$4lock17h"
  | .stdRwLockRead | .lockApiRwLockRead => "$GT$4read17h"
  | .stdRwLockWrite | .lockApiRwLockWrite => "$GT$5write17h"

/-- The mangled symbols name the lock, its type arguments and the method. -/
theorem exists_mangled (k : LockKind) : ∃ before args, '\n' ∉ args ∧
    k.mangled.toList = before ++ ((typeWord k).toList ++ (args ++ (mangledEnd k).toList)) := by
  cases k with
  | stdMutexLock => exact ⟨"_ZN3std4sync5mutex14".toList, "$LT$T".toList, by decide +kernel⟩
  | stdRwLockRead => exact ⟨"_ZN3std4sync6rwlock15".toList, "$LT$T".toList, by decide +kernel⟩
  | stdRwLockWrite => exact ⟨"_ZN3std4sync6rwlock15".toList, "$LT$T".toList, by decide +kernel⟩
  | lockApiMutexLock => exact ⟨"_ZN8lock_api5mutex18".toList, "$LT$R$C$T".toList, by decide +kernel⟩
  | lockApiRwLockRead => exact ⟨"_ZN8lock_api6rwlock19".toList, "$LT$R$C$T".toList, by decide +kernel⟩
  | lockApiRwLockWrite => exact ⟨"_ZN8lock_api6rwlock19".toList, "$LT$R$C$T".toList, by decide +kernel⟩

/-- The paths name the lock right before its type arguments. -/
theorem exists_head {k : LockKind} {head : List Char} (h : head ∈ k.heads) :
    ∃ before, head = before ++ ((typeWord k).toList ++ "<".toList) := by
  -- checked for each of the heads, of which there are few
  have hall : ∀ k ∈ all, ∀ head ∈ k.heads, ((typeWord k).toList ++ "<".toList).isSuffixOf head = true := by
    decide +kernel
  obtain ⟨before, hbefore⟩ := List.isSuffixOf_iff_suffix.mp (hall k (mem_all k) head h)
  exact ⟨before, hbefore.symm⟩

/-- A symbol that names a lock and goes on with a method of it, mangled or as the end of a segment. -/
theorem like_of_end (k : LockKind) {before args rest : List Char} (hline : '\n' ∉ args)
    (hrest : literal (mangledEnd k) anything rest = true ∨ literal k.method segmentEnd rest = true) :
    (mutexLike (before ++ ((typeWord k).toList ++ (args ++ rest))) ||
      rwLockLike (before ++ ((typeWord k).toList ++ (args ++ rest)))) = true := by
  rw [Bool.or_eq_true]
  -- a mutex has one method; that of a reader-writer lock is one of two behind a text they share
  cases k with
  | stdMutexLock | lockApiMutexLock =>
    exact .inl (mentions before (by decide) hline (Bool.or_eq_true _ _ ▸ hrest))
  | stdRwLockRead | lockApiRwLockRead =>
    refine .inr (mentions before (by decide) hline ?_)
    rw [Bool.or_eq_true]
    refine hrest.imp (fun h => ?_) fun h => ?_
    · exact literal_oneOf (w := "4read") (by decide) (literal_append.mp h)
    · exact literal_oneOf (w := "read") (by decide) h
  | stdRwLockWrite | lockApiRwLockWrite =>
    refine .inr (mentions before (by decide) hline ?_)
    rw [Bool.or_eq_true]
    refine hrest.imp (fun h => ?_) fun h => ?_
    · exact literal_oneOf (w := "5write") (by decide) (literal_append.mp h)
    · exact literal_oneOf (w := "write") (by decide) h

/-- Symbols of lock operations look like it. -/
theorem like_of_accepts {k : LockKind} {s : List Char} (h : k.accepts s = true) :
    (mutexLike s || rwLockLike s) = true := by
  rcases accepts_eq_true.mp h with ⟨r, rfl⟩ | ⟨head, hhead, rest, rfl, args, tail, rfl, -, hline, htail⟩
  · obtain ⟨before, args, hline, hmangled⟩ := exists_mangled k
    have hend : literal (mangledEnd k) anything ((mangledEnd k).toList ++ r) = true :=
      literal_anything.mpr (List.prefix_append ..)
    simpa only [hmangled, List.append_assoc] using like_of_end k hline (.inl hend)
  · -- the opening bracket is skipped along with the type arguments
    obtain ⟨before, rfl⟩ := exists_head hhead
    have hend : literal k.method segmentEnd (k.method.toList ++ tail) = true :=
      literal_eq_true.mpr ⟨tail, rfl, segmentEnd_eq_true.mpr htail⟩
    have hopen : '\n' ∉ "<".toList ++ args := by
      rw [List.mem_append, not_or]
      exact ⟨by decide, hline⟩
    simpa only [List.append_assoc] using like_of_end k hopen (.inr hend)

/-! ## All tests -/

/-- **The tests on symbols go together.** No lock operation is a release or unwraps anything, no release
unwraps anything, explicit drops are releases, and a lock operation looks like one unless its symbol has one
of the words for raw locks in it. -/
theorem symbols_consistent (name : String) :
    (∀ k, ofSymbol name = some k → Guard.isRelease name = false ∧ Guard.isUnwrap name = false) ∧
    ¬ (Guard.isRelease name = true ∧ Guard.isUnwrap name = true) ∧
    (Guard.isManualDrop name = true → Guard.isRelease name = true) ∧
    (∀ k, ofSymbol name = some k → (∀ word ∈ rawWords, ¬ word.toList <:+: name.toList) →
      isLockLike name = true) := by
  refine ⟨fun k hk => ⟨Guard.isRelease_of_ofSymbol hk, Guard.isUnwrap_of_ofSymbol hk⟩, ?_,
    Guard.isRelease_of_isManualDrop, fun k hk hraw => ?_⟩
  · rintro ⟨hrelease, hunwrap⟩
    rw [Guard.isUnwrap_of_isRelease hrelease] at hunwrap
    cases hunwrap
  · -- without one of the words the symbol is not taken for that of a raw lock
    have hnot : rawLock name.toList = false := by
      rw [← Bool.not_eq_true, rawLock_eq_true]
      rintro ⟨word, hword, hin⟩
      exact hraw word hword hin
    simp [isLockLike, hnot, like_of_accepts (accepts_of_ofSymbol hk)]

/-- A lock on something whose type arguments mention drops and unwrapping. -/
def lockOfDropped : String :=
  "<lock_api::mutex::Mutex<core::mem::drop<T>, core::result::Result<T>::unwrap>>::lock"

/-- What stands in the type arguments of a lock does not count. -/
theorem symbols_lockOfDropped :
    ofSymbol lockOfDropped = some .lockApiMutexLock ∧ (∀ word ∈ rawWords, ¬ word.toList <:+: lockOfDropped.toList) ∧
      Guard.isRelease lockOfDropped = false ∧ Guard.isUnwrap lockOfDropped = false ∧
        isLockLike lockOfDropped = true ∧ Guard.isManualDrop "core::mem::drop<T>" = true ∧
          Guard.isRelease "core::mem::drop<T>" = true := by
  have hlock : ofSymbol lockOfDropped = some .lockApiMutexLock := by decide +kernel
  have hraw : ∀ word ∈ rawWords, ¬ word.toList <:+: lockOfDropped.toList := by decide +kernel
  have hdrop : Guard.isManualDrop "core::mem::drop<T>" = true := by decide +kernel
  obtain ⟨hneither, -, -, hlike⟩ := symbols_consistent lockOfDropped
  obtain ⟨-, -, hrelease, -⟩ := symbols_consistent "core::mem::drop<T>"
  exact ⟨hlock, hraw, (hneither _ hlock).1, (hneither _ hlock).2, hlike _ hlock hraw, hdrop, hrelease hdrop⟩

end Relock.Audit
