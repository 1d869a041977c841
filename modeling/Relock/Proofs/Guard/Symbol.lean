import Relock.Guard.Symbol
import Relock.Proofs.Lock.Symbol

/-!
# Symbols of releases, of unwrapping calls and of lock operations

No function both drops its argument and unwraps it, so the order in which a guard's user is tested for
the two does not matter. Nor does any lock operation drop or unwrap its argument. The explicit drops, which have
a test of their own, are among the releases.

* `isRelease_of_isManualDrop`: an explicit drop is a release;
* `isUnwrap_of_isRelease`, `isRelease_of_ofSymbol`, `isUnwrap_of_ofSymbol`: what excludes each other.
-/

namespace Relock.Guard

open Text Pattern

/-- How the symbols of dropping functions start. -/
def releaseStarts : List (List Char) :=
  ["_ZN4core3ptr18real_drop_in_place17h".toList, "_ZN4core3ptr13drop_in_place17h".toList,
    "_ZN4core3mem4drop17h".toList, "<".toList ++ "core::ptr::".toList, "core::ptr::".toList,
    "<".toList ++ "core::mem::drop".toList, "core::mem::drop".toList]

/-- How the symbols of unwrapping functions start. -/
def unwrapStarts : List (List Char) :=
  ["_ZN4core6result19Result$LT$T$C$E$GT$".toList, "<".toList ++ "core::result::Result<".toList,
    "core::result::Result<".toList]

/-- A symbol of a dropping function starts like one of its five alternatives. -/
theorem starts_release : Starts release releaseStarts :=
  ((((starts_literal _ _).or (starts_literal _ _)).or (starts_literal _ _)).or
    (starts_optional_literal _ _ _)).or (starts_optional_literal _ _ _)

/-- A symbol of an unwrapping function starts with the mangled or the written path of a result. -/
theorem starts_unwrap : Starts unwrap unwrapStarts :=
  (starts_literal _ _).or (starts_optional_literal _ _ _)

/-- An explicit drop is a release: both alternatives for it are alternatives of a release. -/
theorem isRelease_of_isManualDrop {name : String} (h : isManualDrop name = true) : isRelease name = true := by
  unfold isRelease release
  -- the two patterns are written apart; it is their alternatives that agree
  rcases (Bool.or_eq_true _ _).mp h with hmangled | hpath
  · rw [hmangled, Bool.or_true, Bool.true_or, Bool.true_or]
  · rw [hpath, Bool.or_true]

/-- No dropping function unwraps what it is given. -/
theorem isUnwrap_of_isRelease {name : String} (h : isRelease name = true) : isUnwrap name = false :=
  starts_release.disjoint starts_unwrap (by decide) h

/-- No symbol of a lock operation starts like one of a dropping or an unwrapping function. -/
theorem lockStarts_apart : ∀ k ∈ LockKind.all, ∀ w ∈ k.starts, ∀ v ∈ releaseStarts ++ unwrapStarts,
    (w.isPrefixOf v || v.isPrefixOf w) = false := by
  decide +kernel

/-- No lock operation drops its argument. -/
theorem isRelease_of_ofSymbol {name : String} {k : LockKind} (h : LockKind.ofSymbol name = some k) :
    isRelease name = false :=
  k.starts_accepts.disjoint starts_release
    (fun w hw v hv => lockStarts_apart k k.mem_all w hw v (List.mem_append_left _ hv))
    (LockKind.accepts_of_ofSymbol h)

/-- No lock operation unwraps its argument. -/
theorem isUnwrap_of_ofSymbol {name : String} {k : LockKind} (h : LockKind.ofSymbol name = some k) :
    isUnwrap name = false :=
  k.starts_accepts.disjoint starts_unwrap
    (fun w hw v hv => lockStarts_apart k k.mem_all w hw v (List.mem_append_right _ hv))
    (LockKind.accepts_of_ofSymbol h)

end Relock.Guard
