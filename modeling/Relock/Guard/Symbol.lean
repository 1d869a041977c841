import Relock.Text.Pattern

/-!
# Symbols of the functions that guards are passed to

* `isRelease`: functions that drop what they are given, at the end of a scope or on demand;
* `isManualDrop`: those of them that a programmer calls by name;
* `isUnwrap`: functions that take a guard out of the result of a lock operation.
-/

namespace Relock.Guard

open Text Pattern

/-- The dropping functions: those that end a scope and the one that programmers call. -/
def release : Pattern := fun s =>
  literal "_ZN4core3ptr18real_drop_in_place17h" anything s ||
  literal "_ZN4core3ptr13drop_in_place17h" anything s ||
  literal "_ZN4core3mem4drop17h" anything s ||
  optional "<" (literal "core::ptr::" (optional "real_" (literal "drop_in_place" genericEnd))) s ||
  optional "<" (literal "core::mem::drop" genericEnd) s

/-- The dropping function that programmers call. -/
def manualDrop : Pattern := fun s =>
  literal "_ZN4core3mem4drop17h" anything s || optional "<" (literal "core::mem::drop" genericEnd) s

/-- The functions that take the payload out of a result. -/
def unwrap : Pattern := fun s =>
  literal "_ZN4core6result19Result$LT$T$C$E$GT$"
    (oneOf ["6unwrap", "9unwrap_or", "14unwrap_or_else", "17unwrap_or_default", "6expect"]
      (literal "17h" anything)) s ||
  optional "<" (literal "core::result::Result<" (run1 (literal ">::"
    (oneOf ["unwrap", "unwrap_or", "unwrap_or_else", "unwrap_or_default", "expect"] segmentEnd)))) s

/-- Whether a call to `name` drops its argument. -/
def isRelease (name : String) : Bool :=
  release name.toList

/-- Whether a call to `name` is an explicit drop. -/
def isManualDrop (name : String) : Bool :=
  manualDrop name.toList

/-- Whether a call to `name` unwraps a result. -/
def isUnwrap (name : String) : Bool :=
  unwrap name.toList

end Relock.Guard
