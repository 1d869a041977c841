import Relock.Text.Basic

/-!
# The spelling of types

A type is spelled with a star for each pointer and then `void`, `iN` for integers of N bits, or a
declared name. Blanks may stand around each part.
-/

namespace Relock.Description

/-- What stands after the stars of a type. -/
inductive BaseType where
  | void
  | int (bits : Nat)
  | named (name : String)
deriving DecidableEq, Repr

/-- The base type that a text without blanks at its ends denotes. -/
def BaseType.ofText (s : List Char) : BaseType :=
  if s == "void".toList then .void
  else
    match s with
    | 'i' :: digits =>
      match Text.readU32 digits with
      | .ok bits => .int bits
      | .error _ => .named (String.ofList s)
    | _ => .named (String.ofList s)

/-- The number of stars at the start of a text, and what is left after them and the blanks between. -/
def countStars : List Char → Nat × List Char
  | [] => (0, [])
  | c :: s =>
    if c == '*' then ((countStars s).1 + 1, (countStars s).2)
    else if Text.isBlank c then countStars s
    else (0, c :: s)

/-- A spelled type: that many pointers to a base type. -/
structure TypeText where
  stars : Nat
  base : BaseType
deriving DecidableEq, Repr

/-- The type that a text spells. -/
def TypeText.ofText (s : String) : TypeText :=
  let (stars, rest) := countStars (Text.trimRight s.toList)
  ⟨stars, .ofText rest⟩

end Relock.Description
