import Relock.Json.Number

/-!
# JSON values

Values as a document writes them: the members of an object keep their order and may repeat a key. A
string is `none` if one of its escapes is half of a surrogate pair without the other half, so that it
denotes no text.

* `Json.holds depth`: what has to be true of a value that is kept in memory.
-/

namespace Relock

/-- A JSON value. -/
inductive Json where
  | null
  | bool (b : Bool)
  | number (n : Json.Number)
  | string (s : Option String)
  | array (items : List Json)
  | object (members : List (Option String × Json))
deriving Repr, Inhabited

namespace Json

/-- A string that denotes a text. -/
def text (s : String) : Json := .string (some s)

/-- An integer. -/
def int (n : Int) : Json := .number (.ofInt n)

/-- An object with the given fields. -/
def ofFields (fields : List (String × Json)) : Json :=
  .object (fields.map fun (k, v) => (some k, v))

mutual

/-- Whether a value can be kept in memory: arrays and objects are nested at most `depth` deep, every
string denotes a text and every number is in range. -/
def holds (depth : Nat) : Json → Bool
  | .null => true
  | .bool _ => true
  | .number n => n.finite
  | .string s => s.isSome
  | .array items =>
    match depth with
    | 0 => false
    | d + 1 => itemsHold d items
  | .object members =>
    match depth with
    | 0 => false
    | d + 1 => membersHold d members

/-- `holds` for each item of an array. -/
def itemsHold (depth : Nat) : List Json → Bool
  | [] => true
  | v :: vs => v.holds depth && itemsHold depth vs

/-- `holds` for each value of an object, whose keys denote texts. -/
def membersHold (depth : Nat) : List (Option String × Json) → Bool
  | [] => true
  | (k, v) :: ms => k.isSome && v.holds depth && membersHold depth ms

end

end Json

end Relock
