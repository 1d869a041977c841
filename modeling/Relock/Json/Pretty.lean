import Relock.Json.Basic

/-!
# Printing JSON over several lines

Each item stands on a line of its own, two blanks further in than the array or object around it; an
empty array or object has no inner lines. In strings only quotes, backslashes and control characters
are escaped.
-/

namespace Relock.Json

/-- The hexadecimal digit of a number below 16. -/
def hexChar (n : Nat) : Char :=
  if n < 10 then Char.ofNat ('0'.toNat + n) else Char.ofNat ('a'.toNat + (n - 10))

/-- A character as it is written in a string. -/
def escape (c : Char) : List Char :=
  if c == '"' then ['\\', '"']
  else if c == '\\' then ['\\', '\\']
  else if c == '\n' then ['\\', 'n']
  else if c == '\r' then ['\\', 'r']
  else if c == '\t' then ['\\', 't']
  else if c.toNat == 8 then ['\\', 'b']
  else if c.toNat == 12 then ['\\', 'f']
  else if c.toNat < 0x20 then
    ['\\', 'u', '0', '0', hexChar (c.toNat / 16), hexChar (c.toNat % 16)]
  else [c]

/-- A text between quotes. -/
def quote (s : String) : String :=
  "\"" ++ String.ofList (s.toList.flatMap escape) ++ "\""

/-- A line break and the blanks of a nesting depth. -/
def newline (depth : Nat) : String :=
  "\n" ++ String.ofList (List.replicate (2 * depth) ' ')

/-- Items between two brackets, one on a line. -/
def enclose (opening closing : String) (depth : Nat) : List String → String
  | [] => opening ++ closing
  | items =>
    opening ++ newline (depth + 1) ++ String.intercalate ("," ++ newline (depth + 1)) items ++
      newline depth ++ closing

mutual

/-- A value at a nesting depth. A number is written if it is an integer, a string if it denotes a
text; `null` stands for the others. -/
def prettyAt (depth : Nat) : Json → String
  | .null => "null"
  | .bool b => if b then "true" else "false"
  | .number n =>
    match n.whole? with
    | some k => toString k
    | none => "null"
  | .string s =>
    match s with
    | some t => quote t
    | none => "null"
  | .array items => enclose "[" "]" depth (prettyItems (depth + 1) items)
  | .object members => enclose "\x7b" "\x7d" depth (prettyMembers (depth + 1) members)

/-- The items of an array. -/
def prettyItems (depth : Nat) : List Json → List String
  | [] => []
  | v :: vs => prettyAt depth v :: prettyItems depth vs

/-- The members of an object. -/
def prettyMembers (depth : Nat) : List (Option String × Json) → List String
  | [] => []
  | (k, v) :: ms => (quote (k.getD "") ++ ": " ++ prettyAt depth v) :: prettyMembers depth ms

end

/-- A value over several lines. -/
def pretty (v : Json) : String := prettyAt 0 v

end Relock.Json
