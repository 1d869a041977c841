import Relock.Json.Token

/-!
# Reading JSON documents

The parser reads one token at a time and keeps the arrays and objects it is inside of on a stack, so the
depth of a document is bounded by its length alone.

* `Parser.step`: one token;
* `Json.parse`: the value that a text denotes.
-/

namespace Relock.Json

namespace Parser

/-- An array or object that a value is part of; what stands before the value is kept in reverse. -/
inductive Frame where
  | array (before : List Json)
  | object (before : List (Option String × Json)) (key : Option String)
deriving Repr

/-- What the parser expects. -/
inductive State where
  /-- A value. -/
  | value (stack : List Frame)
  /-- The first item of an array, or its end. -/
  | item (stack : List Frame)
  /-- The first key of an object, or its end. -/
  | firstKey (stack : List Frame)
  /-- A key. -/
  | key (before : List (Option String × Json)) (stack : List Frame)
  /-- The colon after a key. -/
  | colon (before : List (Option String × Json)) (key : Option String) (stack : List Frame)
  /-- What may stand after a value: a comma or the end of the innermost frame. -/
  | after (v : Json) (stack : List Frame)
deriving Repr

/-- A token where a value has to start. -/
def startValue (stack : List Frame) : Token → Except SyntaxError State
  | .openArray => .ok (.item stack)
  | .openObject => .ok (.firstKey stack)
  | .string s => .ok (.after (.string s) stack)
  | .atom v => .ok (.after v stack)
  | .closeArray | .closeObject | .comma | .colon => .error .misplacedToken

/-- A token after the value `v`. -/
def continueAfter (v : Json) : List Frame → Token → Except SyntaxError State
  | .array before :: stack, .comma => .ok (.value (.array (v :: before) :: stack))
  | .array before :: stack, .closeArray => .ok (.after (.array (v :: before).reverse) stack)
  | .object before k :: stack, .comma => .ok (.key ((k, v) :: before) stack)
  | .object before k :: stack, .closeObject =>
    .ok (.after (.object ((k, v) :: before).reverse) stack)
  | _, _ => .error .misplacedToken

/-- Read one token. -/
def step : State → Token → Except SyntaxError State
  | .value stack, t => startValue stack t
  | .item stack, .closeArray => .ok (.after (.array []) stack)
  | .item stack, t => startValue (.array [] :: stack) t
  | .firstKey stack, .closeObject => .ok (.after (.object []) stack)
  | .firstKey stack, .string k => .ok (.colon [] k stack)
  | .firstKey _, _ => .error .misplacedToken
  | .key before stack, .string k => .ok (.colon before k stack)
  | .key _ _, _ => .error .misplacedToken
  | .colon before k stack, .colon => .ok (.value (.object before k :: stack))
  | .colon _ _ _, _ => .error .misplacedToken
  | .after v stack, t => continueAfter v stack t

/-- The value read when the tokens end. -/
def finish : State → Except SyntaxError Json
  | .after v [] => .ok v
  | _ => .error .unfinished

end Parser

/-- The value that a text denotes. -/
def parse (s : String) : Except SyntaxError Json := do
  Parser.finish (← (← tokens s.toList).foldlM Parser.step (.value []))

end Relock.Json
