import Relock.Json.Basic

/-!
# Tokens of JSON text

The lexer reads a text one character at a time. Words and numbers end at the first character that
cannot belong to them.

* `TextUnit`, `assemble`: what a string is made of, and the text it denotes;
* `Lexer.step`: one character;
* `tokens`: the tokens of a text.
-/

namespace Relock.Json

/-- Why a text is not a JSON document. -/
inductive SyntaxError where
  | unexpectedCharacter (c : Char)
  | unknownEscape (c : Char)
  | unknownWord (w : String)
  | malformedNumber (w : String)
  | misplacedToken
  | unfinished
deriving DecidableEq, Repr

/-- A token. Values without parts are tokens of their own. -/
inductive Token where
  | openArray
  | closeArray
  | openObject
  | closeObject
  | comma
  | colon
  | string (s : Option String)
  | atom (v : Json)
deriving Repr

/-- A part of a string: a character, or the code unit of a `\u` escape. -/
inductive TextUnit where
  | char (c : Char)
  | code (n : Nat)
deriving DecidableEq, Repr

/-- The first half of a surrogate pair. -/
def isHigh (n : Nat) : Bool := 0xD800 ≤ n && n ≤ 0xDBFF

/-- The second half of a surrogate pair. -/
def isLow (n : Nat) : Bool := 0xDC00 ≤ n && n ≤ 0xDFFF

/-- The text that the parts of a string denote, if no half of a surrogate pair stands alone. -/
def assemble : List TextUnit → Option (List Char)
  | [] => some []
  | .char c :: us => (assemble us).map (c :: ·)
  | .code n :: .code m :: us =>
    if isHigh n && isLow m then
      (assemble us).map (Char.ofNat (0x10000 + 0x400 * (n - 0xD800) + (m - 0xDC00)) :: ·)
    else if isHigh n || isLow n then none
    else (assemble (.code m :: us)).map (Char.ofNat n :: ·)
  | .code n :: us =>
    if isHigh n || isLow n then none else (assemble us).map (Char.ofNat n :: ·)

/-- The character that a backslash and a letter stand for. -/
def escaped : Char → Option Char
  | '"' => some '"'
  | '\\' => some '\\'
  | '/' => some '/'
  | 'b' => some (Char.ofNat 8)
  | 'f' => some (Char.ofNat 12)
  | 'n' => some '\n'
  | 'r' => some '\r'
  | 't' => some '\t'
  | _ => none

/-- The value of a hexadecimal digit. -/
def hexDigit (c : Char) : Option Nat :=
  if '0' ≤ c && c ≤ '9' then some (c.toNat - '0'.toNat)
  else if 'a' ≤ c && c ≤ 'f' then some (c.toNat - 'a'.toNat + 10)
  else if 'A' ≤ c && c ≤ 'F' then some (c.toNat - 'A'.toNat + 10)
  else none

/-- The white space of JSON. -/
def isSpace (c : Char) : Bool := c == ' ' || c == '\t' || c == '\n' || c == '\r'

/-- The characters of words. -/
def isWordChar (c : Char) : Bool := 'a' ≤ c && c ≤ 'z'

/-- The characters of numbers. -/
def isNumberChar (c : Char) : Bool :=
  c.isDigit || c == '-' || c == '+' || c == '.' || c == 'e' || c == 'E'

/-- The token of a single character. -/
def punctuation : Char → Option Token
  | '[' => some .openArray
  | ']' => some .closeArray
  | '{' => some .openObject
  | '}' => some .closeObject
  | ',' => some .comma
  | ':' => some .colon
  | _ => none

/-- The token that a word is. -/
def wordToken (w : String) : Except SyntaxError Token :=
  if w = "null" then .ok (.atom .null)
  else if w = "true" then .ok (.atom (.bool true))
  else if w = "false" then .ok (.atom (.bool false))
  else .error (.unknownWord w)

/-- The token that a number is. -/
def numberToken (w : List Char) : Except SyntaxError Token :=
  match Number.read w with
  | some n => .ok (.atom (.number n))
  | none => .error (.malformedNumber (String.ofList w))

namespace Lexer

/-- What the lexer is in the middle of. What it has read of it is kept in reverse. -/
inductive Mode where
  | between
  | word (read : List Char)
  | number (read : List Char)
  | string (read : List TextUnit)
  | escape (read : List TextUnit)
  /-- After `digits` hexadecimal digits of an escape, which spell `code`. -/
  | hex (digits code : Nat) (read : List TextUnit)
deriving Repr

/-- The lexer: what it is in the middle of, and the tokens before, in reverse. -/
structure State where
  mode : Mode
  done : List Token
deriving Repr

/-- A character that stands between two tokens or starts one. -/
def start (done : List Token) (c : Char) : Except SyntaxError State :=
  match punctuation c with
  | some t => .ok ⟨.between, t :: done⟩
  | none =>
    if isSpace c then .ok ⟨.between, done⟩
    else if c == '"' then .ok ⟨.string [], done⟩
    else if isWordChar c then .ok ⟨.word [c], done⟩
    else if c.isDigit || c == '-' then .ok ⟨.number [c], done⟩
    else .error (.unexpectedCharacter c)

/-- A character inside a string, `read` before it. -/
def inString (done : List Token) (read : List TextUnit) (c : Char) : Except SyntaxError State :=
  if c == '"' then .ok ⟨.between, .string ((assemble read.reverse).map String.ofList) :: done⟩
  else if c == '\\' then .ok ⟨.escape read, done⟩
  else if c.toNat < 0x20 then .error (.unexpectedCharacter c)
  else .ok ⟨.string (.char c :: read), done⟩

/-- The character after a backslash. -/
def inEscape (done : List Token) (read : List TextUnit) (c : Char) : Except SyntaxError State :=
  if c == 'u' then .ok ⟨.hex 0 0 read, done⟩
  else
    match escaped c with
    | some d => .ok ⟨.string (.char d :: read), done⟩
    | none => .error (.unknownEscape c)

/-- A character where a hexadecimal digit has to stand. The fourth one ends the escape. -/
def inHex (done : List Token) (digits code : Nat) (read : List TextUnit) (c : Char) :
    Except SyntaxError State :=
  match hexDigit c with
  | none => .error (.unexpectedCharacter c)
  | some d =>
    if digits == 3 then .ok ⟨.string (.code (16 * code + d) :: read), done⟩
    else .ok ⟨.hex (digits + 1) (16 * code + d) read, done⟩

/-- Read one character. -/
def step (s : State) (c : Char) : Except SyntaxError State :=
  match s.mode with
  | .between => start s.done c
  | .word read =>
    if isWordChar c then .ok ⟨.word (c :: read), s.done⟩
    else do start ((← wordToken (String.ofList read.reverse)) :: s.done) c
  | .number read =>
    if isNumberChar c then .ok ⟨.number (c :: read), s.done⟩
    else do start ((← numberToken read.reverse) :: s.done) c
  | .string read => inString s.done read c
  | .escape read => inEscape s.done read c
  | .hex digits code read => inHex s.done digits code read c

/-- The tokens read when the text ends. -/
def finish (s : State) : Except SyntaxError (List Token) :=
  match s.mode with
  | .between => .ok s.done.reverse
  | .word read => do return ((← wordToken (String.ofList read.reverse)) :: s.done).reverse
  | .number read => do return ((← numberToken read.reverse) :: s.done).reverse
  | .string _ => .error .unfinished
  | .escape _ => .error .unfinished
  | .hex _ _ _ => .error .unfinished

end Lexer

/-- The tokens of a text. -/
def tokens (s : List Char) : Except SyntaxError (List Token) := do
  Lexer.finish (← s.foldlM Lexer.step ⟨.between, []⟩)

end Relock.Json
