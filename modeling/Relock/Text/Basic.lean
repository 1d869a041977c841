/-!
# Blanks, pieces and numbers in a text

What the readers of settings and of type texts share. Texts are lists of characters here.

* `isBlank`, `trimRight`, `trim`: white space, which is the Unicode property White_Space, and texts without it
  at their ends;
* `pieces`: a text cut at a separator;
* `readU32`: an unsigned decimal number of 32 bits, with an optional plus sign and ASCII digits, leading zeros
  allowed. The text is read from left to right, up to the first character that is no digit or makes the number
  too large.
-/

namespace Relock.Text

/-! ## White space -/

/-- The characters with the Unicode property White_Space. -/
def isBlank (c : Char) : Bool :=
  let n := c.toNat
  (9 ≤ n && n ≤ 13) || n == 0x20 || n == 0x85 || n == 0xA0 || n == 0x1680 ||
    (0x2000 ≤ n && n ≤ 0x200A) || n == 0x2028 || n == 0x2029 || n == 0x202F || n == 0x205F ||
    n == 0x3000

/-- A text without the blanks at its end. -/
def trimRight (s : List Char) : List Char :=
  (s.reverse.dropWhile isBlank).reverse

/-- A text without the blanks at its two ends. -/
def trim (s : List Char) : List Char :=
  trimRight (s.dropWhile isBlank)

/-! ## Pieces -/

/-- The pieces of a text between the separators `sep`, empty ones included. -/
def pieces (sep : Char) : List Char → List (List Char)
  | [] => [[]]
  | c :: s => if c == sep then [] :: pieces sep s else (pieces sep s).modifyHead (c :: ·)

/-! ## Numbers -/

/-- Why a text is not an unsigned number of 32 bits. -/
inductive NumberError where
  | empty
  | invalidDigit
  | tooLarge
deriving DecidableEq, Repr

/-- The wording of a `NumberError`. -/
def NumberError.message : NumberError → String
  | .empty => "cannot parse integer from empty string"
  | .invalidDigit => "invalid digit found in string"
  | .tooLarge => "number too large to fit in target type"

/-- Append the digits of a text to the number `n`, which stays below 2 ^ 32. -/
def readDigits (n : Nat) : List Char → Except NumberError Nat
  | [] => .ok n
  | c :: s =>
    if c.isDigit then
      let m := 10 * n + (c.toNat - '0'.toNat)
      if m < 2 ^ 32 then readDigits m s else .error .tooLarge
    else .error .invalidDigit

/-- The number that a text denotes. A sign needs a digit after it. -/
def readU32 : List Char → Except NumberError Nat
  | [] => .error .empty
  | ['+'] => .error .invalidDigit
  | '+' :: s => readDigits 0 s
  | s => readDigits 0 s

end Relock.Text
