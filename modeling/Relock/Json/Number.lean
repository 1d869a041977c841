/-!
# Numbers in JSON text

A reader of JSON asks two things about a number: which integer it is, if it is written as one, and
whether it is small enough for a floating-point number of 64 bits.

* `Number.read`: the grammar of numbers;
* `Number.tooLarge`: a decimal significand and a power of ten whose product leaves the 64-bit range.
-/

namespace Relock.Json

/-- What is kept of a number. -/
structure Number where
  /-- The integer, for a number written without fraction and exponent, other than `-0`. -/
  whole? : Option Int
  /-- Whether the number is in the range of a 64-bit floating-point number. -/
  finite : Bool
deriving DecidableEq, Repr

namespace Number

/-- An integer. -/
def ofInt (n : Int) : Number := ⟨some n, true⟩

/-- The value of a digit. -/
def digit (c : Char) : Nat := c.toNat - '0'.toNat

/-- The number that digits spell. -/
def value (ds : List Char) : Nat := ds.foldl (fun n c => 10 * n + digit c) 0

/-- Append digits to a significand of 64 bits, up to the first one that does not fit. The second
component is the number of digits appended. -/
def append (n : Nat) : List Char → Nat × Nat
  | [] => (n, 0)
  | c :: ds =>
    let m := 10 * n + digit c
    if m < 2 ^ 64 then ((append m ds).1, (append m ds).2 + 1) else (n, 0)

/-- The nearest number with 53 significant bits, the even one of two. -/
def round53 (n : Nat) : Nat :=
  let unit := Nat.pow 2 (n.log2 - 52)
  let q := n / unit
  let r := n % unit
  (if unit < 2 * r || (2 * r == unit && q % 2 == 1) then q + 1 else q) * unit

/-- Whether a significand times a power of ten, both rounded to 53 bits, rounds to infinity. -/
def tooLarge (significand : Nat) (scale : Int) : Bool :=
  if significand == 0 || scale < 0 then false
  else if 308 < scale then true
  else Nat.pow 2 1024 - Nat.pow 2 970 ≤ round53 significand * round53 (Nat.pow 10 scale.toNat)

/-- Whether digits before and after the point, and an exponent, denote a number in range. -/
def inRange (int frac : List Char) (exponent : Int) : Bool :=
  let (n, kept) := append 0 int
  let (significand, places) := append n frac
  !tooLarge significand ((int.length - kept : Nat) - (places : Int) + exponent)

/-- The integer part: a zero, or digits that do not start with one. -/
def readInt (s : List Char) : Option (List Char × List Char) :=
  match s.span Char.isDigit with
  | ([], _) => none
  | (['0'], rest) => some (['0'], rest)
  | ('0' :: _, _) => none
  | (ds, rest) => some (ds, rest)

/-- The digits after a point, if there is one. -/
def readFrac : List Char → Option (Option (List Char) × List Char)
  | '.' :: s =>
    match s.span Char.isDigit with
    | ([], _) => none
    | (ds, rest) => some (some ds, rest)
  | s => some (none, s)

/-- The digits of an exponent with its sign. -/
def readSigned : List Char → Option Int
  | '-' :: ds => if !ds.isEmpty && ds.all Char.isDigit then some (-(value ds : Int)) else none
  | '+' :: ds => if !ds.isEmpty && ds.all Char.isDigit then some (value ds) else none
  | ds => if !ds.isEmpty && ds.all Char.isDigit then some (value ds) else none

/-- The exponent that ends a number, if there is one. -/
def readExponent : List Char → Option (Option Int)
  | [] => some none
  | 'e' :: s => (readSigned s).map some
  | 'E' :: s => (readSigned s).map some
  | _ :: _ => none

/-- A number without its sign, which `negative` tells. -/
def readUnsigned (negative : Bool) (s : List Char) : Option Number := do
  let (int, s) ← readInt s
  let (frac, s) ← readFrac s
  let exponent ← readExponent s
  let n := value int
  let whole? : Option Int :=
    if frac.isSome || exponent.isSome || (negative && n == 0) then none
    else some (if negative then -(n : Int) else n)
  return ⟨whole?, inRange int (frac.getD []) (exponent.getD 0)⟩

/-- The number that a text denotes. -/
def read : List Char → Option Number
  | '-' :: s => readUnsigned true s
  | s => readUnsigned false s

end Number

end Relock.Json
