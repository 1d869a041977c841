/-!
# Patterns of symbol names

A `Pattern` tests the rest of a symbol. The combinators put one more requirement in front of a pattern,
so a recogniser reads from left to right like the symbols it accepts.

* `literal w k`: the text `w`, then `k`;
* `optional w k`: `w` or nothing, then `k`;
* `oneOf ws k`: one of the texts `ws`, then `k`;
* `run k`: any number of characters other than a line feed, then `k`; `run1 k` wants at least one;
* `somewhere k`: `k` holds at some position.
-/

namespace Relock.Text

/-- A test on the rest of a symbol. -/
abbrev Pattern := List Char → Bool

namespace Pattern

/-- Whatever follows. -/
def anything : Pattern := fun _ => true

/-- The characters `w`, then `k`. -/
def chars (k : Pattern) : List Char → Pattern
  | [], s => k s
  | _ :: _, [] => false
  | c :: w, d :: s => c == d && chars k w s

/-- The text `w`, then `k`. -/
def literal (w : String) (k : Pattern) : Pattern :=
  chars k w.toList

/-- The text `w` or nothing, then `k`. -/
def optional (w : String) (k : Pattern) : Pattern :=
  fun s => literal w k s || k s

/-- One of the texts `ws`, then `k`. -/
def oneOf (ws : List String) (k : Pattern) : Pattern :=
  fun s => ws.any fun w => literal w k s

/-- Any number of characters other than a line feed, then `k`. -/
def run (k : Pattern) : Pattern
  | [] => k []
  | c :: s => k (c :: s) || (c != '\n' && run k s)

/-- At least one character other than a line feed, then `k`. -/
def run1 (k : Pattern) : Pattern
  | [] => false
  | c :: s => c != '\n' && run k s

/-- The pattern `k` at some position. -/
def somewhere (k : Pattern) : Pattern
  | [] => k []
  | c :: s => k (c :: s) || somewhere k s

/-- The end of a path segment: nothing more, or `::` and more segments. -/
def segmentEnd : Pattern :=
  fun s => s.isEmpty || literal "::" anything s

/-- The end of a segment, or the start of its type arguments. -/
def genericEnd : Pattern :=
  fun s => segmentEnd s || literal "<" anything s

end Pattern

end Relock.Text
