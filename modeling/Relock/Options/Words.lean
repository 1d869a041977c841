import Relock.Text.Basic

/-!
# Words of a command line

A text is cut into words at its blanks. Parts in quotes are taken as they stand, apart from a few
escapes in double quotes, and a backslash outside quotes takes the blank or quote after it into the
word. Parts that touch make one word.

* `Options.words`: the words of a text, or nothing if a quote is not closed.
-/

namespace Relock.Options

/-- What the characters read so far leave open. The text of the open word is in reverse. -/
inductive Pending where
  /-- No word is open. -/
  | none
  /-- A word is open. -/
  | word (text : List Char)
  /-- A backslash in a word was read. -/
  | escape (text : List Char)
  /-- A single quote in a word is open. -/
  | single (text : List Char)
  /-- A double quote in a word is open. -/
  | double (text : List Char)
  /-- A backslash in a double quote was read. -/
  | doubleEscape (text : List Char)

/-- What a character in a word, outside quotes, leaves open. -/
def Pending.open (text : List Char) (c : Char) : Pending :=
  match c with
  | '\\' => .escape text
  | '\'' => .single text
  | '"' => .double text
  | c => .word (c :: text)

/-- Whether a backslash in double quotes before this character disappears. -/
def isQuotable (c : Char) : Bool :=
  c == '$' || c == '\x60' || c == '"' || c == '\\'

/-- The word whose text, in reverse, is given. -/
def wordOf (text : List Char) : String :=
  String.ofList text.reverse

/-- The words of a text that goes on from what is open. A backslash stands for itself at the end of a
text and at the end of a line. -/
def wordsFrom : Pending → List Char → Option (List String)
  | .none, [] => some []
  | .word text, [] => some [wordOf text]
  | .escape text, [] => some [wordOf ('\\' :: text)]
  | .single _, [] => .none
  | .double _, [] => .none
  | .doubleEscape _, [] => .none
  | .none, c :: cs => wordsFrom (if Text.isBlank c then .none else .open [] c) cs
  | .word text, c :: cs =>
    if Text.isBlank c then (wordsFrom .none cs).map (wordOf text :: ·)
    else wordsFrom (.open text c) cs
  | .escape text, c :: cs =>
    if c = '\n' then (wordsFrom .none cs).map (wordOf ('\\' :: text) :: ·)
    else wordsFrom (.word (c :: text)) cs
  | .single text, c :: cs =>
    wordsFrom (if c = '\'' then .word text else .single (c :: text)) cs
  | .double text, c :: cs =>
    wordsFrom
      (if c = '"' then .word text else if c = '\\' then .doubleEscape text else .double (c :: text)) cs
  | .doubleEscape text, c :: cs =>
    if c = '\n' then .none
    else wordsFrom (.double (if isQuotable c then c :: text else c :: '\\' :: text)) cs

/-- The words of a text, if its quotes are closed. -/
def words (text : String) : Option (List String) :=
  wordsFrom .none text.toList

end Relock.Options
