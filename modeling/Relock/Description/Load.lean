import Relock.Description.Decode
import Relock.Description.Elaborate
import Relock.Json.Parser

/-!
# Loading programs

* `Program.ofJson`, `Program.load`: the program of a JSON value or text;
* `LoadError`, `LoadError.message`: what can be wrong with it.
-/

namespace Relock

/-- Why a text is not a program. -/
inductive LoadError where
  | syntaxError (cause : Json.SyntaxError)
  | undecodable (cause : Description.DecodeError)
  | unresolved (cause : Description.ElabError)
deriving DecidableEq, Repr

/-- The wording of an `ElabError`. -/
def Description.ElabError.message : ElabError → String
  | .typeTwice name => s!"type `{name}` is defined twice"
  | .functionTwice name => s!"function `{name}` is defined twice"
  | .blockTwice label function => s!"block `{label}` is defined twice in `{function}`"
  | .instTwice id function => s!"instruction `{id}` is defined twice in `{function}`"
  | .unknownType name => s!"unknown type `{name}`"
  | .unknownGlobal name => s!"unknown global `{name}`"
  | .unknownValue name => s!"unknown value `{name}`"
  | .unknownBlock label => s!"unknown block `{label}`"
  | .badPosition cause => cause.message
  | .fault _ => "missing table entry"

/-- The wording of a `LoadError`. -/
def LoadError.message : LoadError → String
  | .syntaxError _ => "malformed JSON document"
  | .undecodable _ => "the document does not describe a program"
  | .unresolved cause => cause.message

namespace Program

/-- The program that a description denotes. -/
def ofDesc (d : Description.ProgramDesc) : Except LoadError Program :=
  match Description.elaborate d with
  | .ok p => .ok p
  | .error cause => .error (.unresolved cause)

/-- The program that a JSON value describes. -/
def ofJson (v : Json) : Except LoadError Program :=
  match Description.ProgramDesc.ofJson v with
  | .ok d => ofDesc d
  | .error cause => .error (.undecodable cause)

/-- The program that a text describes. -/
def load (s : String) : Except LoadError Program :=
  match Json.parse s with
  | .ok v => ofJson v
  | .error cause => .error (.syntaxError cause)

end Program

end Relock
