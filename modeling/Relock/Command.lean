import Relock.Audit.Basic
import Relock.CallGraph.Dot
import Relock.Description.Load
import Relock.Detector.Basic
import Relock.Json.Pretty
import Relock.Options.Basic

/-!
# A run of the tool

A run takes its options from a variable of the environment and from the command line, reads a program,
may write its call graph to a file, and prints reports. All of that but reading, writing and printing is
here.

* `Command.options`: the options of a run;
* `Command.outcome`: what a run writes and prints.
-/

namespace Relock

/-- Why a run fails. -/
inductive CommandError where
  | options (error : OptionsError)
  | load (error : LoadError)
  | fault (fault : Fault)
deriving Repr

/-- What a run has to write and to print. -/
structure Outcome where
  /-- The files to write, with their text. -/
  files : List (String × String)
  /-- The text to print once the files are written. -/
  output : String
deriving DecidableEq, Repr

namespace Command

/-- The options of a run: those of the environment variable come before the arguments. -/
def options (fromEnvironment : Option String) (arguments : List String) : Except OptionsError Options :=
  match fromEnvironment with
  | none => Options.ofArguments arguments
  | some text =>
    match Options.words text with
    | none => .error .openQuote
    | some first => Options.ofArguments (first ++ arguments)

/-- Reports as they are printed. -/
def print (format : Format) (reports : List Report) : String :=
  match format with
  | .text => String.join (reports.map Report.display)
  | .json => (Json.array (reports.map Report.toJson)).pretty ++ "\n"

/-- The files and reports for a program. The call graph is written only if locks are looked for. -/
def analyse (o : Options) (p : Program) : Except Fault (List (String × String) × List Report) := do
  match o.analysis with
  | .manualDrop => return ([], ← Audit.audit p)
  | .doubleLock =>
    let d ← Detector.ofProgram p p.aliasing o.policy
    let files ← o.graph.toList.mapM fun name => do return (name, ← d.graph.dot p.toTables)
    return (files, (← d.detect).2)

/-- What a run writes and prints for the text of a program. -/
def outcome (o : Options) (text : String) : Except CommandError Outcome := do
  let p ← (Program.load text).mapError .load
  let (files, reports) ← (analyse o p).mapError .fault
  return ⟨files, print o.format reports⟩

end Command

end Relock
