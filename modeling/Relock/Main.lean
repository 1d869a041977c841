import Relock.Command

/-!
# The command line
-/

namespace Relock

/-- The wording of an option error. -/
def OptionsError.message : OptionsError → String
  | .openQuote => "Mismatched quotes"
  | .usage .displayHelp =>
    "usage: --ir FILE [-k doublelock|manual-drop] [-f FLAVORS] [-s NAMES] " ++
      "[--no-default-suppress] [-o text|json] [--callgraph-dot FILE]"
  | .usage .displayVersion => "v0.1.0"
  | .usage .unknownArgument => "unknown argument"
  | .usage .tooManyValues => "a value for an option that takes none"
  | .usage .emptyValue => "an option without its value"
  | .usage .missingRequired => "the option --ir is missing"
  | .usage .invalidValue => "a value that the option does not know"
  | .usage .repeated => "an option is given more than once"
  | .flavors e => e.message

/-- The wording of an error of a run. -/
def CommandError.message : CommandError → String
  | .options e => e.message
  | .load e => e.message
  | .fault _ => "the program refers to an entry that it does not have"

/-- One run, from its arguments to what it prints. -/
def runCommand (arguments : List String) : IO Unit := do
  let fromEnvironment ← IO.getEnv "DOUBLELOCK_FLAGS"
  let o ← IO.ofExcept ((Command.options fromEnvironment arguments).mapError OptionsError.message)
  let text ← IO.FS.readFile o.input
  let outcome ← IO.ofExcept ((Command.outcome o text).mapError CommandError.message)
  for (name, contents) in outcome.files do
    IO.FS.writeFile name contents
  IO.print outcome.output

end Relock

/-- Run, and exit with 1 on any error. -/
def main (arguments : List String) : IO UInt32 := do
  try
    Relock.runCommand arguments
    return 0
  catch e =>
    IO.eprintln (toString e)
    return 1
