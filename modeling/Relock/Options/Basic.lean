import Relock.Options.Usage
import Relock.Options.Words
import Relock.Policy
import Relock.Text.Basic

/-!
# Options of the tool

What a run analyses, and how it answers.

* `Options.ofArguments`: the options that a list of arguments gives;
* `Options.ofText`: the options that a text gives.
-/

namespace Relock

/-- What a run looks for. -/
inductive Analysis where
  | doubleLock
  | manualDrop
deriving DecidableEq, Repr

/-- How reports are printed. -/
inductive Format where
  | text
  | json
deriving DecidableEq, Repr

/-- The options of a run. -/
structure Options where
  analysis : Analysis
  format : Format
  /-- The file with the program. -/
  input : String
  /-- The file for the call graph. -/
  graph : Option String
  policy : Policy
deriving DecidableEq, Repr

/-- Why there are no options. -/
inductive OptionsError where
  | openQuote
  | usage (error : Options.UsageError)
  | flavors (error : FlavorError)
deriving DecidableEq, Repr

namespace Options

/-- The starts of names that a text lists between commas, without the empty ones. -/
def suppressions (text : String) : List String :=
  ((Text.pieces ',' text.toList).filter fun s => !s.isEmpty).map String.ofList

/-- The value that an option is given. -/
def valueOf (uses : List Use) (s : Setting) : Option String :=
  (valuesOf uses s).head?

/-- The policy that the uses of options give. -/
def policyOf (uses : List Use) : Except FlavorError Policy := do
  let flavors ← match valueOf uses .flavors with
    | none => pure .all
    | some text => FlavorSet.ofText text
  let kept :=
    if uses.any fun u => u.setting == .noDefaultSuppress then [] else Policy.defaultSuppressed
  return ⟨flavors, kept ++ ((valueOf uses .suppress).map suppressions).getD []⟩

/-- The options that a list of arguments gives. -/
def ofArguments (arguments : List String) : Except OptionsError Options := do
  let uses ← (settle arguments).mapError .usage
  return {
    analysis := if valueOf uses .analysis = some "manual-drop" then .manualDrop else .doubleLock
    format := if valueOf uses .format = some "json" then .json else .text
    input := (valueOf uses .input).getD ""
    graph := valueOf uses .graph
    policy := ← (policyOf uses).mapError .flavors }

/-- The options that a text gives. -/
def ofText (text : String) : Except OptionsError Options :=
  match words text with
  | none => .error .openQuote
  | some arguments => ofArguments arguments

end Options

end Relock
