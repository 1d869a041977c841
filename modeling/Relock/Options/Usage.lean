/-!
# Options on a command line

The options that the tool knows, and how a list of arguments spells them. An option's value is
attached to its name or is the next argument.

* `Options.Setting`: an option, with its names and the values it takes;
* `Options.scan`: the options that a list of arguments gives, in order;
* `Options.settle`: the value of each option, if each is used as it should be.
-/

namespace Relock.Options

/-- An option. -/
inductive Setting where
  | analysis
  | flavors
  | suppress
  | noDefaultSuppress
  | format
  | input
  | graph
deriving DecidableEq, Repr

/-- What the long name of an option, or a letter, asks for. -/
inductive Request where
  | set (s : Setting)
  | help
  | version
deriving DecidableEq, Repr

/-- Why a list of arguments is not accepted. Help and version count: they end a run too. -/
inductive UsageError where
  | displayHelp
  | displayVersion
  | unknownArgument
  | tooManyValues
  | emptyValue
  | missingRequired
  | invalidValue
  | repeated
deriving DecidableEq, Repr

/-- One use of an option. -/
structure Use where
  setting : Setting
  value : Option String
deriving DecidableEq, Repr

namespace Setting

/-- Whether an option has a value. -/
def takesValue (s : Setting) : Bool :=
  s != .noDefaultSuppress

/-- The values of an option, if it does not take any text. -/
def choices : Setting → Option (List String)
  | .analysis => some ["doublelock", "manual-drop"]
  | .format => some ["text", "json"]
  | _ => none

/-- Whether an option can have a value. -/
def accepts (s : Setting) (value : String) : Bool :=
  match s.choices with
  | none => true
  | some values => values.contains value

end Setting

/-- The long names of options. -/
def longNames : List (String × Request) :=
  [("detector-kind", .set .analysis), ("flavors", .set .flavors), ("suppress", .set .suppress),
    ("no-default-suppress", .set .noDefaultSuppress), ("output-format", .set .format),
    ("ir", .set .input), ("callgraph-dot", .set .graph), ("help", .help), ("version", .version)]

/-- The letters of options. -/
def letters : List (Char × Request) :=
  [('k', .set .analysis), ('f', .set .flavors), ('s', .set .suppress), ('o', .set .format),
    ('h', .help), ('V', .version)]

/-- The use of a long name, which may have a value attached after an equals sign. -/
def useOfName (body : List Char) : Except UsageError Use :=
  let name := body.takeWhile (· != '=')
  let attached := match body.dropWhile (· != '=') with
    | [] => none
    | _ :: value => some (String.ofList value)
  match longNames.lookup (String.ofList name), attached with
  | none, _ => .error .unknownArgument
  | some .help, none => .error .displayHelp
  | some .version, none => .error .displayVersion
  | some (.set s), none => .ok ⟨s, none⟩
  | some (.set s), some value => if s.takesValue then .ok ⟨s, some value⟩ else .error .tooManyValues
  | some _, some _ => .error .tooManyValues

/-- The use of a letter, which may have a value attached directly or after an equals sign. -/
def useOfLetter (letter : Char) (rest : List Char) : Except UsageError Use :=
  match letters.lookup letter, rest with
  | none, _ => .error .unknownArgument
  | some .help, _ => .error .displayHelp
  | some .version, _ => .error .displayVersion
  | some (.set s), [] => .ok ⟨s, none⟩
  | some (.set s), '=' :: value => .ok ⟨s, some (String.ofList value)⟩
  | some (.set s), value => .ok ⟨s, some (String.ofList value)⟩

/-- An argument by its form. -/
inductive Argument where
  /-- Two dashes: the end of the options. -/
  | endOfOptions
  | option (use : Use)
  | plain
deriving DecidableEq, Repr

/-- The form of an argument. A dash alone is no option. -/
def Argument.ofText (text : String) : Except UsageError Argument :=
  match text.toList with
  | ['-', '-'] => .ok .endOfOptions
  | '-' :: '-' :: body => (useOfName body).map .option
  | '-' :: c :: rest => (useOfLetter c rest).map .option
  | _ => .ok .plain

/-- Whether the next argument may be the value of an option. -/
def Use.awaits (u : Use) : Bool :=
  u.setting.takesValue && u.value.isNone

/-- The uses of options that a list of arguments gives, in order, and the last one if it still waits for
its value. The option `waiting`, if there is one, takes the next argument for its value, but has no
value if that is an option itself. -/
def scanFrom (waiting : Option Setting) : List String → Except UsageError (List Use × Option Setting)
  | [] => .ok (waiting.toList.map (⟨·, none⟩), waiting)
  | text :: rest => do
    match ← Argument.ofText text, waiting with
    | .endOfOptions, _ =>
      if rest.isEmpty then return (waiting.toList.map (⟨·, none⟩), waiting) else throw .unknownArgument
    | .option u, _ =>
      let (uses, last) ← scanFrom (if u.awaits then some u.setting else none) rest
      let now := if u.awaits then [] else [u]
      return (waiting.toList.map (⟨·, none⟩) ++ now ++ uses, last)
    | .plain, none => throw .unknownArgument
    | .plain, some s =>
      let (uses, last) ← scanFrom none rest
      return (⟨s, some text⟩ :: uses, last)

/-- The uses of options that a list of arguments gives, and the last one if it still waits for its
value. -/
def scan (arguments : List String) : Except UsageError (List Use × Option Setting) :=
  scanFrom none arguments

/-- The values that an option is given. -/
def valuesOf (uses : List Use) (s : Setting) : List String :=
  (uses.filter fun u => u.setting == s).filterMap Use.value

/-- How an option is misused, if it is. -/
def misuse (uses : List Use) (s : Setting) : Option UsageError :=
  let values := valuesOf uses s
  if s.takesValue && values.isEmpty then some .emptyValue
  else if !values.all s.accepts then some .invalidValue
  else if (uses.filter fun u => u.setting == s).length > 1 then some .repeated
  else none

/-- The uses of options that a list of arguments gives, if each option is used as it should be and the
input is named. -/
def settle (arguments : List String) : Except UsageError (List Use) := do
  let (uses, last) ← scan arguments
  if last.any fun s => (valuesOf uses s).isEmpty then throw .emptyValue
  if !(uses.any fun u => u.setting == .input) then throw .missingRequired
  match (uses.map Use.setting).eraseDups.findSome? (misuse uses) with
  | some e => throw e
  | none => return uses

end Relock.Options
