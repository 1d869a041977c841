import Relock.Description.Basic
import Relock.Json.Basic

/-!
# Descriptions in JSON

Each kind of description but an instruction is an object, or an array of its fields in their order, the
last ones of which may be left out if they have a default. Keys that mean nothing are ignored with all
that stands under them; keys that mean something stand once. An instruction is an object whose keys
depend on its operation; it is kept as a whole before they are looked at, so that all its parts have to
fit into memory.

* `Fields`, `fieldsOf`: the known fields of a description;
* `operationOf`: the operations, by name or number;
* `ProgramDesc.ofJson`: a whole program.
-/

namespace Relock.Description

/-- Why a JSON value describes no program. -/
inductive DecodeError where
  | wrongKind
  | notText
  | outOfRange
  | missing (field : String)
  | repeated (field : String)
  | tooManyItems
  | tooLargeToKeep
  | unknownOperation
deriving DecidableEq, Repr

/-! ## Single values -/

/-- A text. -/
def textOf : Json → Except DecodeError String
  | .string (some s) => .ok s
  | .string none => .error .notText
  | _ => .error .wrongKind

/-- An integer of 64 bits. -/
def int64Of : Json → Except DecodeError Int
  | .number ⟨some n, _⟩ =>
    if -0x8000000000000000 ≤ n ∧ n < 0x8000000000000000 then .ok n else .error .outOfRange
  | _ => .error .wrongKind

/-- A natural number of 32 bits. -/
def nat32Of : Json → Except DecodeError Nat
  | .number ⟨some n, _⟩ => if 0 ≤ n ∧ n < 0x100000000 then .ok n.toNat else .error .outOfRange
  | _ => .error .wrongKind

/-- A list. -/
def listOf {α : Type} (item : Json → Except DecodeError α) : Json → Except DecodeError (List α)
  | .array items => items.mapM item
  | _ => .error .wrongKind

/-- A value, or nothing for `null`. -/
def optionOf {α : Type} (value : Json → Except DecodeError α) : Json → Except DecodeError (Option α)
  | .null => .ok none
  | v => do return some (← value v)

/-- An operand. -/
def operandOf : Json → Except DecodeError Operand
  | .string (some s) => .ok (.name s)
  | .string none => .error .notText
  | v => do return .int (← int64Of v)

/-- An operand that comes from a block. -/
def incomingOf : Json → Except DecodeError (Operand × String)
  | .array [v, b] => do return (← operandOf v, ← textOf b)
  | _ => .error .wrongKind

/-! ## Fields -/

/-- The known fields of a description, each at most once. -/
abbrev Fields := List (String × Json)

/-- The keys of an object as texts. -/
def keyed : List (Option String × Json) → Except DecodeError Fields
  | [] => .ok []
  | (some k, v) :: ms => do return (k, v) :: (← keyed ms)
  | (none, _) :: _ => .error .notText

/-- Fields whose keys are all different. -/
def distinct : Fields → Except DecodeError Fields
  | [] => .ok []
  | (k, v) :: fs =>
    if fs.any fun f => f.1 == k then .error (.repeated k) else do return (k, v) :: (← distinct fs)

/-- The fields with the given names. -/
def only (names : List String) (fs : Fields) : Except DecodeError Fields :=
  distinct (fs.filter fun f => names.contains f.1)

/-- The fields of an object with the given names, or of an array that lists them in this order. -/
def fieldsOf (names : List String) : Json → Except DecodeError Fields
  | .object ms => do only names (← keyed ms)
  | .array items => if items.length ≤ names.length then .ok (names.zip items) else .error .tooManyItems
  | _ => .error .wrongKind

/-- The value of a field that has to be there. -/
def required {α : Type} (fs : Fields) (name : String) (value : Json → Except DecodeError α) :
    Except DecodeError α :=
  match fs.lookup name with
  | some v => value v
  | none => .error (.missing name)

/-- The value of a field that may be left out. -/
def withDefault {α : Type} (fs : Fields) (name : String) (default : α)
    (value : Json → Except DecodeError α) : Except DecodeError α :=
  match fs.lookup name with
  | some v => value v
  | none => .ok default

/-- The value of a field that may be left out or `null`. -/
def optional {α : Type} (fs : Fields) (name : String) (value : Json → Except DecodeError α) :
    Except DecodeError (Option α) :=
  withDefault fs name none (optionOf value)

/-! ## Instructions -/

/-- The operations that a document can name. -/
inductive Opcode where
  | call
  | callIndirect
  | invoke
  | br
  | condBr
  | ret
  | unreachable
  | load
  | store
  | field
  | cast
  | icmp
  | alloca
  | phi
  | debug
  | landingPad
  | other
deriving DecidableEq, Repr

/-- The operations with their names. The place of an operation in this list is its number. -/
def opcodes : List (String × Opcode) :=
  [("call", .call), ("call_indirect", .callIndirect), ("invoke", .invoke), ("br", .br),
    ("cond_br", .condBr), ("ret", .ret), ("unreachable", .unreachable), ("load", .load),
    ("store", .store), ("field", .field), ("cast", .cast), ("icmp", .icmp), ("alloca", .alloca),
    ("phi", .phi), ("dbg", .debug), ("landing_pad", .landingPad), ("other", .other)]

/-- The operation that a value names. -/
def opcodeOf : Json → Except DecodeError Opcode
  | .string (some s) =>
    match opcodes.lookup s with
    | some o => .ok o
    | none => .error .unknownOperation
  | .number ⟨some n, _⟩ =>
    match if 0 ≤ n then opcodes[n.toNat]? else none with
    | some (_, o) => .ok o
    | none => .error .unknownOperation
  | _ => .error .wrongKind

/-- An operation with the operands among the fields. -/
def operationOf (fs : Fields) : Opcode → Except DecodeError Operation
  | .call => do
    let fs ← only ["callee", "args"] fs
    return .call (← required fs "callee" textOf) (← withDefault fs "args" [] (listOf operandOf))
  | .callIndirect => do
    let fs ← only ["callee", "args"] fs
    return .callIndirect (← required fs "callee" operandOf)
      (← withDefault fs "args" [] (listOf operandOf))
  | .invoke => do
    let fs ← only ["callee", "args", "normal", "unwind"] fs
    return .invoke (← required fs "callee" textOf) (← withDefault fs "args" [] (listOf operandOf))
      (← required fs "normal" textOf) (← required fs "unwind" textOf)
  | .br => do
    let fs ← only ["dest"] fs
    return .br (← required fs "dest" textOf)
  | .condBr => do
    let fs ← only ["cond", "then_dest", "else_dest"] fs
    return .condBr (← required fs "cond" operandOf) (← required fs "then_dest" textOf)
      (← required fs "else_dest" textOf)
  | .ret => do
    let fs ← only ["value"] fs
    return .ret (← optional fs "value" operandOf)
  | .unreachable => .ok .unreachable
  | .load => do
    let fs ← only ["ptr"] fs
    return .load (← required fs "ptr" operandOf)
  | .store => do
    let fs ← only ["value", "ptr"] fs
    return .store (← required fs "value" operandOf) (← required fs "ptr" operandOf)
  | .field => do
    let fs ← only ["base", "indices"] fs
    return .field (← required fs "base" operandOf) (← required fs "indices" (listOf int64Of))
  | .cast => do
    let fs ← only ["value"] fs
    return .cast (← required fs "value" operandOf)
  | .icmp => do
    let fs ← only ["pred", "lhs", "rhs"] fs
    return .icmp (← optional fs "pred" textOf) (← required fs "lhs" operandOf)
      (← required fs "rhs" operandOf)
  | .alloca => do
    let fs ← only ["allocated"] fs
    return .alloca (← required fs "allocated" textOf)
  | .phi => do
    let fs ← only ["incoming"] fs
    return .phi (← required fs "incoming" (listOf incomingOf))
  | .debug => do
    let fs ← only ["operands"] fs
    return .debug (← withDefault fs "operands" [] (listOf operandOf))
  | .landingPad => .ok .landingPad
  | .other => do
    let fs ← only ["operands"] fs
    return .other (← withDefault fs "operands" [] (listOf operandOf))

/-- How deep arrays and objects may be nested in what is kept of a document. -/
def maxDepth : Nat := 127

/-- How deep instructions stand: in a block, a function and the program, and in the list of each. -/
def instDepth : Nat := 7

/-- The location of an instruction. -/
def locationOf (v : Json) : Except DecodeError Location := do
  let fs ← fieldsOf ["directory", "file", "line"] v
  return {
    directory := ← withDefault fs "directory" "" textOf
    file := ← required fs "file" textOf
    line := ← required fs "line" nat32Of }

/-- The keys that every instruction may have. -/
def instKeys : List String := ["id", "ty", "loc"]

/-- An instruction. -/
def InstDesc.ofJson : Json → Except DecodeError InstDesc
  | .object ms => do
    let fs ← keyed ms
    let own ← only instKeys fs
    let rest := fs.filter fun f => !instKeys.contains f.1
    if !rest.all fun f => f.2.holds (maxDepth - instDepth) then throw .tooLargeToKeep
    let opcode ← required (← only ["op"] rest) "op" opcodeOf
    return {
      id := ← optional own "id" textOf
      ty := ← optional own "ty" textOf
      loc := ← optional own "loc" locationOf
      op := ← operationOf rest opcode }
  | _ => .error .wrongKind

/-! ## Blocks, functions and programs -/

/-- A block. -/
def BlockDesc.ofJson (v : Json) : Except DecodeError BlockDesc := do
  let fs ← fieldsOf ["label", "insts"] v
  return {
    label := ← required fs "label" textOf
    insts := ← withDefault fs "insts" [] (listOf InstDesc.ofJson) }

/-- A function. -/
def FunctionDesc.ofJson (v : Json) : Except DecodeError FunctionDesc := do
  let fs ← fieldsOf ["name", "params", "ret", "blocks"] v
  return {
    name := ← required fs "name" textOf
    params := ← withDefault fs "params" [] (listOf textOf)
    ret := ← withDefault fs "ret" "void" textOf
    blocks := ← withDefault fs "blocks" [] (listOf BlockDesc.ofJson) }

/-- A global. -/
def GlobalDesc.ofJson (v : Json) : Except DecodeError GlobalDesc := do
  let fs ← fieldsOf ["name", "ty"] v
  return { name := ← required fs "name" textOf, ty := ← required fs "ty" textOf }

/-- A declared type. -/
def TypeDesc.ofJson (v : Json) : Except DecodeError TypeDesc := do
  let fs ← fieldsOf ["name", "fields"] v
  return {
    name := ← required fs "name" textOf
    fields := ← optional fs "fields" (listOf textOf) }

/-- A program. -/
def ProgramDesc.ofJson (v : Json) : Except DecodeError ProgramDesc := do
  let fs ← fieldsOf ["types", "globals", "functions"] v
  return {
    types := ← withDefault fs "types" [] (listOf TypeDesc.ofJson)
    globals := ← withDefault fs "globals" [] (listOf GlobalDesc.ofJson)
    functions := ← withDefault fs "functions" [] (listOf FunctionDesc.ofJson) }

end Relock.Description
