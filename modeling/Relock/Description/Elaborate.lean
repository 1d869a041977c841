import Relock.Builder.Basic
import Relock.Description.Basic
import Relock.Description.TypeText

/-!
# From descriptions to programs

The loader behind the JSON decoder. The names in a description are resolved in the order of the document: first
the declared types, then their fields, the globals, the headers of the functions and the bodies. Functions that
are called but not described are declared where they are first called, with the type of the call as their result.
The first name that cannot be resolved ends the elaboration.

* `resolveType`, `resolveOperand`, `resolveCallee`: single names;
* `lower`: an operation;
* `elaborate`: a whole program, or the first name that cannot be resolved.
-/

namespace Relock.Description

/-- Why a description denotes no program. -/
inductive ElabError where
  | typeTwice (name : String)
  | functionTwice (name : String)
  | blockTwice (label function : String)
  | instTwice (id function : String)
  | unknownType (name : String)
  | unknownGlobal (name : String)
  | unknownValue (name : String)
  | unknownBlock (label : String)
  | badPosition (cause : Text.NumberError)
  /-- The builder was asked for an entry that it does not have. -/
  | fault (cause : Fault)
deriving DecidableEq, Repr

/-- The result of a builder operation while a description is elaborated. -/
def built {α : Type} : Except Fault α → Except ElabError α
  | .ok a => .ok a
  | .error fault => .error (.fault fault)

/-- The tables built so far and what is known by name in the whole program. -/
structure State where
  builder : Builder
  functions : List (String × FunctionId)
  /-- The last global of a name comes first. -/
  globals : List (String × Value)
deriving DecidableEq, Repr

/-- What is known by name in a function. -/
structure Scope where
  func : FunctionId
  blocks : List (String × BlockId)
  insts : List (String × InstId)
deriving DecidableEq, Repr

/-! ## Types -/

/-- The type of `stars` pointers to `t`. -/
def pointers (b : Builder) (t : TypeId) : Nat → TypeId × Builder
  | 0 => (t, b)
  | stars + 1 =>
    let (p, b) := pointers b t stars
    b.pointer p

/-- The type that a base type denotes. -/
def resolveBase (b : Builder) : BaseType → Except ElabError (TypeId × Builder)
  | .void => .ok (.void, b)
  | .int bits => .ok (b.int bits)
  | .named name =>
    match b.lookupNamed name with
    | some t => .ok (t, b)
    | none => .error (.unknownType name)

/-- The type that a text spells. -/
def resolveType (b : Builder) (s : String) : Except ElabError (TypeId × Builder) := do
  let t := TypeText.ofText s
  let (base, b) ← resolveBase b t.base
  return pointers b base t.stars

/-- The types that texts spell. -/
def resolveTypes (b : Builder) : List String → Except ElabError (List TypeId × Builder)
  | [] => .ok ([], b)
  | s :: ss => do
    let (t, b) ← resolveType b s
    let (ts, b) ← resolveTypes b ss
    return (t :: ts, b)

/-- Declare the described types. Of records only the name is declared; they are listed with the texts of
their fields. -/
def declareTypes (b : Builder) :
    List TypeDesc → Except ElabError (List (TypeId × List String) × Builder)
  | [] => .ok ([], b)
  | d :: ds =>
    if (b.lookupNamed d.name).isSome then .error (.typeTwice d.name)
    else
      -- a record is declared before its fields are read, so fields may name any type of the document
      match d.fields with
      | none => declareTypes (b.bodylessType d.name).2 ds
      | some fields => do
        let (t, b) := b.declareRecord d.name
        let (records, b) ← declareTypes b ds
        return ((t, fields) :: records, b)

/-- Set the fields of the declared records. -/
def defineRecords (b : Builder) : List (TypeId × List String) → Except ElabError Builder
  | [] => .ok b
  | (t, fields) :: records => do
    let (fields, b) ← resolveTypes b fields
    defineRecords (← built (b.setFields t fields)) records

/-! ## Globals and function headers -/

/-- Add the described globals. -/
def addGlobals (s : State) : List GlobalDesc → Except ElabError State
  | [] => .ok s
  | d :: ds => do
    let (ty, b) ← resolveType s.builder d.ty
    let (v, b) := b.global d.name ty
    addGlobals { s with builder := b, globals := (d.name, v) :: s.globals } ds

/-- Add the described functions without their bodies. -/
def addHeaders (s : State) : List FunctionDesc → Except ElabError State
  | [] => .ok s
  | d :: ds =>
    if (s.functions.lookup d.name).isSome then .error (.functionTwice d.name)
    else do
      let (params, b) ← resolveTypes s.builder d.params
      let (ret, b) ← resolveType b d.ret
      let (f, b) := b.function d.name params ret
      addHeaders { s with builder := b, functions := (d.name, f) :: s.functions } ds

/-! ## Operands -/

/-- The value that an operand denotes in a function. -/
def resolveOperand (s : State) (scope : Scope) : Operand → Except ElabError Value
  | .int n => .ok (.const n)
  | .name name =>
    match name.toList with
    -- a position beyond the parameters is not an error here
    | '%' :: digits =>
      match Text.readU32 digits with
      | .ok n => .ok (.arg scope.func n)
      | .error cause => .error (.badPosition cause)
    | '@' :: rest =>
      match s.globals.lookup (String.ofList rest) with
      | some v => .ok v
      | none => .error (.unknownGlobal (String.ofList rest))
    | _ =>
      match scope.insts.lookup name with
      | some i => .ok (.inst i)
      | none => .error (.unknownValue name)

/-- The values that operands denote. -/
def resolveOperands (s : State) (scope : Scope) (ops : List Operand) :
    Except ElabError (List Value) :=
  ops.mapM (resolveOperand s scope)

/-- The block with a label. -/
def resolveBlock (scope : Scope) (label : String) : Except ElabError BlockId :=
  match scope.blocks.lookup label with
  | some b => .ok b
  | none => .error (.unknownBlock label)

/-- The function with a name. An unknown one is declared where it is first called, with the type `ty` of that call
as its result and without parameters. -/
def resolveCallee (s : State) (name : String) (ty : Option String) :
    Except ElabError (FunctionId × State) :=
  match s.functions.lookup name with
  | some f => .ok (f, s)
  | none => do
    let (ret, b) ← match ty with
      | some ty => resolveType s.builder ty
      | none => .ok (.void, s.builder)
    let (f, b) := b.function name [] ret
    return (f, { s with builder := b, functions := (name, f) :: s.functions })

/-! ## Instructions -/

/-- How integers are compared; equality if nothing is said. -/
def predicateOf : Option String → Predicate
  | none => .eq
  | some s => if s = "eq" then .eq else if s = "ne" then .ne else .other

/-- An operation with its operands resolved, and the type that it has if none is given. -/
def lower (s : State) (scope : Scope) (ty : Option String) :
    Operation → Except ElabError (InstKind × TypeId × State)
  | .call callee args => do
    -- the callee first: its result type is that of the call that declares it
    let (f, s) ← resolveCallee s callee ty
    let ret ← built (s.builder.returnType f)
    return (.call (.direct f) (← resolveOperands s scope args), ret, s)
  | .callIndirect callee args => do
    let v ← resolveOperand s scope callee
    return (.call (.indirect v) (← resolveOperands s scope args), .void, s)
  | .invoke callee args normal unwind => do
    let (f, s) ← resolveCallee s callee ty
    let ret ← built (s.builder.returnType f)
    let args ← resolveOperands s scope args
    return (.invoke (.direct f) args (← resolveBlock scope normal) (← resolveBlock scope unwind),
      ret, s)
  | .br dest => do return (.br (← resolveBlock scope dest), .void, s)
  | .condBr cond thenDest elseDest => do
    return (.condBr (← resolveOperand s scope cond) (← resolveBlock scope thenDest)
      (← resolveBlock scope elseDest), .void, s)
  | .ret none => .ok (.ret none, .void, s)
  | .ret (some v) => do return (.ret (some (← resolveOperand s scope v)), .void, s)
  | .unreachable => .ok (.unreachable, .void, s)
  | .load ptr => do return (.load (← resolveOperand s scope ptr), .void, s)
  | .store value ptr => do
    return (.store (← resolveOperand s scope value) (← resolveOperand s scope ptr), .void, s)
  | .field base indices => do
    return (.fieldAddr (← resolveOperand s scope base) indices, .void, s)
  | .cast value => do return (.cast (← resolveOperand s scope value), .void, s)
  | .icmp pred lhs rhs => do
    let (bit, b) := s.builder.int 1
    return (.icmp (predicateOf pred) (← resolveOperand s scope lhs) (← resolveOperand s scope rhs),
      bit, { s with builder := b })
  | .alloca allocated => do
    let (t, b) ← resolveType s.builder allocated
    let (ptr, b) := b.pointer t
    return (.alloca, ptr, { s with builder := b })
  | .phi incoming => do
    let incoming ← incoming.mapM fun (v, label) => do
      return (← resolveOperand s scope v, ← resolveBlock scope label)
    return (.phi incoming, .void, s)
  | .debug operands => do return (.debug (← resolveOperands s scope operands), .void, s)
  | .landingPad => .ok (.landingPad, .void, s)
  | .other operands => do return (.other (← resolveOperands s scope operands), .void, s)

/-- Add an instruction to a block. -/
def addInst (s : State) (scope : Scope) (bb : BlockId) (d : InstDesc) : Except ElabError State := do
  let (kind, given, s) ← lower s scope d.ty d.op
  -- a type that is written with the instruction wins over the one of its operation
  let (ty, b) ← match d.ty with
    | some ty => resolveType s.builder ty
    | none => .ok (given, s.builder)
  let (i, b) ← built (b.push bb kind ty)
  match d.loc with
  | some loc => return { s with builder := ← built (b.setLocation i loc) }
  | none => return { s with builder := b }

/-- Add instructions to a block. -/
def addInsts (s : State) (scope : Scope) (bb : BlockId) : List InstDesc → Except ElabError State
  | [] => .ok s
  | d :: ds => do addInsts (← addInst s scope bb d) scope bb ds

/-! ## Bodies -/

/-- Add the blocks of a function without their instructions. -/
def addBlocks (b : Builder) (f : FunctionId) (function : String) (known : List (String × BlockId)) :
    List BlockDesc → Except ElabError (List (String × BlockId) × Builder)
  | [] => .ok (known, b)
  | d :: ds => do
    let (i, b) ← built (b.block f d.label)
    -- the block is in the table already; the error discards the builder anyway
    if (known.lookup d.label).isSome then throw (.blockTwice d.label function)
    addBlocks b f function ((d.label, i) :: known) ds

/-- Number the named instructions of a function from `next` on, so that they can be used before they
are added. -/
def nameInsts (next : Nat) (function : String) (known : List (String × InstId)) :
    List InstDesc → Except ElabError (List (String × InstId))
  | [] => .ok known
  | d :: ds =>
    match d.id with
    | none => nameInsts (next + 1) function known ds
    | some id =>
      if (known.lookup id).isSome then .error (.instTwice id function)
      else nameInsts (next + 1) function ((id, ⟨next⟩) :: known) ds

/-- Add the instructions of the blocks of a function. -/
def fillBlocks (s : State) (scope : Scope) : List BlockDesc → Except ElabError State
  | [] => .ok s
  | d :: ds => do
    let bb ← resolveBlock scope d.label
    fillBlocks (← addInsts s scope bb d.insts) scope ds

/-- Add the body of the function `f`. All its blocks are created and all its instructions are numbered before the
first one is added, so labels and identifiers may be used before they are defined. -/
def addBody (s : State) (f : FunctionId) (d : FunctionDesc) : Except ElabError State := do
  let (blocks, b) ← addBlocks s.builder f d.name [] d.blocks
  let insts ← nameInsts b.tables.insts.size d.name [] (d.blocks.flatMap BlockDesc.insts)
  fillBlocks { s with builder := b } ⟨f, blocks, insts⟩ d.blocks

/-- Add the bodies of functions; the first of them has the index `next`. -/
def addBodies (s : State) (next : Nat) : List FunctionDesc → Except ElabError State
  | [] => .ok s
  | d :: ds => do addBodies (← addBody s ⟨next⟩ d) (next + 1) ds

/-- The builder of the program that a description denotes. The order of the steps is the order in which the first
unresolved name of a document is found. -/
def elaborateBuilder (d : ProgramDesc) : Except ElabError Builder := do
  let (records, b) ← declareTypes .empty d.types
  let b ← defineRecords b records
  let s ← addGlobals ⟨b, [], []⟩ d.globals
  let s ← addHeaders s d.functions
  -- the described functions are the first entries of their table, in the order of the document
  return (← addBodies s 0 d.functions).builder

/-- The program that a description denotes. -/
def elaborate (d : ProgramDesc) : Except ElabError Program := do
  return (← elaborateBuilder d).finish

end Relock.Description
