import Relock.Program.Basic

/-!
# Looking things up in a program

Nothing keeps an index in the tables in range, so a look-up may fail; `Fault` says how. The questions
in this module look no further than a few entries of the tables.

* `Tables.function`, `Tables.block`, `Tables.inst`, `Tables.type`, `Tables.global`: one entry;
* `Tables.successors`, `Tables.isLandingPadBlock`: the control flow between blocks;
* `Tables.describe`: where an instruction stands, for people.
-/

namespace Relock

/-- The tables of a program. -/
inductive Table where
  | types
  | globals
  | functions
  | blocks
  | insts
deriving DecidableEq, Repr

/-- Why a question about a program has no answer. -/
inductive Fault where
  /-- A table has no entry with this index. -/
  | outOfRange (table : Table) (index : Nat)
  /-- Casts and field addresses lead from this value back to themselves. -/
  | endlessChain (v : Value)
  /-- Pointers lead from this type back to themselves. -/
  | endlessType (t : TypeId)
deriving DecidableEq, Repr

/-- The entry of a table, or the fault of a missing one. -/
def lookUp {α : Type} (table : Table) (xs : Array α) (index : Nat) : Except Fault α :=
  match xs[index]? with
  | some x => .ok x
  | none => .error (.outOfRange table index)

namespace Tables

/-- The type with an index. -/
def type (t : Tables) (i : TypeId) : Except Fault TypeKind :=
  lookUp .types t.types i.index

/-- The global with an index. -/
def global (t : Tables) (i : GlobalId) : Except Fault Global :=
  lookUp .globals t.globals i.index

/-- The function with an index. -/
def function (t : Tables) (i : FunctionId) : Except Fault Function :=
  lookUp .functions t.functions i.index

/-- The block with an index. -/
def block (t : Tables) (i : BlockId) : Except Fault Block :=
  lookUp .blocks t.blocks i.index

/-- The instruction with an index. -/
def inst (t : Tables) (i : InstId) : Except Fault Instruction :=
  lookUp .insts t.insts i.index

/-- The indices of all functions, in order. -/
def functionIds (t : Tables) : List FunctionId :=
  (List.range t.functions.size).map FunctionId.mk

/-- The indices of all blocks, in order. -/
def blockIds (t : Tables) : List BlockId :=
  (List.range t.blocks.size).map BlockId.mk

/-- The indices of all instructions, in order. -/
def instIds (t : Tables) : List InstId :=
  (List.range t.insts.size).map InstId.mk

/-- The first function with a name. -/
def functionByName (t : Tables) (name : String) : Option FunctionId :=
  (t.functions.findIdx? fun f => f.name == name).map FunctionId.mk

/-- The functions with a body, in order. -/
def bodies (t : Tables) : List FunctionId :=
  t.functionIds.filter fun f => (t.functions[f.index]?).any fun g => !g.isDeclaration

/-- What an instruction does. -/
def kindOf (t : Tables) (i : InstId) : Except Fault InstKind := do
  return (← t.inst i).kind

/-- The instructions of a function in layout order. -/
def instsOf (t : Tables) (f : FunctionId) : Except Fault (List InstId) := do
  let bodies ← (← t.function f).blocks.mapM fun b => do return (← t.block b).insts
  return bodies.flatten

/-- The function that an instruction belongs to. -/
def functionOf (t : Tables) (i : InstId) : Except Fault FunctionId := do
  return (← t.block (← t.inst i).block).func

/-- The name of the function that an instruction belongs to. -/
def functionName (t : Tables) (i : InstId) : Except Fault String := do
  return (← t.function (← t.functionOf i)).name

/-! ## Types -/

/-- The type of a value. An argument beyond the parameters has no type to speak of. -/
def valueType (t : Tables) : Value → Except Fault TypeId
  | .inst i => do return (← t.inst i).ty
  | .arg f n => do return (← t.function f).params.getD n .void
  | .global g => do return (← t.global g).ptrTy
  | .const _ => .ok .word

/-- The type that a pointer type points to. -/
def pointee (t : Tables) (i : TypeId) : Except Fault (Option TypeId) := do
  match ← t.type i with
  | .pointer p => return some p
  | _ => return none

/-- Whether a type is a record. -/
def isRecord (t : Tables) (i : TypeId) : Except Fault Bool := do
  match ← t.type i with
  | .record .. => return true
  | _ => return false

/-- Whether a type is void. -/
def isVoid (t : Tables) (i : TypeId) : Except Fault Bool := do
  match ← t.type i with
  | .void => return true
  | _ => return false

/-- The spelling of a type, looking through at most `fuel` types. -/
def typeNameWithin (t : Tables) : Nat → TypeId → Except Fault String
  -- fuel runs out only on pointers that come back to themselves
  | 0, i => .error (.endlessType i)
  | fuel + 1, i => do
    match ← t.type i with
    | .void => return "void"
    | .int bits => return "i" ++ toString bits
    | .pointer p => return "*" ++ (← t.typeNameWithin fuel p)
    | .record name _ => return name
    | .bodyless name => return name

/-- The spelling of a type. Pointers that do not come back to themselves pass each type once. -/
def typeName (t : Tables) (i : TypeId) : Except Fault String :=
  t.typeNameWithin (t.types.size + 1) i

/-! ## Control flow -/

/-- The last instruction of a block, if it is a terminator. -/
def terminator (t : Tables) (b : BlockId) : Except Fault (Option InstId) := do
  match (← t.block b).insts.getLast? with
  | none => return none
  | some i => return if (← t.kindOf i).isTerminator then some i else none

/-- The blocks that may run after a block, in the order of its terminator. -/
def successors (t : Tables) (b : BlockId) : Except Fault (List BlockId) := do
  match ← t.terminator b with
  -- a block without a terminator leads nowhere
  | none => return []
  | some i => return (← t.kindOf i).targets

/-- Whether an instruction is a phi or a debug marker. -/
def isSkipped (t : Tables) (i : InstId) : Except Fault Bool := do
  return (← t.kindOf i).isSkipped

/-- The first instruction of a list that is neither a phi nor a debug marker. -/
def firstActive (t : Tables) : List InstId → Except Fault (Option InstId)
  | [] => .ok none
  | i :: is => do if ← t.isSkipped i then t.firstActive is else return some i

/-- The first instruction of a block that is neither a phi nor a debug marker. -/
def firstActiveOf (t : Tables) (b : BlockId) : Except Fault (Option InstId) := do
  t.firstActive (← t.block b).insts

/-- Whether a block is where unwinding lands. -/
def isLandingPadBlock (t : Tables) (b : BlockId) : Except Fault Bool := do
  match ← t.firstActiveOf b with
  | none => return false
  | some i =>
    match ← t.kindOf i with
    | .landingPad => return true
    | _ => return false

/-! ## Calls -/

/-- The function that a call names. -/
def calledFunction (t : Tables) (i : InstId) : Except Fault (Option FunctionId) := do
  return (← t.kindOf i).callee?

/-- The name of the function that a call names. -/
def calledName (t : Tables) (i : InstId) : Except Fault (Option String) := do
  match ← t.calledFunction i with
  | none => return none
  | some f => return some (← t.function f).name

/-- Whether an instruction calls a function by name and the name passes a test. -/
def callsA (t : Tables) (test : String → Bool) (i : InstId) : Except Fault Bool := do
  return (← t.calledName i).any test

/-! ## Places -/

/-- Where an instruction stands: its location, or at least its function. -/
def describe (t : Tables) (i : InstId) : Except Fault String := do
  match (← t.inst i).loc with
  | some loc => return loc.display
  | none => return (← t.functionName i) ++ ": <unknown location>"

end Tables

end Relock
