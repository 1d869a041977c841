import Relock.Program.DefUse

/-!
# Building programs

A builder adds entries to the tables of a program. Equal types made by `intern` share one index; a
record that is declared first and gets its fields later is an entry of its own and is never found again
by its fields.

* `Builder.intern` and the types made with it;
* `Builder.block`, `Builder.push`: blocks and instructions;
* `Builder.finish`: the program built.
-/

namespace Relock

/-- The tables of a program under construction. -/
structure Builder where
  tables : Tables
  /-- The types that are shared, each with its index. -/
  interned : List (TypeKind × TypeId)
deriving DecidableEq, Repr

namespace Builder

/-! ## Types -/

/-- Add a type as a new entry. -/
def addType (b : Builder) (k : TypeKind) : TypeId × Builder :=
  (⟨b.tables.types.size⟩, { b with tables.types := b.tables.types.push k })

/-- The index of a shared type, added if it is new. Only types that were interned before are found, never a record
made by `declareRecord`. -/
def intern (b : Builder) (k : TypeKind) : TypeId × Builder :=
  match b.interned.lookup k with
  | some i => (i, b)
  | none =>
    let (i, b) := b.addType k
    (i, { b with interned := (k, i) :: b.interned })

/-- The builder of an empty program: its types are `TypeId.void` and `TypeId.word`. -/
def empty : Builder :=
  ((Builder.intern ⟨.empty, []⟩ .void).2.intern (.int 64)).2

/-- The type of integers with `bits` bits. -/
def int (b : Builder) (bits : Nat) : TypeId × Builder := b.intern (.int bits)

/-- The type of pointers to `t`. -/
def pointer (b : Builder) (t : TypeId) : TypeId × Builder := b.intern (.pointer t)

/-- The record type with a name and fields. -/
def recordType (b : Builder) (name : String) (fields : List TypeId) : TypeId × Builder :=
  b.intern (.record name fields)

/-- The named type without known fields. -/
def bodylessType (b : Builder) (name : String) : TypeId × Builder := b.intern (.bodyless name)

/-- A new record type whose fields are set later, so that they may refer to it. -/
def declareRecord (b : Builder) (name : String) : TypeId × Builder := b.addType (.record name [])

/-- Set the fields of a record type. Another type stays as it is. -/
def setFields (b : Builder) (t : TypeId) (fields : List TypeId) : Except Fault Builder := do
  match ← b.tables.type t with
  | .record name _ =>
    return { b with tables.types := b.tables.types.setIfInBounds t.index (.record name fields) }
  | _ => return b

/-- The first type declared with a name. -/
def lookupNamed (b : Builder) (name : String) : Option TypeId :=
  (b.tables.types.findIdx? fun k => k.name? == some name).map TypeId.mk

/-! ## Globals and functions -/

/-- Add a global with storage of type `ty`. -/
def global (b : Builder) (name : String) (ty : TypeId) : Value × Builder :=
  -- a global denotes the address of its storage
  let (ptrTy, b) := b.pointer ty
  (.global ⟨b.tables.globals.size⟩,
    { b with tables.globals := b.tables.globals.push ⟨name, ty, ptrTy⟩ })

/-- Add a function, declared until it gets a block. -/
def function (b : Builder) (name : String) (params : List TypeId) (ret : TypeId) :
    FunctionId × Builder :=
  (⟨b.tables.functions.size⟩,
    { b with tables.functions := b.tables.functions.push ⟨name, params, ret, []⟩ })

/-- The result type of a function. -/
def returnType (b : Builder) (f : FunctionId) : Except Fault TypeId := do
  return (← b.tables.function f).ret

/-! ## Blocks and instructions -/

/-- Add a block to a function. -/
def block (b : Builder) (f : FunctionId) (label : String) : Except Fault (BlockId × Builder) := do
  -- the look-up only checks the index; `modify` would ignore a missing entry
  let _ ← b.tables.function f
  let i : BlockId := ⟨b.tables.blocks.size⟩
  let functions := b.tables.functions.modify f.index fun g => { g with blocks := g.blocks ++ [i] }
  return (i, { b with tables := { b.tables with
    blocks := b.tables.blocks.push ⟨label, f, []⟩, functions := functions } })

/-- Add an instruction to a block. -/
def push (b : Builder) (bb : BlockId) (kind : InstKind) (ty : TypeId) :
    Except Fault (InstId × Builder) := do
  -- as for blocks, a missing block is a fault
  let _ ← b.tables.block bb
  let i : InstId := ⟨b.tables.insts.size⟩
  let blocks := b.tables.blocks.modify bb.index fun c => { c with insts := c.insts ++ [i] }
  return (i, { b with tables := { b.tables with
    insts := b.tables.insts.push ⟨kind, ty, bb, none⟩, blocks := blocks } })

/-- Say where an instruction comes from. -/
def setLocation (b : Builder) (i : InstId) (loc : Location) : Except Fault Builder := do
  let _ ← b.tables.inst i
  return { b with tables.insts := b.tables.insts.modify i.index fun x => { x with loc := some loc } }

/-- Add a call of a function. Its type is the result type of the function. -/
def call (b : Builder) (bb : BlockId) (f : FunctionId) (args : List Value) :
    Except Fault (InstId × Builder) := do
  b.push bb (.call (.direct f) args) (← b.returnType f)

/-- Add a call of a function that may unwind. -/
def invoke (b : Builder) (bb : BlockId) (f : FunctionId) (args : List Value)
    (normal unwind : BlockId) : Except Fault (InstId × Builder) := do
  b.push bb (.invoke (.direct f) args normal unwind) (← b.returnType f)

/-- Add a comparison, a value of one bit. -/
def icmp (b : Builder) (bb : BlockId) (pred : Predicate) (lhs rhs : Value) :
    Except Fault (InstId × Builder) :=
  let (bit, b) := b.int 1
  b.push bb (.icmp pred lhs rhs) bit

/-- Add a stack slot. The instruction is a pointer to it. -/
def alloca (b : Builder) (bb : BlockId) (ty : TypeId) : Except Fault (InstId × Builder) :=
  let (ptr, b) := b.pointer ty
  b.push bb .alloca ptr

/-- The program built. -/
def finish (b : Builder) : Program := .ofTables b.tables

end Builder

end Relock
