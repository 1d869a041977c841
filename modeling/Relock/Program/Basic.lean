/-!
# Programs

A program is a set of tables: types, globals, functions, blocks and instructions, each entry named by
its index. Instructions are in single-assignment form; a pointer into a record is computed by
`fieldAddr`, and calls that may unwind end their block.

An entry gets its index (`FunctionId`, `BlockId`, `InstId`, `TypeId`, `GlobalId`) from the size of its table when
it is added, and indices are natural numbers. An analyzer that keeps them as 32-bit words, cut off at
`UInt32.size`, has the same indices as long as no table grows to `2 ^ 32` entries. No run comes to such a table, so
nothing here speaks of indices that wrap around.

* `Value`: what an operand can be;
* `InstKind`, `InstKind.operands`: the instructions and the values they use;
* `Tables`: the tables of a program.
-/

namespace Relock

/-- The index of a function. -/
structure FunctionId where
  index : Nat
deriving DecidableEq, Repr

/-- The index of a block. -/
structure BlockId where
  index : Nat
deriving DecidableEq, Repr

/-- The index of an instruction. -/
structure InstId where
  index : Nat
deriving DecidableEq, Repr

/-- The index of a type. -/
structure TypeId where
  index : Nat
deriving DecidableEq, Repr

/-- The index of a global. -/
structure GlobalId where
  index : Nat
deriving DecidableEq, Repr

/-- The type without values, the first entry of every type table. -/
def TypeId.void : TypeId := ⟨0⟩

/-- The type of integer constants, the second entry of every type table. -/
def TypeId.word : TypeId := ⟨1⟩

/-- What an operand can be. -/
inductive Value where
  | inst (i : InstId)
  | arg (f : FunctionId) (position : Nat)
  | global (g : GlobalId)
  | const (n : Int)
deriving DecidableEq, Repr

namespace Value

/-- The instruction that computes a value. -/
def inst? : Value → Option InstId
  | .inst i => some i
  | _ => none

/-- Whether a value is an integer constant. -/
def isConst : Value → Bool
  | .const _ => true
  | _ => false

/-- The place of a value in the order of values: instructions, then arguments by function and
position, then globals, then constants. -/
def rank : Value → Nat × Nat × Int
  | .inst i => (0, 0, i.index)
  | .arg f n => (1, f.index, n)
  | .global g => (2, 0, g.index)
  | .const n => (3, 0, n)

/-- The order of values. -/
def cmp (a b : Value) : Ordering :=
  (compare a.rank.1 b.rank.1).then
    ((compare a.rank.2.1 b.rank.2.1).then (compare a.rank.2.2 b.rank.2.2))

/-- Whether a value comes before another one or is the same. -/
def le (a b : Value) : Bool := (a.cmp b).isLE

end Value

/-- A type. -/
inductive TypeKind where
  | void
  | int (bits : Nat)
  | pointer (pointee : TypeId)
  | record (name : String) (fields : List TypeId)
  /-- A named type whose fields are not known. -/
  | bodyless (name : String)
deriving DecidableEq, Repr

/-- The name that a type was declared with. -/
def TypeKind.name? : TypeKind → Option String
  | .record n _ => some n
  | .bodyless n => some n
  | _ => none

/-- A place in the source text of a program. -/
structure Location where
  directory : String
  file : String
  line : Nat
deriving DecidableEq, Repr

/-- A place as it is written in reports. -/
def Location.display (l : Location) : String :=
  l.directory ++ " " ++ l.file ++ " " ++ toString l.line

/-- The function that a call runs. -/
inductive Callee where
  | direct (f : FunctionId)
  /-- A value that is only known when the program runs. -/
  | indirect (v : Value)
deriving DecidableEq, Repr

/-- How two integers are compared. -/
inductive Predicate where
  | eq
  | ne
  | other
deriving DecidableEq, Repr

/-- What an instruction does. -/
inductive InstKind where
  | call (callee : Callee) (args : List Value)
  /-- A call that ends its block, with a successor for a normal return and one for unwinding. -/
  | invoke (callee : Callee) (args : List Value) (normal unwind : BlockId)
  | br (dest : BlockId)
  | condBr (cond : Value) (thenDest elseDest : BlockId)
  | ret (value : Option Value)
  | unreachable
  | load (ptr : Value)
  | store (value ptr : Value)
  /-- The address of a nested field. The first index steps over the base pointer itself. -/
  | fieldAddr (base : Value) (indices : List Int)
  | cast (value : Value)
  | icmp (pred : Predicate) (lhs rhs : Value)
  | alloca
  | phi (incoming : List (Value × BlockId))
  | debug (operands : List Value)
  | landingPad
  | other (operands : List Value)
deriving DecidableEq, Repr

/-- The value that a call goes through. -/
def Callee.operands : Callee → List Value
  | .direct _ => []
  | .indirect v => [v]

namespace InstKind

/-- The values that an instruction uses. -/
def operands : InstKind → List Value
  | .call callee args => args ++ callee.operands
  | .invoke callee args _ _ => args ++ callee.operands
  | .br _ => []
  | .condBr cond _ _ => [cond]
  | .ret value => value.toList
  | .unreachable => []
  | .load ptr => [ptr]
  | .store value ptr => [value, ptr]
  | .fieldAddr base _ => [base]
  | .cast value => [value]
  | .icmp _ lhs rhs => [lhs, rhs]
  | .alloca => []
  | .phi incoming => incoming.map Prod.fst
  | .debug operands => operands
  | .landingPad => []
  | .other operands => operands

/-- Whether an instruction ends its block. -/
def isTerminator : InstKind → Bool
  | .invoke .. | .br _ | .condBr .. | .ret _ | .unreachable => true
  | _ => false

/-- The blocks that a terminator may continue with, the normal return of a call first. -/
def targets : InstKind → List BlockId
  | .invoke _ _ normal unwind => [normal, unwind]
  | .br dest => [dest]
  | .condBr _ thenDest elseDest => [thenDest, elseDest]
  | _ => []

/-- Phis and debug markers do nothing that matters to an analysis of locks. -/
def isSkipped : InstKind → Bool
  | .phi _ | .debug _ => true
  | _ => false

/-- Whether an instruction is a call. -/
def isCall : InstKind → Bool
  | .call .. | .invoke .. => true
  | _ => false

/-- Whether an instruction reads memory. -/
def isLoad : InstKind → Bool
  | .load _ => true
  | _ => false

/-- The function that a call names. -/
def callee? : InstKind → Option FunctionId
  | .call (.direct f) _ => some f
  | .invoke (.direct f) _ _ _ => some f
  | _ => none

/-- The arguments of a call. -/
def args? : InstKind → Option (List Value)
  | .call _ args => some args
  | .invoke _ args _ _ => some args
  | _ => none

/-- The indices of a field address. -/
def indices? : InstKind → Option (List Int)
  | .fieldAddr _ indices => some indices
  | _ => none

end InstKind

/-- An instruction. -/
structure Instruction where
  kind : InstKind
  /-- The type of the result, void if there is none. -/
  ty : TypeId
  /-- The block that the instruction was pushed to. -/
  block : BlockId
  loc : Option Location
deriving DecidableEq, Repr

/-- A block of instructions. -/
structure Block where
  label : String
  func : FunctionId
  insts : List InstId
deriving DecidableEq, Repr

/-- A function; without blocks it is only declared. -/
structure Function where
  name : String
  params : List TypeId
  ret : TypeId
  blocks : List BlockId
deriving DecidableEq, Repr

/-- Whether a function has no body. -/
def Function.isDeclaration (f : Function) : Bool := f.blocks.isEmpty

/-- A global: the type of its storage, and the type of the pointer that it denotes. -/
structure Global where
  name : String
  ty : TypeId
  ptrTy : TypeId
deriving DecidableEq, Repr

/-- The tables of a program. -/
structure Tables where
  types : Array TypeKind
  globals : Array Global
  functions : Array Function
  blocks : Array Block
  insts : Array Instruction
deriving DecidableEq, Repr

/-- Tables without an entry. -/
def Tables.empty : Tables := ⟨#[], #[], #[], #[], #[]⟩

end Relock
