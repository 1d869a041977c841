import Relock.Program.Basic

/-!
# Descriptions of programs

What a document says about a program before its names are resolved. Types, blocks, functions and values
are texts here; a value is an integer, `%N` for an argument, `@name` for a global, or the name of an
instruction of the same function.
-/

namespace Relock.Description

/-- A declared type; without fields it has no known body. -/
structure TypeDesc where
  name : String
  fields : Option (List String)
deriving DecidableEq, Repr

/-- A global and the type of its storage. -/
structure GlobalDesc where
  name : String
  ty : String
deriving DecidableEq, Repr

/-- An operand. -/
inductive Operand where
  | int (n : Int)
  | name (s : String)
deriving DecidableEq, Repr

/-- An operation with its operands. -/
inductive Operation where
  | call (callee : String) (args : List Operand)
  | callIndirect (callee : Operand) (args : List Operand)
  | invoke (callee : String) (args : List Operand) (normal unwind : String)
  | br (dest : String)
  | condBr (cond : Operand) (thenDest elseDest : String)
  | ret (value : Option Operand)
  | unreachable
  | load (ptr : Operand)
  | store (value ptr : Operand)
  | field (base : Operand) (indices : List Int)
  | cast (value : Operand)
  | icmp (pred : Option String) (lhs rhs : Operand)
  | alloca (allocated : String)
  | phi (incoming : List (Operand × String))
  | debug (operands : List Operand)
  | landingPad
  | other (operands : List Operand)
deriving DecidableEq, Repr

/-- An instruction: the name of its result, its type and location, if given, and its operation. -/
structure InstDesc where
  id : Option String
  ty : Option String
  loc : Option Location
  op : Operation
deriving DecidableEq, Repr

/-- A block of instructions. -/
structure BlockDesc where
  label : String
  insts : List InstDesc
deriving DecidableEq, Repr

/-- A function. -/
structure FunctionDesc where
  name : String
  params : List String
  ret : String
  blocks : List BlockDesc
deriving DecidableEq, Repr

/-- A whole program. -/
structure ProgramDesc where
  types : List TypeDesc
  globals : List GlobalDesc
  functions : List FunctionDesc
deriving DecidableEq, Repr

end Relock.Description
