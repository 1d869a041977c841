import Relock.Program.Lookup
import Std.Data.TreeMap

/-!
# Def-use chains

The instructions that use a value, in the order of the instruction table. The index is built in one
pass over the table and is part of a `Program`, which carries the proof that it belongs to its tables.

* `DefUse.ofInsts`: the index of an instruction table;
* `Program`: tables with their index;
* `Program.users`: the users of a value.
-/

namespace Relock

/-- The users of each value, the last one first. -/
structure DefUse where
  index : Std.TreeMap Value (List InstId) Value.cmp

namespace DefUse

/-- The index of no instruction. -/
def empty : DefUse := ⟨∅⟩

/-- The users of a value, the last one first. -/
def latest (d : DefUse) (v : Value) : List InstId := d.index.getD v []

/-- Note that `i` uses `v`. Constants have no users, and an instruction that uses a value twice is noted
once. -/
def record (i : InstId) (d : DefUse) (v : Value) : DefUse :=
  -- operands are recorded in table order, so an earlier use by `i` is at the head
  if v.isConst || (d.latest v).head? == some i then d
  else ⟨d.index.insert v (i :: d.latest v)⟩

/-- Note all operands of the instruction with index `n`. -/
def recordAll (d : DefUse) : Instruction × Nat → DefUse
  | (x, n) => x.kind.operands.foldl (record ⟨n⟩) d

/-- The index of an instruction table. -/
def ofInsts (insts : Array Instruction) : DefUse :=
  insts.toList.zipIdx.foldl recordAll empty

end DefUse

/-- A program: its tables and their def-use chains. -/
structure Program extends Tables where
  defUse : DefUse
  defUse_eq : defUse = DefUse.ofInsts insts

namespace Program

/-- The program with the given tables. -/
def ofTables (t : Tables) : Program :=
  { toTables := t, defUse := DefUse.ofInsts t.insts, defUse_eq := rfl }

/-- The instructions that use a value, in order. -/
def users (p : Program) (v : Value) : List InstId := (p.defUse.latest v).reverse

/-- The instructions other than `i` that use a value, in order. -/
def usersExcept (p : Program) (i : InstId) (v : Value) : List InstId :=
  (p.users v).filter fun u => u != i

/-- A program is determined by its tables. -/
theorem ext_tables {p q : Program} (h : p.toTables = q.toTables) : p = q := by
  obtain ⟨t, d, hd⟩ := p
  obtain ⟨u, e, he⟩ := q
  obtain rfl : t = u := h
  -- the index is a function of the tables
  obtain rfl : d = e := hd.trans he.symm
  rfl

/-- The values with a user, each once. -/
def usedValues (p : Program) : List Value := p.defUse.index.keys

/-- All operands of instructions, constants included, each once and in the order of values. -/
def operandValues (p : Program) : List Value :=
  let used := p.insts.toList.flatMap fun x => x.kind.operands
  (used.mergeSort Value.le).eraseReps

end Program

end Relock
