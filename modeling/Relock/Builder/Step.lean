import Relock.Builder.Basic

/-!
# Building programs step by step

The operations of a builder as data, so that a whole construction is a list of steps.

* `Step.run`: one step, with the entry that it made or found;
* `Builder.runAll`: all steps, if none faults;
* `Builder.runUntilFault`: what each step returned before the first fault.
-/

namespace Relock

/-- An operation of a builder. -/
inductive Step where
  | void
  | int (bits : Nat)
  | pointer (t : TypeId)
  | recordType (name : String) (fields : List TypeId)
  | declareRecord (name : String)
  | bodylessType (name : String)
  | setFields (t : TypeId) (fields : List TypeId)
  | lookupNamed (name : String)
  | global (name : String) (ty : TypeId)
  | arg (f : FunctionId) (position : Nat)
  | function (name : String) (params : List TypeId) (ret : TypeId)
  | returnType (f : FunctionId)
  | instCount
  | block (f : FunctionId) (label : String)
  | setLocation (i : InstId) (loc : Location)
  | call (bb : BlockId) (f : FunctionId) (args : List Value)
  | invoke (bb : BlockId) (f : FunctionId) (args : List Value) (normal unwind : BlockId)
  | icmp (bb : BlockId) (pred : Predicate) (lhs rhs : Value)
  | alloca (bb : BlockId) (ty : TypeId)
  /-- Any instruction with its type. -/
  | push (bb : BlockId) (kind : InstKind) (ty : TypeId)
deriving DecidableEq, Repr

/-- What a step returns. -/
inductive Answer where
  | nothing
  | type (t : TypeId)
  | value (v : Value)
  | function (f : FunctionId)
  | block (b : BlockId)
  | inst (i : InstId)
  | count (n : Nat)
deriving DecidableEq, Repr

/-- Run one step. -/
def Step.run (b : Builder) : Step → Except Fault (Answer × Builder)
  | .void => .ok (.type .void, b)
  | .int bits => .ok ((b.int bits).map .type id)
  | .pointer t => .ok ((b.pointer t).map .type id)
  | .recordType name fields => .ok ((b.recordType name fields).map .type id)
  | .declareRecord name => .ok ((b.declareRecord name).map .type id)
  | .bodylessType name => .ok ((b.bodylessType name).map .type id)
  | .setFields t fields => do return (.nothing, ← b.setFields t fields)
  | .lookupNamed name => .ok ((b.lookupNamed name).elim .nothing .type, b)
  | .global name ty => .ok ((b.global name ty).map .value id)
  | .arg f n => .ok (.value (.arg f n), b)
  | .function name params ret => .ok ((b.function name params ret).map .function id)
  | .returnType f => do return (.type (← b.returnType f), b)
  | .instCount => .ok (.count b.tables.insts.size, b)
  | .block f label => do return (← b.block f label).map .block id
  | .setLocation i loc => do return (.inst i, ← b.setLocation i loc)
  | .call bb f args => do return (← b.call bb f args).map .inst id
  | .invoke bb f args normal unwind => do return (← b.invoke bb f args normal unwind).map .inst id
  | .icmp bb pred lhs rhs => do return (← b.icmp bb pred lhs rhs).map .inst id
  | .alloca bb ty => do return (← b.alloca bb ty).map .inst id
  | .push bb kind ty => do return (← b.push bb kind ty).map .inst id

namespace Builder

/-- Run all steps. -/
def runAll (b : Builder) : List Step → Except Fault Builder
  | [] => .ok b
  | s :: steps => do
    let (_, b) ← s.run b
    b.runAll steps

/-- Run steps until one faults: the answers of the steps before it, and the builder in the end or the
fault. -/
def runUntilFault (b : Builder) : List Step → List Answer × Except Fault Builder
  | [] => ([], .ok b)
  | s :: steps =>
    match s.run b with
    | .error fault => ([], .error fault)
    | .ok (answer, b) =>
      let (answers, outcome) := b.runUntilFault steps
      (answer :: answers, outcome)

end Builder

end Relock
