import Relock.CallGraph.Search
import Relock.Closure
import Relock.Lock.Site

/-!
# Walking on from a lock

The forward walk of the double-lock detector. From a lock the control flow is followed, breadth first and with
each block entered once, until the guard is released or another lock of the same group (of the alias set) is
acquired. Locks with a structural identity may also be acquired in another function, so in the global scope
calls that the walk meets are followed through the call graph.

A walk stops in a block at the first instruction that acquires or releases, and does not go on to the
successors of that block. It is propagating as long as its verdict is `passed`.

* `Walk`: what is looked for;
* `Walk.visit`: one instruction;
* `Walk.scan`: the instructions of one block;
* `Walk.run`: the worklist of blocks;
* `Walk.hits`: the acquisitions met, in the order of the walk.
-/

namespace Relock

/-- What a walk from a lock looks for. -/
structure Walk where
  tables : Tables
  graph : CallGraph
  /-- The lock that the walk starts from. -/
  first : LockSite
  /-- The other locks of the group, by instruction. -/
  aliases : List LockSite
  /-- Where the guard of `first` is released. -/
  release : List InstId
  /-- The functions that acquire one of the locks, with these locks; none if calls are not searched. -/
  acquirers : List (FunctionId × List LockSite)

/-- An acquisition met while the guard may be alive. -/
structure Hit where
  /-- The instruction of the walk at which it was met. -/
  met : InstId
  /-- The locks acquired. -/
  seconds : List LockSite
  /-- The calls that lead to them. -/
  callchain : List InstId
deriving DecidableEq, Repr

/-- What an instruction means to a walk. -/
inductive Verdict where
  | passed
  | released
  | acquired (hit : Hit)
deriving DecidableEq, Repr

/-- The functions that acquire one of the locks, by index, each with its locks. Locks that nest with
`first` are left out. -/
def acquirersOf (t : Tables) (first : LockSite) (aliases : List LockSite) :
    Except Fault (List (FunctionId × List LockSite)) := do
  let blocking := aliases.filter fun second => !first.kind.nestsWith second.kind
  return groupBy (fun f g => decide (f.index < g.index))
    (← blocking.mapM fun second => do return (← t.functionOf second.inst, second))

namespace Walk

/-- What a call means to a walk: its callee is searched for a function that acquires a lock of the alias set, and
if there is one, the backtrace to it becomes the call chain of the hit. -/
def visitCall (w : Walk) (i : InstId) : Except Fault Verdict := do
  -- in the local scope no function acquires, so no call is followed
  if w.acquirers.isEmpty then return .passed
  match w.graph.calleeAt (← w.tables.functionOf i) i with
  | none => return .passed
  | some callee =>
    match (CallGraph.Search.start w.graph i callee).run w.graph
        (fun f => (w.acquirers.lookup f).isSome) with
    | none => return .passed
    | some (found, parents) =>
      -- the backtrace stops at the function of the first lock, not at the function of the call
      let root ← w.tables.functionOf w.first.inst
      let chain ← CallGraph.Search.chain w.tables parents root found
      return .acquired ⟨i, (w.acquirers.lookup found).getD [], chain⟩

/-- What an instruction means to a walk. The alias set is asked first, then the release set, and only then are
calls followed, so a lock of the alias set is never taken for a release. -/
def visit (w : Walk) (i : InstId) : Except Fault Verdict :=
  match w.aliases.find? fun second => second.inst == i with
  | some second =>
    -- two shared locks that nest let the walk pass, even where the guard is released
    if w.first.kind.nestsWith second.kind then .ok .passed else .ok (.acquired ⟨i, [second], []⟩)
  | none => if w.release.contains i then .ok .released else w.visitCall i

/-- The first instruction of a list that does not let a walk pass. -/
def scan (w : Walk) : List InstId → Except Fault Verdict
  | [] => .ok .passed
  | i :: is => do
    if ← w.tables.isSkipped i then w.scan is
    else
      match ← w.visit i with
      | .passed => w.scan is
      | verdict => return verdict

/-- The blocks that a walk enqueues after a block: its successors, but for landing pads. Unwinding is not
followed. -/
def entered (w : Walk) (b : BlockId) : Except Fault (List BlockId) := do
  (← w.tables.successors b).filterM fun c => do return !(← w.tables.isLandingPadBlock c)

/-- The loop of the walk: a queue of blocks, each with the position at which it is entered, and the blocks that
have not been entered in `fresh`. Blocks of the queue that are not in `fresh` are skipped, and the next one is
entered. The result lists the acquisitions met, in the order in which they are met. -/
def run (w : Walk) (fresh : List BlockId) (queue : List (BlockId × Nat)) : Except Fault (List Hit) :=
  match _h : queue.dropWhile fun e => decide (e.1 ∉ fresh) with
  | [] => .ok []
  | (b, position) :: queue => do
    match ← w.scan ((← w.tables.block b).insts.drop position) with
    | .passed =>
      -- only a block that lets the walk pass to its end leads on
      let next ← w.entered b
      w.run (fresh.erase b) (queue ++ next.map (·, 0))
    | .released => w.run (fresh.erase b) queue
    | .acquired hit => return hit :: (← w.run (fresh.erase b) queue)
termination_by fresh.length
decreasing_by
  all_goals
    have h : b ∈ fresh := mem_of_dropWhile (f := Prod.fst) (by assumption)
    have := List.length_pos_of_mem h
    rw [List.length_erase_of_mem h]
    omega

/-- The walk ends when the queue is empty. -/
theorem run_nil {w : Walk} {fresh : List BlockId} : w.run fresh [] = .ok [] := by
  rw [run.eq_def]
  rfl

/-- A block that has not been entered is scanned from its position on, and its successors are enqueued only if the
walk comes to its end. -/
theorem run_enter {w : Walk} {fresh : List BlockId} {b : BlockId} (hb : b ∈ fresh) (position : Nat)
    (queue : List (BlockId × Nat)) : w.run fresh ((b, position) :: queue) = do
      match ← w.scan ((← w.tables.block b).insts.drop position) with
      | .passed =>
        let next ← w.entered b
        w.run (fresh.erase b) (queue ++ next.map (·, 0))
      | .released => w.run (fresh.erase b) queue
      | .acquired hit => return hit :: (← w.run (fresh.erase b) queue) := by
  rw [run.eq_def, List.dropWhile_cons_of_neg (by simpa using hb)]

/-- A block is entered once, even if several blocks lead to it. -/
theorem run_skip {w : Walk} {fresh : List BlockId} {b : BlockId} (hb : b ∉ fresh) (position : Nat)
    (queue : List (BlockId × Nat)) : w.run fresh ((b, position) :: queue) = w.run fresh queue := by
  rw [run.eq_def, List.dropWhile_cons_of_pos (by simpa using hb), ← run.eq_def]

/-- The acquisitions met after the first lock. The walk starts behind the lock in its own block, which it does not
enter again. -/
def hits (w : Walk) : Except Fault (List Hit) := do
  let b := (← w.tables.inst w.first.inst).block
  let insts := (← w.tables.block b).insts
  -- a lock that its block does not list would start the walk at the top
  let position := ((insts.findIdx? (· == w.first.inst)).map (· + 1)).getD 0
  w.run w.tables.blockIds [(b, position)]

end Walk

end Relock
