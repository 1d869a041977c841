import Relock.Detector.Basic
import Relock.Proofs.Program.Arrangement

/-!
# What a walk from a lock ought to find

The question that a walk answers, without the walk: which instructions acquire a lock that is held
already, and which of them control flow can come to before the guard is released. Routes through the
control flow are unbounded; a walk is not, so that the two agree is a fact about the walk.

* `Pursuit`: a first lock, the locks that would be a second one, and where the first is released;
* `Pursuit.IsHit`, `Pursuit.Blocks`: what single instructions mean to it;
* `Route`: the instructions on a route through the control flow;
* `Pursuit.Reaches`: the instructions that come before anything that blocks.
-/

namespace Relock

/-- A first lock and what is looked for after it. -/
structure Pursuit where
  tables : Tables
  graph : CallGraph
  scope : Scope
  first : LockSite
  /-- The locks that may be the same lock. -/
  aliases : List LockSite
  release : List InstId

namespace Pursuit

variable (q : Pursuit)

/-- The locks acquired in a function that do not nest with the first one. -/
def seconds (f : FunctionId) : List LockSite :=
  q.aliases.filter fun s =>
    !q.first.kind.nestsWith s.kind && (q.tables.functionOf s.inst).toOption == some f

/-- The search from the callee of a call for a function that acquires one of the locks. -/
def search (i : InstId) (callee : FunctionId) : Option (FunctionId × List (FunctionId × InstId)) :=
  (CallGraph.Search.start q.graph i callee).run q.graph fun f => !(q.seconds f).isEmpty

/-- Phis and debug markers are passed over. -/
def Active (i : InstId) : Prop := q.tables.isSkipped i = .ok false

/-- No lock of the group is acquired at `i` itself. -/
def NotAliased (i : InstId) : Prop := ∀ s ∈ q.aliases, s.inst ≠ i

/-- The instructions at which the lock is acquired again. -/
inductive IsHit (i : InstId) : Prop where
  /-- The instruction acquires one of the locks. -/
  | direct {s : LockSite} (hactive : q.Active i) (hs : s ∈ q.aliases) (hi : s.inst = i)
      (hblocks : q.first.kind.nestsWith s.kind = false) : IsHit i
  /-- The instruction calls a function from which one that acquires a lock can be found. -/
  | call {callee found : FunctionId} {parents : List (FunctionId × InstId)} (hactive : q.Active i)
      (hscope : q.scope = .everywhere) (halias : q.NotAliased i) (hrelease : i ∉ q.release)
      (hcallee : q.tables.calledFunction i = .ok (some callee))
      (hsearch : q.search i callee = some (found, parents)) : IsHit i

/-- The instructions that end a route. -/
inductive Blocks (i : InstId) : Prop where
  | hit (h : q.IsHit i) : Blocks i
  | release (hactive : q.Active i) (hrelease : i ∈ q.release) (halias : q.NotAliased i) : Blocks i

/-- What there is to say about a hit. -/
inductive Tells : Hit → Prop where
  /-- A lock acquired by the instruction itself is the only second lock. -/
  | direct {s : LockSite} (hs : s ∈ q.aliases) (hblocks : q.first.kind.nestsWith s.kind = false) :
      Tells ⟨s.inst, [s], []⟩
  /-- Through a call, the second locks are those of the function found, with the calls that lead to
  it. -/
  | call {i : InstId} {callee found root : FunctionId} {parents : List (FunctionId × InstId)}
      {chain : List InstId} (halias : q.NotAliased i)
      (hcallee : q.tables.calledFunction i = .ok (some callee))
      (hsearch : q.search i callee = some (found, parents))
      (hroot : q.tables.functionOf q.first.inst = .ok root)
      (hchain : CallGraph.Search.chain q.tables parents root found = .ok chain) :
      Tells ⟨i, q.seconds found, chain⟩

end Pursuit

/-! ## Routes -/

/-- The block that an instruction stands in. -/
def Tables.LiesIn (t : Tables) (i : InstId) (b : BlockId) : Prop :=
  ∃ x, t.inst i = .ok x ∧ x.block = b

/-- Control flow may go on from `b` to `c`, other than by unwinding. -/
def Tables.GoesTo (t : Tables) (b c : BlockId) : Prop :=
  ∃ cs, t.successors b = .ok cs ∧ c ∈ cs ∧ t.isLandingPadBlock c = .ok false

/-- A route from right behind the instruction `first` through blocks that are allowed: the instructions
passed before the last block was entered, the last block, and the instructions ahead in it. -/
inductive Route (t : Tables) (first : InstId) (allowed : BlockId → Prop) :
    List InstId → BlockId → List InstId → Prop where
  | start {b : BlockId} {x : Block} {before after : List InstId} (hfirst : t.LiesIn first b)
      (hx : t.block b = .ok x) (hsplit : x.insts = before ++ first :: after) :
      Route t first allowed [] b after
  | enter {passed ahead : List InstId} {b c : BlockId} {x : Block}
      (h : Route t first allowed passed b ahead) (hgoes : t.GoesTo b c) (hallowed : allowed c)
      (hx : t.block c = .ok x) : Route t first allowed (passed ++ ahead) c x.insts

/-- The instructions that control flow comes to after the first lock, its own block not entered again,
before it comes to one that blocks. -/
def Pursuit.Reaches (q : Pursuit) (i : InstId) : Prop :=
  ∃ passed b before after,
    Route q.tables q.first.inst (fun c => ¬ q.tables.LiesIn q.first.inst c) passed b
      (before ++ i :: after) ∧ ∀ j ∈ passed ++ before, ¬ q.Blocks j

end Relock
