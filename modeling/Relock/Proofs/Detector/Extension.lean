import Relock.Proofs.Builder.Extension
import Relock.Proofs.CallGraph.Extension
import Relock.Proofs.Detector.Safety
import Relock.Proofs.Guard.Extension
import Relock.Proofs.Lock.Extension

/-!
# Detectors of programs that grow

A walk from a lock of the old program stays in it: old instructions lead to old blocks, and the functions
found through old calls are old. So every walk meets what it met, and with it every report persists.

* `Walk.on`: the same walk in a larger program;
* `Walk.persists_hits`: it meets what it met;
* `Detector.ExtendsTo`, `Detector.ExtendsTo.detect`: all reports persist;
* `Detector.detect_eq_of_beyond`: code beside a program does not change what is found in it.
-/

namespace Relock

/-! ## Walks -/

namespace Walk

/-- The same walk in another program. -/
def on (w : Walk) (t : Tables) (g : CallGraph) : Walk := { w with tables := t, graph := g }

variable {w : Walk} {t' : Tables} {g' : CallGraph} (h : w.tables.ExtendsTo t')

include h in
/-- An old block is left for the blocks that it was left for. -/
theorem persists_entered (b : BlockId) : Persists (w.entered b) ((w.on t' g').entered b) :=
  (h.successors b).bind fun _ _ => .filterM fun c _ => (h.isLandingPadBlock c).bind_pure _

/-- Old blocks lead to old blocks. -/
theorem lt_of_entered (ht : w.tables.InRange) {b : BlockId} (hb : b.index < w.tables.blocks.size)
    {next : List BlockId} (hnext : w.entered b = .ok next) : ∀ c ∈ next, c.index < w.tables.blocks.size := by
  obtain ⟨cs, hcs, hnext⟩ := bind_eq_ok.mp hnext
  obtain ⟨cs', hcs', hlt⟩ := ht.exists_successors hb
  rw [hcs] at hcs'
  cases hcs'
  exact fun c hc => hlt c ((sublist_of_filterM hnext).subset hc)

variable (ht : w.tables.InRange) (harranged : w.tables.Arranged) (hg : CallGraph.ofTables w.tables = .ok w.graph)
  (ht' : t'.Arranged) (hg' : CallGraph.ofTables t' = .ok g')

include h ht harranged hg ht' hg'

/-- The search from the callee of an old call does not leave the old functions. -/
theorem search_on {f callee : FunctionId} {i : InstId} (hcall : w.graph.calleeAt f i = some callee)
    (goal : FunctionId → Bool) :
    (CallGraph.Search.start g' i callee).run g' goal = (CallGraph.Search.start w.graph i callee).run w.graph goal := by
  -- old calls call old functions
  have hcallee {i : InstId} {f : FunctionId} (hcalled : w.tables.calledFunction i = .ok (some f)) :
      f.index < w.tables.functions.size := by
    obtain ⟨k, hk, hf⟩ := Tables.calledFunction_eq_ok.mp hcalled
    exact (ht.kindOf_within hk).callee f hf
  refine CallGraph.Search.run_congr (P := fun f => f.index < w.tables.functions.size) ?_ ?_
    CallGraph.Search.consistent_start CallGraph.Search.consistent_start rfl rfl ?_
  · exact fun f hf => CallGraph.callsitesOf_of_extendsTo h ht' hg hg' hf
  · intro f _ c hc
    exact hcallee (CallGraph.of_mem_callsitesOf harranged hg hc).2
  · intro f hf
    obtain rfl : f = callee := List.mem_singleton.mp hf
    exact hcallee ((CallGraph.calleeAt_eq_some harranged hg).mp hcall).2

/-- An old call leads to the second locks that it led to, through the same calls. -/
theorem persists_visitCall (i : InstId) : Persists (w.visitCall i) ((w.on t' g').visitCall i) := by
  refine .ite (fun _ => .refl _) fun _ => (h.functionOf i).bind fun f hf => ?_
  obtain ⟨f', hf', hlt⟩ := ht.exists_functionOf (Tables.lt_of_functionOf hf)
  rw [hf] at hf'
  cases hf'
  -- the call graph has the same calls of an old function
  have hcallee : (w.on t' g').graph.calleeAt f i = w.graph.calleeAt f i := by
    show (g'.callsitesOf f >>= _) = (w.graph.callsitesOf f >>= _)
    rw [CallGraph.callsitesOf_of_extendsTo h ht' hg hg' hlt]
  rw [hcallee]
  cases hcall : w.graph.calleeAt f i with
  | none => exact .refl _
  | some callee =>
    -- so the search finds the same function, by the same parent call sites
    have hsearch : (CallGraph.Search.start (w.on t' g').graph i callee).run (w.on t' g').graph
        (fun f => ((w.on t' g').acquirers.lookup f).isSome) = _ :=
      search_on h ht harranged hg ht' hg' hcall fun f => (w.acquirers.lookup f).isSome
    dsimp only
    rw [hsearch]
    cases (CallGraph.Search.start w.graph i callee).run w.graph fun f => (w.acquirers.lookup f).isSome with
    | none => exact .refl _
    | some found =>
      refine (h.functionOf w.first.inst).bind fun root _ => ?_
      exact (CallGraph.Search.persists_chain h found.2 root found.1).bind_pure _

theorem persists_visit (i : InstId) : Persists (w.visit i) ((w.on t' g').visit i) := by
  have haliases : (w.on t' g').aliases = w.aliases := rfl
  unfold visit
  rw [haliases]
  cases w.aliases.find? fun second => second.inst == i with
  | some second => exact .refl _
  | none => exact .ite (fun _ => .refl _) fun _ => persists_visitCall h ht harranged hg ht' hg' i

/-- **Step lemma**: an old block has the verdict that it had. -/
theorem persists_scan (is : List InstId) : Persists (w.scan is) ((w.on t' g').scan is) := by
  induction is with
  | nil => exact .refl _
  | cons i is ih =>
    refine (h.isSkipped i).bind fun skipped _ => .ite (fun _ => ih) fun _ => ?_
    refine (persists_visit h ht harranged hg ht' hg' i).bind fun verdict _ => ?_
    cases verdict with
    | passed => exact ih
    | released => exact .refl _
    | acquired hit => exact .refl _

/-- **Run lemma**: the blocks that are entered are old, whatever other blocks there are to enter. -/
theorem persists_run {fresh fresh' : List BlockId} {queue : List (BlockId × Nat)}
    (hqueue : ∀ e ∈ queue, e.1.index < w.tables.blocks.size) (hfresh : fresh.Nodup) (hfresh' : fresh'.Nodup)
    (hsame : ∀ b : BlockId, b.index < w.tables.blocks.size → (b ∈ fresh ↔ b ∈ fresh')) :
    Persists (w.run fresh queue) ((w.on t' g').run fresh' queue) := by
  induction fresh, queue using worklist_induct (f := fun e : BlockId × Nat => e.1) generalizing fresh' with
  | nil fresh =>
    rw [run_nil, run_nil]
    exact .refl _
  | expand fresh e queue hb ih =>
    obtain ⟨b, position⟩ := e
    have hlt := hqueue _ (List.mem_cons_self ..)
    have hrest := fun e he => hqueue e (List.mem_cons_of_mem _ he)
    have herase := mem_erase_congr hfresh hfresh' hsame b
    rw [run_enter hb, run_enter ((hsame b hlt).mp hb)]
    refine (h.block b).bind fun x _ => (persists_scan h ht harranged hg ht' hg' _).bind fun verdict _ => ?_
    cases verdict with
    -- control goes on, to old blocks
    | passed =>
      refine (persists_entered h b).bind fun next hnext => ?_
      refine ih _ (fun e he => ?_) (hfresh.erase b) (hfresh'.erase b) herase
      rcases List.mem_append.mp he with he | he
      · exact hrest e he
      · obtain ⟨c, hc, rfl⟩ := List.mem_map.mp he
        exact lt_of_entered ht hlt hnext c hc
    -- the guard is gone, or a second lock was met: this branch ends in both walks
    | released => exact ih queue hrest (hfresh.erase b) (hfresh'.erase b) herase
    | acquired hit => exact (ih queue hrest (hfresh.erase b) (hfresh'.erase b) herase).bind_pure _
  | skip fresh e queue hb ih =>
    have hlt := hqueue _ (List.mem_cons_self ..)
    rw [run_skip hb, run_skip fun hb' => hb ((hsame e.1 hlt).mpr hb')]
    exact ih (fun c hc => hqueue c (List.mem_cons_of_mem _ hc)) hfresh hfresh' hsame

/-- **A walk from an old lock meets what it met.** -/
theorem persists_hits : Persists w.hits (w.on t' g').hits := by
  refine (h.inst w.first.inst).bind fun x hx => (h.block x.block).bind fun y _ => ?_
  -- the walk starts in the block of the first lock, which is an old one
  have hblock : x.block.index < w.tables.blocks.size := ht.within.parents x (Tables.mem_of_inst hx)
  refine persists_run h ht harranged hg ht' hg' ?_ w.tables.blockIds_nodup t'.blockIds_nodup fun b hb => ?_
  · intro e he
    obtain rfl := List.mem_singleton.mp he
    exact hblock
  · show b ∈ w.tables.blockIds ↔ b ∈ t'.blockIds
    rw [Tables.mem_blockIds, Tables.mem_blockIds]
    exact iff_of_true hb (Nat.lt_of_lt_of_le hb h.sizes.blocks)

end Walk

/-! ## Reports -/

namespace Detector

/-- A detector for a program that has grown apart from the old one, without calls of lock operations. -/
structure ExtendsTo (d d' : Detector) : Prop where
  ready : d.Ready
  ends : d.program.ChainsEnd
  tables : d.program.ExtendsApart d'.program.toTables
  quiet : d'.program.QuietFrom d.program.insts.size
  arranged : d'.program.Arranged
  graph : CallGraph.ofTables d'.program.toTables = .ok d'.graph
  oracle : ∀ v w, Persists (d.oracle v w) (d'.oracle v w)
  policy : d'.policy = d.policy

namespace ExtendsTo

variable {d d' : Detector} (h : d.ExtendsTo d')

include h

theorem toText (s : LockSite) : Persists (s.toText d.program.toTables) (s.toText d'.program.toTables) :=
  (h.tables.functionName s.inst).bind fun _ _ => (h.tables.describe s.inst).bind_pure _

theorem report (first : LockSite) (hit : Hit) : Persists (d.report first hit) (d'.report first hit) := by
  refine (h.toText first).bind fun _ _ => (Persists.mapM fun s _ => h.toText s).bind fun _ _ => ?_
  exact (Persists.mapM fun i _ => h.tables.describe i).bind_pure _

/-- The alias set is attributed to the functions that it was attributed to. -/
theorem acquirersOf (first : LockSite) (aliases : List LockSite) :
    Persists (acquirersOf d.program.toTables first aliases) (acquirersOf d'.program.toTables first aliases) :=
  (Persists.mapM fun s _ => (h.tables.functionOf s.inst).bind_pure _).bind_pure _

/-- The walk that the larger detector makes is the same walk in its program. -/
theorem walk {scope : Scope} {first : LockSite} {aliases : List LockSite} {release : List InstId} {w : Walk}
    (hw : d.walk scope first aliases release = .ok w) : w.tables = d.program.toTables ∧ w.graph = d.graph ∧
      d'.walk scope first aliases release = .ok (w.on d'.program.toTables d'.graph) := by
  cases scope with
  | here =>
    cases hw
    exact ⟨rfl, rfl, rfl⟩
  | everywhere =>
    obtain ⟨acquirers, hacquirers, hw⟩ := bind_eq_ok.mp hw
    cases hw
    exact ⟨rfl, rfl, bind_eq_ok.mpr ⟨acquirers, h.acquirersOf first aliases acquirers hacquirers, rfl⟩⟩

/-- **A first lock has the reports that it had.** -/
theorem check (scope : Scope) (first : LockSite) (aliases : List LockSite) (release : List InstId) :
    Persists (d.check scope first aliases release) (d'.check scope first aliases release) := by
  unfold Detector.check
  rw [h.policy]
  refine (h.tables.functionName first.inst).bind fun name _ => .ite (fun _ => .refl _) fun _ => ?_
  intro reports hreports
  obtain ⟨w, hw, hreports⟩ := bind_eq_ok.mp hreports
  -- the walk is made from the tables and the graph of the detector
  obtain ⟨htables, hgraph, hw'⟩ := h.walk hw
  have hhits : Persists w.hits (w.on d'.program.toTables d'.graph).hits :=
    Walk.persists_hits (htables ▸ h.tables.toExtendsTo) (htables ▸ h.ready.inRange) (htables ▸ h.ready.arranged)
      (htables ▸ hgraph ▸ h.ready.graph) h.arranged h.graph
  rw [hw', ok_bind]
  exact (hhits.bind fun _ _ => .mapM fun hit _ => h.report first hit) reports hreports

theorem sameLock (group : List LockSite) (first : LockSite) :
    Persists (d.sameLock group first) (d'.sameLock group first) :=
  .filterM fun other _ => .ite (fun _ => .refl _) fun _ => (h.oracle first.target other.target).bind_pure _

theorem checkLocal (released : List (InstId × List InstId)) (group : List LockSite) (first : LockSite) :
    Persists (d.checkLocal released group first) (d'.checkLocal released group first) :=
  (h.sameLock group first).bind fun _ _ => .ite (fun _ => .refl _) fun _ => h.check _ _ _ _

theorem checkGlobal (released : List (InstId × List InstId)) (group : List LockSite) (first : LockSite) :
    Persists (d.checkGlobal released group first) (d'.checkGlobal released group first) :=
  h.check _ _ _ _

omit h in
/-- A group has the reports that it had, if each of its sites has. -/
theorem checkGroup {one one' : List LockSite → LockSite → Except Fault (List Report)}
    (hone : ∀ group s, Persists (one group s) (one' group s)) (group : List LockSite) :
    Persists (checkGroup one group) (checkGroup one' group) :=
  .ite (fun _ => .refl _) fun _ => (Persists.mapM fun s _ => hone group s).bind_pure _

/-- The guards of old lock sites are released where they were. -/
theorem releasesOf {sites : List LockSite} (hsites : ∀ s ∈ sites, d.program.IsLockSite s) :
    Persists (releasesOf d.program sites) (releasesOf d'.program sites) := by
  refine .mapM fun s hs => ?_
  have hguard := (hsites s hs).guard_within h.ready.inRange
  exact (Guard.Extension.releases h.tables h.ready.inRange h.ends hguard).bind_pure _

theorem detectFlavor {sites : List LockSite} (hsites : ∀ s ∈ sites, d.program.IsLockSite s) :
    Persists (d.detectFlavor sites) (d'.detectFlavor sites) := by
  refine (h.tables.lockGroups sites).bind fun groups _ => (h.releasesOf hsites).bind fun released _ => ?_
  refine (Persists.mapM fun group _ => checkGroup (h.checkLocal released) group.2).bind fun _ _ => ?_
  exact (Persists.mapM fun group _ => checkGroup (h.checkGlobal released) group.2).bind_pure _

theorem reportUnparsed (s : UnparsedSite) : Persists (d.reportUnparsed s) (d'.reportUnparsed s) :=
  (h.tables.describe s.inst).bind_pure _

/-- **All that was reported is reported, and nothing else.** -/
theorem detect : Persists d.detect d'.detect := by
  unfold Detector.detect
  rw [h.policy]
  refine (h.tables.lockSites h.ready.inRange h.arranged h.quiet d.policy.flavors).bind fun sites hsites => ?_
  refine (Persists.mapM fun s _ => h.reportUnparsed s).bind fun _ _ => ?_
  refine (Persists.mapM fun f _ => h.detectFlavor fun s hs => ?_).bind_pure _
  -- a site of a flavor is a lock site, so its guard is an old value
  have hlock := (LockSites.mem_ofFlavor.mp hs).1
  exact (((Tables.of_lockSites h.ready.inRange h.ready.arranged hsites).2 s).mp hlock).1

end ExtendsTo

/-! ## Code beside a program -/

/-- A builder that goes on with code of its own does not change what is found. The new code may call
what was there, but it uses no value of it, and it calls no lock operation. -/
theorem detect_eq_of_beyond {steps more : List Step} {b b' : Builder}
    (hb : Builder.empty.runAll steps = .ok b) (hb' : b.runAll more = .ok b')
    (hmore : ∀ s ∈ more, s.Beyond b.tables.sizes) (hquiet : b'.finish.QuietFrom b.tables.insts.size)
    (hrange : b.finish.InRange) (hends : b.finish.ChainsEnd) {oracle oracle' : Oracle}
    (horacle : oracle = b.finish.aliasing ∧ oracle' = b'.finish.aliasing ∨
      oracle = oracle' ∧ ∀ v w, ∃ r, oracle v w = .ok r) (policy : Policy) :
    ∃ d d' found, ofProgram b.finish oracle policy = .ok d ∧ ofProgram b'.finish oracle' policy = .ok d' ∧
      d.detect = .ok found ∧ d'.detect = .ok found := by
  have harranged := Builder.arranged_of_runAll hb
  have harranged' := Builder.arranged_runAll harranged hb'
  have hextends := Builder.extendsApart_of_runAll hmore hb'
  obtain ⟨⟨p, graph, oracle, policy⟩, hd, hready, rfl, rfl, rfl⟩ :=
    exists_ready_of_arranged hrange harranged oracle policy
  obtain ⟨graph', hgraph'⟩ := CallGraph.exists_ofTables harranged'
  -- two pointers are compared by the instructions that they come from, and these are old ones
  have hpersists (v w : Value) : Persists (oracle v w) (oracle' v w) := by
    rcases horacle with ⟨rfl, rfl⟩ | ⟨rfl, -⟩
    · exact hextends.aliasing v w
    · exact .refl _
  have hanswers := (hready.compares (horacle.imp And.left And.right)).answers hends
  obtain ⟨sites, parts, reports, hdetect, -⟩ := exists_detect hready hends hanswers
  have hgrown : ExtendsTo ⟨b.finish, graph, oracle, policy⟩ ⟨b'.finish, graph', oracle', policy⟩ :=
    ⟨hready, hends, hextends, hquiet, harranged', hgraph', hpersists, rfl⟩
  exact ⟨_, _, _, hd, bind_eq_ok.mpr ⟨graph', hgraph', rfl⟩, hdetect, hgrown.detect _ hdetect⟩

/-! ### A caller beside a function -/

/-- A lock is acquired twice in a function. -/
def aloneSteps : List Step :=
  [.pointer .word, .function "f" [⟨2⟩] .void, .function "lock_api::mutex::Mutex<T>::lock" [⟨2⟩] .word,
    .block ⟨0⟩ "s", .call ⟨0⟩ ⟨1⟩ [.arg ⟨0⟩ 0], .call ⟨0⟩ ⟨1⟩ [.arg ⟨0⟩ 0]]

/-- Another function calls it with an argument of its own, and stores a value. -/
def besideSteps : List Step :=
  [.pointer ⟨2⟩, .function "g" [⟨2⟩] .void, .block ⟨2⟩ "s", .alloca ⟨1⟩ ⟨2⟩,
    .push ⟨1⟩ (.store (.arg ⟨2⟩ 0) (.inst ⟨2⟩)) .void, .call ⟨1⟩ ⟨0⟩ [.arg ⟨2⟩ 0],
    .setLocation ⟨4⟩ ⟨"d", "g", 1⟩, .push ⟨1⟩ (.ret none) .void]

/-- The tables that `aloneSteps` make. -/
def aloneTables : Tables where
  types := #[.void, .int 64, .pointer ⟨1⟩]
  globals := #[]
  functions := #[⟨"f", [⟨2⟩], ⟨0⟩, [⟨0⟩]⟩, ⟨"lock_api::mutex::Mutex<T>::lock", [⟨2⟩], ⟨1⟩, []⟩]
  blocks := #[⟨"s", ⟨0⟩, [⟨0⟩, ⟨1⟩]⟩]
  insts := #[⟨.call (.direct ⟨1⟩) [.arg ⟨0⟩ 0], ⟨1⟩, ⟨0⟩, none⟩,
    ⟨.call (.direct ⟨1⟩) [.arg ⟨0⟩ 0], ⟨1⟩, ⟨0⟩, none⟩]

/-- The tables with the caller. -/
def besideTables : Tables where
  types := #[.void, .int 64, .pointer ⟨1⟩, .pointer ⟨2⟩]
  globals := #[]
  functions := #[⟨"f", [⟨2⟩], ⟨0⟩, [⟨0⟩]⟩, ⟨"lock_api::mutex::Mutex<T>::lock", [⟨2⟩], ⟨1⟩, []⟩,
    ⟨"g", [⟨2⟩], ⟨0⟩, [⟨1⟩]⟩]
  blocks := #[⟨"s", ⟨0⟩, [⟨0⟩, ⟨1⟩]⟩, ⟨"s", ⟨2⟩, [⟨2⟩, ⟨3⟩, ⟨4⟩, ⟨5⟩]⟩]
  insts := #[⟨.call (.direct ⟨1⟩) [.arg ⟨0⟩ 0], ⟨1⟩, ⟨0⟩, none⟩,
    ⟨.call (.direct ⟨1⟩) [.arg ⟨0⟩ 0], ⟨1⟩, ⟨0⟩, none⟩, ⟨.alloca, ⟨3⟩, ⟨1⟩, none⟩,
    ⟨.store (.arg ⟨2⟩ 0) (.inst ⟨2⟩), ⟨0⟩, ⟨1⟩, none⟩,
    ⟨.call (.direct ⟨0⟩) [.arg ⟨2⟩ 0], ⟨0⟩, ⟨1⟩, some ⟨"d", "g", 1⟩⟩, ⟨.ret none, ⟨0⟩, ⟨1⟩, none⟩]

theorem runAll_aloneSteps : ∃ b b', Builder.empty.runAll aloneSteps = .ok b ∧
    b.runAll besideSteps = .ok b' ∧ b.tables = aloneTables ∧ b'.tables = besideTables :=
  ⟨_, _, rfl, rfl, rfl, rfl⟩

/-- The caller uses its own values only. -/
theorem beyond_besideSteps : ∀ s ∈ besideSteps, s.Beyond aloneTables.sizes := by
  simp [besideSteps, Step.Beyond, Value.Outside, InstKind.operands, Tables.sizes, aloneTables]

/-- Of the new instructions only the call of `f` calls a function. -/
theorem quietFrom_besideTables : besideTables.QuietFrom aloneTables.insts.size := by
  intro i kind f hi hkind hf
  obtain ⟨i⟩ := i
  obtain ⟨x, hx, rfl⟩ := Tables.kindOf_eq_ok.mp hkind
  have hlt : i < 6 := Tables.lt_of_inst hx
  have hge : 2 ≤ i := hi
  obtain rfl | rfl | rfl | rfl : i = 2 ∨ i = 3 ∨ i = 4 ∨ i = 5 := by omega
  -- all but the call of `f` have no callee
  all_goals
    cases hx
    cases hf
  exact ⟨_, rfl, by decide +kernel⟩

/-- The new function leads to both locks, and the reports are the same. -/
theorem detect_besideSteps : ∃ b b' d d' found,
    Builder.empty.runAll aloneSteps = .ok b ∧ b.runAll besideSteps = .ok b' ∧
      b'.finish.calledFunction ⟨4⟩ = .ok (some ⟨0⟩) ∧
        ofProgram b.finish b.finish.aliasing .default = .ok d ∧
          ofProgram b'.finish b'.finish.aliasing .default = .ok d' ∧ d.detect = .ok found ∧
            d'.detect = .ok found := by
  obtain ⟨b, b', hb, hb', ht, ht'⟩ := runAll_aloneSteps
  have hp : b.finish = .ofTables aloneTables := Program.ext_tables ht
  have hp' : b'.finish = .ofTables besideTables := Program.ext_tables ht'
  have hmore : ∀ s ∈ besideSteps, s.Beyond b.tables.sizes := by
    rw [ht]
    exact beyond_besideSteps
  have hquiet : b'.finish.QuietFrom b.tables.insts.size := by
    rw [hp', ht]
    exact quietFrom_besideTables
  have hrange : b.finish.InRange := by
    rw [hp]
    decide +kernel
  have hends : b.finish.ChainsEnd := by
    rw [Tables.chainsEnd_iff hrange, hp]
    decide +kernel
  obtain ⟨d, d', found, hd, hd', hdetect, hdetect'⟩ :=
    detect_eq_of_beyond hb hb' hmore hquiet hrange hends (.inl ⟨rfl, rfl⟩) .default
  refine ⟨b, b', d, d', found, hb, hb', ?_, hd, hd', hdetect, hdetect'⟩
  rw [hp']
  rfl

end Detector

end Relock
