import Relock.Proofs.Detector.Detect

/-!
# Detectors look up what is there

Every look-up of a detector is made at an index that the tables hold: lock sites are instructions of bodies,
their locks are operands, carriers are found at users, and groups consist of lock sites. So a detector
returns its reports, or meets a chain of casts and field addresses that has no end.

* `Guard.safe_releases`: the releases of a guard;
* `Detector.safe_detectFlavor`: the reports on the sites of one flavor;
* `Detector.safe_detect`, `Detector.exists_safe`: all reports on a program.
-/

namespace Relock

open Tables

/-! ## Releases -/

namespace Guard

variable {p : Program} {lock : InstId} (hp : p.InRange)

include hp

/-- Only the chain of the address that is stored to can have no end. -/
theorem safe_relocationAt (l : InstId) {s : InstId} (hs : s.index < p.insts.size) :
    p.Safe (relocationAt p l s) := by
  obtain ⟨k, hk⟩ := InRange.exists_kindOf hs
  unfold relocationAt
  rw [hk, ok_bind]
  cases k with
  | store v dest =>
    have hdest : dest.Within p.sizes := (hp.kindOf_within hk).operands dest (by simp [InstKind.operands])
    dsimp only
    -- only a store of the value that was loaded is followed further
    split
    · refine (safe_underlyingObject hp hdest).bind fun object _ => ?_
      exact (safe_of_lists (lists_withKind _ fun _ => Program.lt_of_mem_users)).bind_pure
    · exact safe_ok []
  | _ => exact safe_ok []

theorem safe_relocationsOf (c : InstId) : p.Safe (relocationsOf p lock c) := by
  refine (safe_of_lists (lists_fieldsOf p lock _ payloadPath)).bind fun payloads _ => ?_
  refine (safe_mapM fun f _ => safe_of_lists (lists_fieldsOf p lock _ innerPath)).bind fun inner _ => ?_
  refine (safe_mapM fun q _ => safe_of_lists (lists_loadsOf p lock _)).bind fun loads _ => ?_
  refine (safe_mapM fun l _ => (safe_mapM fun s hs => ?_).bind_pure).bind_pure
  exact safe_relocationAt hp l (Program.lt_of_mem_usersExcept hs)

/-- Only the chain of the first argument can have no end. -/
theorem safe_unwrapped {u : InstId} (hu : u.index < p.insts.size) : p.Safe (unwrapped p u) := by
  obtain ⟨x, hmem, hx⟩ : ∃ x ∈ p.insts, p.inst u = .ok x := exists_lookUp hu
  obtain ⟨void, hvoid⟩ := InRange.exists_isVoid (hp.within.results x hmem)
  unfold unwrapped
  rw [hx, ok_bind, hvoid, ok_bind]
  cases void with
  | false => exact safe_ok _
  | true =>
    cases hargs : x.kind.args? with
    | none => exact safe_ok []
    | some args =>
      cases args with
      | nil => exact safe_ok []
      | cons out rest =>
        have hout := InstKind.mem_operands_of_args hargs (List.mem_cons_self ..)
        have hwithin := (hp.kindOf_within (kindOf_of_inst hx)).operands out hout
        exact (safe_underlyingObject hp hwithin).bind_pure

theorem safe_carriersAt {u : InstId} (hu : u.index < p.insts.size) : p.Safe (carriersAt p lock u) := by
  -- calls and invocations go the same way
  have hunwrap : p.Safe (do
      if ← p.callsA isUnwrap u then return (← unwrapped p u).map Carrier.guard
      return []) := by
    refine (safe_of_exists (hp.exists_callsA isUnwrap hu)).bind fun unwraps _ => ?_
    cases unwraps with
    | true => exact (safe_unwrapped hp hu).bind_pure
    | false => exact safe_ok []
  refine (safe_of_exists (hp.exists_callsA isRelease hu)).bind fun drops _ => ?_
  cases drops with
  | true => exact safe_ok []
  | false =>
    refine (safe_of_exists (InRange.exists_kindOf hu)).bind fun k _ => ?_
    cases k with
    -- a cast may be what the payload is moved through
    | cast v => exact (safe_relocationsOf hp u).bind_pure
    | call => exact hunwrap
    | invoke => exact hunwrap
    | _ => exact safe_ok []

theorem safe_carriersFrom (c : Carrier) : p.Safe (carriersFrom p lock c) := by
  cases c with
  | guard g =>
    exact (safe_mapM fun u hu => safe_carriersAt hp (Program.lt_of_mem_usersExcept hu)).bind_pure
  | relocated o => exact safe_ok []

/-- **The release tracer is safe**: it returns, or it meets a chain that has no end. -/
theorem safe_releases (g : Value) : p.Safe (releases p lock g) := by
  -- the worklist is as safe as its steps
  refine (safe_reach fun c => safe_carriersFrom hp c).bind fun cs _ => ?_
  exact (safe_mapM fun c _ => safe_of_lists (lists_releasesFrom hp c)).bind_pure

end Guard

/-! ## Reports -/

namespace Detector

variable {d : Detector} {group : List LockSite} {first : LockSite} {released : List (InstId × List InstId)}

/-- Only a chain without an end can keep the oracle of a detector from comparing the locks of two sites. -/
def Compares (d : Detector) : Prop :=
  ∀ a b, d.program.IsLockSite a → d.program.IsLockSite b → d.program.Safe (d.oracle a.target b.target)

/-- Values can be compared by structure, or by an oracle that has an answer for any two of them. -/
theorem Ready.compares (hd : d.Ready)
    (horacle : d.oracle = d.program.aliasing ∨ ∀ a b, ∃ r, d.oracle a b = .ok r) : d.Compares := by
  have hrange := hd.inRange
  intro a b ha hb
  rcases horacle with heq | hanswers
  · rw [heq]
    exact safe_aliasing hrange (ha.target_within hrange) (hb.target_within hrange)
  · exact safe_of_exists (hanswers a.target b.target)

/-- If all chains end, the oracle has all answers. -/
theorem Compares.answers (h : d.Compares) (hends : d.program.ChainsEnd) : d.Answers :=
  fun a b ha hb => (h a b ha hb).exists_ok hends

/-- Lock sites by instruction, none twice. -/
structure IsGroup (d : Detector) (group : List LockSite) : Prop where
  sorted : group.Pairwise fun a b => a.inst.index < b.inst.index
  sites : ∀ s ∈ group, d.program.IsLockSite s

theorem IsGroup.sublist {part : List LockSite} (hgroup : d.IsGroup group) (h : part.Sublist group) :
    d.IsGroup part :=
  ⟨hgroup.sorted.sublist h, fun s hs => hgroup.sites s (h.subset hs)⟩

/-- The sites of a flavor that were collected from a program. -/
theorem isGroup_of_lockSites (hd : d.Ready) {flavors : FlavorSet} {found : LockSites}
    (hfound : d.program.lockSites flavors = .ok found) (f : Flavor) : d.IsGroup (found.ofFlavor f) := by
  obtain ⟨hnodup, hmem⟩ := of_lockSites hd.inRange hd.arranged hfound
  refine ⟨LockSites.ofFlavor_pairwise hnodup, fun s hs => ?_⟩
  exact ((hmem s).mp (LockSites.mem_ofFlavor.mp hs).1).1

/-- A group of sites by their place is a part of the sites, in the same order. -/
theorem IsGroup.intra {sites : List LockSite} (hsites : d.IsGroup sites) {places : List (LockPlace × LockSite)}
    (hplaces : (sites.mapM fun s => do return (← d.program.placeOf s, s)) = .ok places)
    {g : (FunctionId × TypeId) × List LockSite} (hg : g ∈ (LockGroups.ofPlaces places).intra) :
    d.IsGroup g.2 := by
  rw [LockGroups.eq_of_mem_intra hplaces hg]
  exact hsites.sublist List.filter_sublist

/-- Groups of locks known by their field are such parts as well. -/
theorem IsGroup.inter {sites : List LockSite} (hsites : d.IsGroup sites) {places : List (LockPlace × LockSite)}
    (hplaces : (sites.mapM fun s => do return (← d.program.placeOf s, s)) = .ok places)
    {g : LockIdentity × List LockSite} (hg : g ∈ (LockGroups.ofPlaces places).inter) : d.IsGroup g.2 := by
  rw [LockGroups.eq_of_mem_inter hplaces hg]
  exact hsites.sublist List.filter_sublist

/-- A check of lock sites faults on nothing. -/
theorem safe_check (hd : d.Ready) (scope : Scope) (hfirst : d.program.IsLockSite first) {aliases : List LockSite}
    (haliases : d.IsGroup aliases) (release : List InstId) :
    d.program.Safe (d.check scope first aliases release) :=
  safe_of_exists (exists_check_ok hd scope hfirst ⟨haliases.sorted, fun _ => Iff.rfl⟩ haliases.sites release)

/-- Within a function, the oracle is what can fail to answer. -/
theorem safe_checkLocal (hd : d.Ready) (horacle : d.Compares) (hgroup : d.IsGroup group)
    (hfirst : first ∈ group) : d.program.Safe (d.checkLocal released group first) := by
  have hsite := hgroup.sites first hfirst
  -- the oracle is asked about sites of the group only
  have hsame : d.program.Safe (d.sameLock group first) := by
    refine safe_filterM fun other hother => ?_
    split
    · exact safe_ok false
    · exact (horacle first other hsite (hgroup.sites other hother)).bind_pure
  refine hsame.bind fun aliases haliases => ?_
  split
  · exact safe_ok []
  · exact safe_check hd .here hsite (hgroup.sublist (sublist_of_filterM haliases)) _

/-- Across functions, no oracle is asked. -/
theorem safe_checkGlobal (hd : d.Ready) (hgroup : d.IsGroup group) (hfirst : first ∈ group) :
    d.program.Safe (d.checkGlobal released group first) :=
  safe_check hd .everywhere (hgroup.sites first hfirst) (hgroup.sublist List.filter_sublist) _

/-- A group is as safe as its sites. -/
theorem safe_checkGroup {t : Tables} {one : List LockSite → LockSite → Except Fault (List Report)}
    (h : ∀ first ∈ group, t.Safe (one group first)) : t.Safe (checkGroup one group) := by
  unfold checkGroup
  split
  · exact safe_ok []
  · exact (safe_mapM h).bind_pure

/-- **Step lemma**: the groups of one flavor are checked one by one, and all of it is safe. -/
theorem safe_detectFlavor (hd : d.Ready) (horacle : d.Compares) {sites : List LockSite} (hsites : d.IsGroup sites) :
    d.program.Safe (d.detectFlavor sites) := by
  have hplaces : d.program.Safe (sites.mapM fun s => do return (← d.program.placeOf s, s)) :=
    safe_mapM fun s hs => (safe_placeOf hd.inRange (hsites.sites s hs)).bind_pure
  -- the places are kept with the groups, since they say which sites a group has
  refine hplaces.bind_pure.bind fun groups hgroups => ?_
  obtain ⟨places, hplaces, hgroups⟩ := bind_eq_ok.mp hgroups
  cases hgroups
  refine (safe_mapM fun s _ => (Guard.safe_releases hd.inRange s.guard).bind_pure).bind fun released _ => ?_
  refine (safe_mapM fun g hg => safe_checkGroup fun first hfirst => ?_).bind fun _ _ =>
    (safe_mapM fun g hg => safe_checkGroup fun first hfirst => ?_).bind_pure
  · exact safe_checkLocal hd horacle (hsites.intra hplaces hg) hfirst
  · exact safe_checkGlobal hd (hsites.inter hplaces hg) hfirst

/-- **A detector is safe**: whatever a program is like, it returns its reports or meets a chain that has no end.
No index is ever out of range. -/
theorem safe_detect (hd : d.Ready) (horacle : d.Compares) : d.program.Safe d.detect := by
  obtain ⟨found, hfound, -, hunparsed, -⟩ := exists_lockSites hd.inRange hd.arranged d.policy.flavors
  unfold detect
  rw [hfound, ok_bind]
  -- first the calls that could not be parsed, then the flavors
  refine (safe_mapM fun u hu => safe_of_exists (exists_reportUnparsed hd (hunparsed u hu))).bind fun _ _ => ?_
  exact (safe_mapM fun f _ => safe_detectFlavor hd horacle (isGroup_of_lockSites hd hfound f)).bind_pure

/-- For every program that was loaded there is a detector, and what it does is safe if it compares values by
structure or has an answer for any two of them. -/
theorem exists_safe {text : String} {p : Program} (hload : Program.load text = .ok p) (policy : Policy)
    {oracle : Oracle} (horacle : oracle = p.aliasing ∨ ∀ a b, ∃ r, oracle a b = .ok r) :
    ∃ d, ofProgram p oracle policy = .ok d ∧ p.Safe d.detect := by
  obtain ⟨d, hd, hready, rfl, rfl, rfl⟩ := exists_ready hload oracle policy
  exact ⟨d, hd, safe_detect hready (hready.compares horacle)⟩

end Detector

end Relock
