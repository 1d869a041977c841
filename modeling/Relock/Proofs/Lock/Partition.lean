import Relock.Proofs.Builder.Arrangement
import Relock.Proofs.Lock.Identity

/-!
# Every lock call has its place

The calls of lock operations are collected from the bodies one by one, and the locks of each flavor are then
put into groups. No call is lost on the way and none is counted twice: a call is collected as a lock of its
flavor or as one that cannot be parsed, and a lock is in the one group of the locks that share its field,
or its function and type if it is not known by a field.

* `Tables.LockCall`: the calls that are to be collected;
* `Tables.perm_of_lockSitesAmong`, `LockSites.Exact`: what is collected;
* `LockGroups.exists_shared`, `LockGroups.Partitions`: what is grouped;
* `Builder.lockSites_partitioned`: both, for programs that were built.
-/

namespace Relock

/-- The instruction `i` of a body calls the lock operation `k` by its name, and its flavor is in the set. -/
structure Tables.LockCall (t : Tables) (flavors : FlavorSet) (i : InstId) (k : LockKind) : Prop where
  body : ∃ f is, f ∈ t.bodies ∧ t.instsOf f = .ok is ∧ i ∈ is
  operation : ∃ name, t.calledName i = .ok (some name) ∧ LockKind.ofSymbol name = some k
  flavor : flavors.contains k.flavor = true

namespace LockSites

/-- The instructions of the locks of all flavors and of the lock calls that cannot be parsed. -/
def insts (sites : LockSites) : List InstId :=
  Flavor.all.flatMap (fun f => (sites.ofFlavor f).map LockSite.inst) ++ sites.unparsed.map UnparsedSite.inst

/-- Every lock call is collected once, as a lock of its flavor or among the calls that cannot be parsed, and
nothing else is collected. -/
structure Exact (sites : LockSites) (t : Tables) (flavors : FlavorSet) : Prop where
  once : ∀ i k, t.LockCall flavors i k → sites.insts.count i = 1
  placed : ∀ i k, t.LockCall flavors i k → (∃ s ∈ sites.ofFlavor k.flavor, s.inst = i ∧ s.kind = k) ∨
    ∃ u ∈ sites.unparsed, u.inst = i ∧ u.kind = k
  only : ∀ i ∈ sites.insts, ∃ k, t.LockCall flavors i k

/-- Flavor by flavor, each lock is listed once. -/
theorem insts_perm (sites : LockSites) :
    sites.insts.Perm (sites.locks.map LockSite.inst ++ sites.unparsed.map UnparsedSite.inst) := by
  have hperm := (flatMap_ofFlavor_perm Flavor.all_nodup fun s (_ : s ∈ sites.locks) => Flavor.mem_all _).map
    LockSite.inst
  rw [List.map_flatMap] at hperm
  exact hperm.append_right _

end LockSites

namespace Tables

variable {t : Tables} {flavors : FlavorSet}

/-! ## Collecting -/

/-- Whether an instruction calls a lock operation of the flavors. -/
def isLockCall (t : Tables) (flavors : FlavorSet) (i : InstId) : Bool :=
  (t.lockKindAt flavors i).toOption.any Option.isSome

/-- An instruction is a lock call if it calls an operation of one of the flavors. -/
theorem isLockCall_eq_true {i : InstId} :
    t.isLockCall flavors i = true ↔ ∃ k, t.lockKindAt flavors i = .ok (some k) := by
  unfold isLockCall
  cases t.lockKindAt flavors i with
  | error e => simp [Except.toOption]
  | ok kind => simp [Except.toOption, Option.isSome_iff_exists]

/-- Each call goes into one of the two lists, with the operation that it calls. -/
theorem perm_of_lockSitesAmong {is : List InstId} {sites : LockSites}
    (h : t.lockSitesAmong flavors is = .ok sites) :
    (sites.locks.map LockSite.inst ++ sites.unparsed.map UnparsedSite.inst).Perm
        (is.filter (t.isLockCall flavors)) ∧
      (∀ s ∈ sites.locks, t.lockKindAt flavors s.inst = .ok (some s.kind)) ∧
        ∀ u ∈ sites.unparsed, t.lockKindAt flavors u.inst = .ok (some u.kind) := by
  induction is generalizing sites with
  | nil =>
    cases h
    exact ⟨.nil, by simp [LockSites.empty], by simp [LockSites.empty]⟩
  | cons i is ih =>
    obtain ⟨kind, hkind, h⟩ := bind_eq_ok.mp h
    cases kind with
    -- not a lock call: it is in neither of the lists
    | none =>
      have hno : t.isLockCall flavors i = false := by simp [isLockCall, hkind, Except.toOption]
      rw [List.filter_cons_of_neg (by simp [hno])]
      exact ih h
    -- a lock call: the layout of its arguments decides which list it goes to
    | some k =>
      obtain ⟨parsed, hparsed, h⟩ := bind_eq_ok.mp h
      obtain ⟨rest, hrest, h⟩ := bind_eq_ok.mp h
      cases h
      obtain ⟨hperm, hlocks, hunparsed⟩ := ih hrest
      rw [List.filter_cons_of_pos (isLockCall_eq_true.mpr ⟨k, hkind⟩)]
      cases parsed with
      | ok site =>
        obtain ⟨rfl, rfl, -⟩ := of_parseSite hparsed
        exact ⟨hperm.cons _, List.forall_mem_cons.mpr ⟨hkind, hlocks⟩, hunparsed⟩
      | error e =>
        -- the call is put in front of the second list, behind all locks
        exact ⟨List.perm_middle.trans (hperm.cons _), hlocks, List.forall_mem_cons.mpr ⟨hkind, hunparsed⟩⟩

/-- **What is collected is exact**: bodies do not share instructions, so no call is collected twice. -/
theorem exact_of_lockSites (ht : t.Arranged) {sites : LockSites} (h : t.lockSites flavors = .ok sites) :
    sites.Exact t flavors := by
  obtain ⟨iss, hiss, hnodup, -, hbody⟩ := exists_bodyInsts ht
  obtain ⟨iss', hiss', h⟩ := bind_eq_ok.mp h
  rw [hiss] at hiss'
  cases hiss'
  obtain ⟨hperm, hlocks, hunparsed⟩ := perm_of_lockSitesAmong h
  -- so what is collected is a part of a list without repetition, picked by what each instruction calls
  have hall := sites.insts_perm.trans hperm
  -- a call is collected for what it calls, and for the body that it is in
  have hcall {i : InstId} {k : LockKind} :
      t.LockCall flavors i k ↔ i ∈ iss.flatten ∧ t.lockKindAt flavors i = .ok (some k) := by
    rw [hbody, lockKindAt_eq_some]
    exact ⟨fun h => ⟨h.body, h.operation, h.flavor⟩, fun h => ⟨h.1, h.2.1, h.2.2⟩⟩
  have hmem {i : InstId} : i ∈ sites.insts ↔ ∃ k, t.LockCall flavors i k := by
    simp only [hall.mem_iff, List.mem_filter, isLockCall_eq_true, hcall, exists_and_left]
  refine ⟨fun i k hi => ?_, fun i k hi => ?_, fun i hi => hmem.mp hi⟩
  · exact List.count_eq_one_of_mem (hall.nodup_iff.mpr (hnodup.filter _)) (hmem.mpr ⟨k, hi⟩)
  · -- whichever list the instruction is in, it stands there with the operation that it calls
    have hkind := (hcall.mp hi).2
    have hin := sites.insts_perm.mem_iff.mp (hmem.mpr ⟨k, hi⟩)
    rcases List.mem_append.mp hin with hin | hin
    · obtain ⟨s, hs, rfl⟩ := List.mem_map.mp hin
      have heq := hlocks s hs
      rw [hkind] at heq
      cases heq
      exact .inl ⟨s, LockSites.mem_ofFlavor.mpr ⟨hs, rfl⟩, rfl, rfl⟩
    · obtain ⟨u, hu, rfl⟩ := List.mem_map.mp hin
      have heq := hunparsed u hu
      rw [hkind] at heq
      cases heq
      exact .inr ⟨u, hu, rfl, rfl⟩

end Tables

/-! ## Grouping -/

namespace LockGroups

/-- The sites of all groups. -/
def sites (groups : LockGroups) : List LockSite :=
  groups.inter.flatMap Prod.snd ++ groups.intra.flatMap Prod.snd

/-- Every site is in one group, no group is empty, and two sites share a group exactly if they have the same
field, or neither has one and they agree on function and type. -/
structure Partitions (groups : LockGroups) (t : Tables) (sites : List LockSite) : Prop where
  once : ∀ s ∈ sites, groups.sites.count s = 1
  only : ∀ s ∈ groups.sites, s ∈ sites
  interNonempty : ∀ e ∈ groups.inter, e.2 ≠ []
  intraNonempty : ∀ e ∈ groups.intra, e.2 ≠ []
  inter : ∀ a ∈ sites, ∀ b ∈ sites, (∃ e ∈ groups.inter, a ∈ e.2 ∧ b ∈ e.2) ↔
    ∃ l, t.identityOf a.target = .ok (some l) ∧ t.identityOf b.target = .ok (some l)
  intra : ∀ a ∈ sites, ∀ b ∈ sites, (∃ e ∈ groups.intra, a ∈ e.2 ∧ b ∈ e.2) ↔
    (t.identityOf a.target = .ok none ∧ t.identityOf b.target = .ok none) ∧
      (∃ f, t.functionOf a.inst = .ok f ∧ t.functionOf b.inst = .ok f) ∧
        ∃ ty, t.valueType a.target = .ok ty ∧ t.valueType b.target = .ok ty

variable {t : Tables} {sites : List LockSite}

/-- If the groups are those of the sites with one place, two sites share a group if they have the same place. -/
theorem exists_shared {κ : Type} {groups : List (κ × List LockSite)} (place : κ → LockPlace)
    (hgroup : ∀ k group, (k, group) ∈ groups →
      group = sites.filter fun s => (t.placeOf s).toOption == some (place k))
    (hfound : ∀ s ∈ sites, ∀ k, t.placeOf s = .ok (place k) →
      (k, sites.filter fun s => (t.placeOf s).toOption == some (place k)) ∈ groups)
    {a b : LockSite} (ha : a ∈ sites) (hb : b ∈ sites) :
    (∃ e ∈ groups, a ∈ e.2 ∧ b ∈ e.2) ↔ ∃ k, t.placeOf a = .ok (place k) ∧ t.placeOf b = .ok (place k) := by
  -- the sites of a group are those with its place
  have hmem {k : κ} {s : LockSite} : s ∈ sites.filter (fun s => (t.placeOf s).toOption == some (place k)) ↔
      s ∈ sites ∧ t.placeOf s = .ok (place k) := by
    rw [List.mem_filter, beq_iff_eq, toOption_eq_some]
  constructor
  · rintro ⟨⟨k, group⟩, he, hea, heb⟩
    obtain rfl := hgroup k group he
    exact ⟨k, (hmem.mp hea).2, (hmem.mp heb).2⟩
  · rintro ⟨k, hka, hkb⟩
    exact ⟨_, hfound a ha k hka, hmem.mpr ⟨ha, hka⟩, hmem.mpr ⟨hb, hkb⟩⟩

/-- **Sites with places are partitioned**: a site goes to the inter-procedural groups by its field, or to the
intra-procedural ones by function and type. -/
theorem partitions_ofPlaces {places : List (LockPlace × LockSite)}
    (h : (sites.mapM fun site => do return (← t.placeOf site, site)) = .ok places) (hnodup : sites.Nodup) :
    (ofPlaces places).Partitions t sites := by
  -- both kinds of groups together hold each site once
  have hperm : (ofPlaces places).sites.Perm sites := List.perm_append_comm.trans (flatMap_perm h)
  exact {
    once s hs := List.count_eq_one_of_mem (hperm.nodup_iff.mpr hnodup) (hperm.mem_iff.mpr hs)
    only s hs := hperm.mem_iff.mp hs
    interNonempty e he := groupBy_ne_nil LockIdentity.strictTotal_lt he
    intraNonempty e he := groupBy_ne_nil strictTotal_intraLt he
    inter a ha b hb := by
      rw [exists_shared .field (fun _ _ hg => eq_of_mem_inter h hg)
        (fun _ hs _ hplace => mem_inter_of_placeOf h hs hplace) ha hb]
      simp only [Tables.placeOf_eq_field]
    intra a ha b hb := by
      rw [exists_shared (fun k => .within k.1 k.2) (fun _ _ hg => eq_of_mem_intra h hg)
        (fun _ hs _ hplace => mem_intra_of_placeOf h hs hplace) ha hb]
      simp only [Tables.placeOf_eq_within]
      constructor
      · rintro ⟨⟨f, ty⟩, ⟨hna, hfa, hta⟩, hnb, hfb, htb⟩
        exact ⟨⟨hna, hnb⟩, ⟨f, hfa, hfb⟩, ty, hta, htb⟩
      · rintro ⟨⟨hna, hnb⟩, ⟨f, hfa, hfb⟩, ty, hta, htb⟩
        exact ⟨(f, ty), ⟨hna, hfa, hta⟩, hnb, hfb, htb⟩ }

end LockGroups

namespace Builder

variable {b : Builder}

/-- **No lock call is lost, and none is counted twice.** In a program that was built, of which all entries exist
and all chains end, exactly the calls of lock operations of the flavors are collected, each once. The locks of
each flavor are in one group each: with those that have the same field, or, without a field, with those that
have none in the same function for the same type. -/
theorem lockSites_partitioned {steps : List Step} (hb : empty.runAll steps = .ok b) (hrange : b.finish.InRange)
    (hends : b.finish.ChainsEnd) (flavors : FlavorSet) :
    ∃ sites, b.finish.lockSites flavors = .ok sites ∧ sites.Exact b.finish.toTables flavors ∧
      ∀ f, ∃ groups, LockGroups.ofSites b.finish.toTables (sites.ofFlavor f) = .ok groups ∧
        groups.Partitions b.finish.toTables (sites.ofFlavor f) := by
  have harranged : b.finish.Arranged := arranged_of_runAll hb
  obtain ⟨sites, hsites, hnodup, -, hmem⟩ := Tables.exists_lockSites hrange harranged flavors
  refine ⟨sites, hsites, Tables.exact_of_lockSites harranged hsites, fun f => ?_⟩
  -- the sites of a flavor are different, as their instructions increase
  have hflavor : (sites.ofFlavor f).Nodup := (LockSites.ofFlavor_pairwise hnodup).imp fun hlt heq => by
    rw [heq] at hlt
    exact Nat.lt_irrefl _ hlt
  -- a lock has a place, since the chain to it ends
  obtain ⟨places, hplaces⟩ : ∃ places,
      ((sites.ofFlavor f).mapM fun site => do return (← b.finish.placeOf site, site)) = .ok places := by
    refine exists_mapM_ok fun s hs => ?_
    have hsite := ((hmem s).mp (LockSites.mem_ofFlavor.mp hs).1).1
    obtain ⟨place, hplace⟩ := Tables.exists_placeOf hrange hends hsite
    exact ⟨_, bind_eq_ok.mpr ⟨place, hplace, rfl⟩⟩
  exact ⟨_, bind_eq_ok.mpr ⟨places, hplaces, rfl⟩, LockGroups.partitions_ofPlaces hplaces hflavor⟩

/-- Two functions that each lock a field of what they share and a lock of their own. The first one also has a
lock of the other flavor, and a lock call that cannot be parsed. -/
def sharedField : List Step :=
  [.bodylessType "Mutex", .pointer ⟨2⟩, .recordType "Shared" [⟨2⟩], .pointer ⟨4⟩,
    .function "lock_api::mutex::Mutex<R,T>::lock" [⟨3⟩] .word,
    .function "std::sync::mutex::Mutex<T>::lock" [⟨3⟩] .word, .function "first" [⟨5⟩, ⟨3⟩] .void,
    .block ⟨2⟩ "entry", .function "second" [⟨5⟩, ⟨3⟩] .void, .block ⟨3⟩ "entry",
    .push ⟨0⟩ (.fieldAddr (.arg ⟨2⟩ 0) [0]) ⟨3⟩, .call ⟨0⟩ ⟨0⟩ [.inst ⟨0⟩], .call ⟨0⟩ ⟨0⟩ [.arg ⟨2⟩ 1],
    .call ⟨0⟩ ⟨0⟩ [], .call ⟨0⟩ ⟨1⟩ [.arg ⟨2⟩ 1], .push ⟨1⟩ (.fieldAddr (.arg ⟨3⟩ 0) [0]) ⟨3⟩,
    .call ⟨1⟩ ⟨0⟩ [.inst ⟨5⟩], .call ⟨1⟩ ⟨0⟩ [.arg ⟨3⟩ 1]]

/-- The locks of the field share a group, and those of the two functions do not. -/
theorem partitioned_sharedField : ∃ b sites groups, empty.runAll sharedField = .ok b ∧ b.finish.InRange ∧
    b.finish.ChainsEnd ∧ b.finish.lockSites .all = .ok sites ∧ sites.Exact b.finish.toTables .all ∧
      sites.insts = [⟨4⟩, ⟨1⟩, ⟨2⟩, ⟨6⟩, ⟨7⟩, ⟨3⟩] ∧
        LockGroups.ofSites b.finish.toTables (sites.ofFlavor .lockApi) = .ok groups ∧
          groups.Partitions b.finish.toTables (sites.ofFlavor .lockApi) ∧
            groups.inter.map (fun e => e.2.map LockSite.inst) = [[⟨1⟩, ⟨6⟩]] ∧
              groups.intra.map (fun e => e.2.map LockSite.inst) = [[⟨2⟩], [⟨7⟩]] := by
  obtain ⟨b, hb⟩ : ∃ b, empty.runAll sharedField = .ok b := ⟨_, rfl⟩
  have hrange : b.finish.InRange := by
    cases hb
    decide +kernel
  have hends : b.finish.ChainsEnd := by
    rw [Tables.chainsEnd_iff hrange]
    cases hb
    decide +kernel
  obtain ⟨sites, hsites, hexact, hgroups⟩ := lockSites_partitioned hb hrange hends .all
  obtain ⟨groups, hgroups, hpartitions⟩ := hgroups .lockApi
  refine ⟨b, sites, groups, hb, hrange, hends, hsites, hexact, ?_, hgroups, hpartitions, ?_⟩
  · cases hb
    cases hsites
    decide +kernel
  · cases hb
    cases hsites
    cases hgroups
    decide +kernel

end Builder

end Relock
