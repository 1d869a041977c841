import Relock.Proofs.Alias
import Relock.Proofs.Detector.Check
import Relock.Proofs.Guard.Release
import Relock.Proofs.Lock.Identity

/-!
# Groups and pairs

The locks of a program are checked group by group. What is reported in the end can be said without
groups: every lock site is checked against the sites that may acquire the same lock, in the function of
the site if all that is known is the type of the lock, and anywhere if the lock is known by its field.
Grouping loses no such pair, checks none twice and mixes no flavors.

* `Detector.LocalAlias`, `Detector.GlobalAlias`: the sites that a site is checked against;
* `Detector.Checked`: the reports on one site;
* `Detector.collects_detectFlavor`: the reports on the sites of one flavor;
* `Detector.detect_eq_pairwise`: all reports on a program.
-/

namespace Relock

/-- The lock sites with `P`, each once and by instruction. -/
structure Represents (sites : List LockSite) (P : LockSite → Prop) : Prop where
  sorted : sites.Pairwise fun a b => a.inst.index < b.inst.index
  mem_iff : ∀ s, s ∈ sites ↔ P s

namespace Represents

variable {sites : List LockSite} {P : LockSite → Prop}

/-- No two of the sites are calls at the same instruction. -/
theorem insts_nodup (h : Represents sites P) : (sites.map LockSite.inst).Nodup := by
  rw [List.Nodup, List.pairwise_map]
  exact h.sorted.imp fun hlt heq => Nat.ne_of_lt hlt (congrArg InstId.index heq)

theorem filter (h : Represents sites P) {Q : LockSite → Prop} {test : LockSite → Bool}
    (htest : ∀ s, P s → (test s = true ↔ Q s)) : Represents (sites.filter test) fun s => P s ∧ Q s where
  sorted := h.sorted.filter _
  mem_iff s := by
    rw [List.mem_filter, h.mem_iff]
    exact and_congr_right fun hs => htest s hs

theorem congr (h : Represents sites P) {Q : LockSite → Prop} (hPQ : ∀ s, P s ↔ Q s) : Represents sites Q :=
  ⟨h.sorted, fun s => (h.mem_iff s).trans (hPQ s)⟩

end Represents

namespace Detector

/-- Another site in the same function that certainly acquires the same lock, if neither lock is known by
its field. -/
structure LocalAlias (d : Detector) (first s : LockSite) : Prop where
  site : d.program.IsLockSite s
  other : s.inst ≠ first.inst
  flavor : s.kind.flavor = first.kind.flavor
  unnamed : d.program.identityOf s.target = .ok none
  function : ∃ f, d.program.functionOf first.inst = .ok f ∧ d.program.functionOf s.inst = .ok f
  type : ∃ ty, d.program.valueType first.target = .ok ty ∧ d.program.valueType s.target = .ok ty
  must : d.oracle first.target s.target = .ok .must

/-- Another site anywhere whose lock is known by the same field. -/
structure GlobalAlias (d : Detector) (first s : LockSite) : Prop where
  site : d.program.IsLockSite s
  other : s.inst ≠ first.inst
  flavor : s.kind.flavor = first.kind.flavor
  identity : ∃ l, d.program.identityOf first.target = .ok (some l) ∧
    d.program.identityOf s.target = .ok (some l)

/-- The reports on a site and the sites that it is checked against. -/
def Reported (d : Detector) (scope : Scope) (first : LockSite) (aliases : List LockSite)
    (release : List InstId) (reports : List Report) : Prop :=
  if aliases = [] then reports = [] else d.check scope first aliases release = .ok reports

/-- The reports on a site, whatever group it is in. -/
inductive Checked (d : Detector) (first : LockSite) (reports : List Report) : Prop where
  | here {aliases : List LockSite} {release : List InstId}
      (hidentity : d.program.identityOf first.target = .ok none)
      (haliases : Represents aliases (d.LocalAlias first))
      (hrelease : Guard.releases d.program first.inst first.guard = .ok release)
      (hreports : d.Reported .here first aliases release reports) : Checked d first reports
  | everywhere {aliases : List LockSite} {release : List InstId} {l : LockIdentity}
      (hidentity : d.program.identityOf first.target = .ok (some l))
      (haliases : Represents aliases (d.GlobalAlias first))
      (hrelease : Guard.releases d.program first.inst first.guard = .ok release)
      (hreports : d.Reported .everywhere first aliases release reports) : Checked d first reports

/-- The oracle of a detector can compare the locks of all sites. -/
def Answers (d : Detector) : Prop :=
  ∀ a b, d.program.IsLockSite a → d.program.IsLockSite b → ∃ r, d.oracle a.target b.target = .ok r

/-- The sites of one flavor with one place. -/
def InGroup (d : Detector) (flavor : Flavor) (place : LockPlace) (s : LockSite) : Prop :=
  (d.program.IsLockSite s ∧ s.kind.flavor = flavor) ∧ d.program.placeOf s = .ok place

variable {d : Detector}

/-- Without anything to check against there is nothing to report. -/
theorem reported_nil {scope : Scope} {first : LockSite} {aliases : List LockSite} {release : List InstId}
    (h : aliases = []) : d.Reported scope first aliases release [] := by
  rw [Reported, if_pos h]

/-- With something to check against, the check is made. -/
theorem reported_check {scope : Scope} {first : LockSite} {aliases : List LockSite}
    {release : List InstId} {reports : List Report} (h : aliases ≠ [])
    (hcheck : d.check scope first aliases release = .ok reports) :
    d.Reported scope first aliases release reports := by
  rw [Reported, if_neg h]
  exact hcheck

/-- Two sites make a group that is checked. -/
theorem not_short {group : List LockSite} {a b : LockSite} (ha : a ∈ group) (hb : b ∈ group)
    (hne : b.inst ≠ a.inst) : ¬ group.length < 2 := by
  match group, ha, hb with
  | [c], ha, hb =>
    rw [List.mem_singleton.mp ha, List.mem_singleton.mp hb] at hne
    exact absurd rfl hne
  | _ :: _ :: _, _, _ => simp

/-- A group with no other site has at most one site. -/
theorem short_of_others_eq_nil {group : List LockSite} {first : LockSite}
    (hnodup : (group.map LockSite.inst).Nodup) (h : others group first = []) : group.length < 2 := by
  have hall : ∀ s ∈ group, s.inst = first.inst := by
    simpa [others] using h
  match group, hnodup with
  | [], _ => simp
  | [_], _ => simp
  | a :: b :: _, hnodup =>
    have hab : a.inst = b.inst := (hall a (by simp)).trans (hall b (by simp)).symm
    simp [hab] at hnodup

/-- A check reports on hits and on nothing else. -/
theorem told_of_check {scope : Scope} {first : LockSite} {aliases : List LockSite} {release : List InstId}
    {reports : List Report} (h : d.check scope first aliases release = .ok reports) :
    ∀ r ∈ reports, ∃ hit, Told d.program.toTables first hit r := by
  obtain ⟨name, -, h⟩ := bind_eq_ok.mp h
  -- a check of a suppressed function reports nothing
  split at h
  · cases h
    simp
  · obtain ⟨w, -, h⟩ := bind_eq_ok.mp h
    obtain ⟨hits, -, h⟩ := bind_eq_ok.mp h
    intro r hr
    obtain ⟨hit, -, hreport⟩ := (mem_of_mapM h).mp hr
    exact ⟨hit, told_of_report hreport⟩

/-- What a check reports are double locks. -/
theorem bugKind_of_check {scope : Scope} {first : LockSite} {aliases : List LockSite}
    {release : List InstId} {reports : List Report}
    (h : d.check scope first aliases release = .ok reports) : ∀ r ∈ reports, r.bugKind = "DoubleLock" := by
  intro r hr
  obtain ⟨hit, ⟨⟩⟩ := told_of_check h r hr
  rfl

/-- All reports on a site are double locks. -/
theorem Checked.bugKind {first : LockSite} {reports : List Report} (h : d.Checked first reports) :
    ∀ r ∈ reports, r.bugKind = "DoubleLock" := by
  -- whatever the scope of the check was
  have hreported {scope : Scope} {aliases : List LockSite} {release : List InstId}
      (h : d.Reported scope first aliases release reports) : ∀ r ∈ reports, r.bugKind = "DoubleLock" := by
    unfold Reported at h
    split at h
    · simp [h]
    · exact bugKind_of_check h
  cases h with
  | here _ _ _ h => exact hreported h
  | everywhere _ _ _ h => exact hreported h

/-- The filter that takes double locks out of all reports keeps the reports of checks. -/
theorem filter_checked {sites : List LockSite} {parts : List (List Report)}
    (h : List.Forall₂ d.Checked sites parts) :
    parts.flatten.filter (fun r => r.bugKind == "DoubleLock") = parts.flatten := by
  induction h with
  | nil => rfl
  | cons hpart _ ih =>
    rw [List.flatten_cons, List.filter_append, ih, List.filter_eq_self.mpr]
    intro r hr
    rw [hpart.bugKind r hr]
    rfl

/-- A check of lock sites does not fault. -/
theorem exists_check_ok (hd : d.Ready) (scope : Scope) {first : LockSite} (hfirst : d.program.IsLockSite first)
    {aliases : List LockSite} {P : LockSite → Prop} (haliases : Represents aliases P)
    (hP : ∀ s, P s → d.program.IsLockSite s) (release : List InstId) :
    ∃ reports, d.check scope first aliases release = .ok reports := by
  obtain ⟨name, hname⟩ := hd.inRange.exists_functionName hfirst.lt
  cases hkept : d.policy.isSuppressed name with
  -- suppressed functions are not walked
  | true => exact ⟨[], by simp [check, hname, hkept]⟩
  | false =>
    have hlt : ∀ s ∈ aliases, s.inst.index < d.program.insts.size := fun s hs =>
      (hP s ((haliases.mem_iff s).mp hs)).lt
    have hq := hd.wellPosed scope hfirst.lt hlt haliases.insts_nodup release
    obtain ⟨-, -, reports, -, -, hreports, -⟩ := exists_check hq hname hkept
    exact ⟨reports, hreports⟩

/-! ## One group -/

section Group

variable {flavor : Flavor} {group : List LockSite} {first : LockSite}

/-- The sites of its group that certainly have its lock are those that a site is checked against. -/
theorem exists_sameLock {f : FunctionId} {ty : TypeId}
    (hgroup : Represents group (d.InGroup flavor (.within f ty))) (hfirst : first ∈ group)
    (horacle : d.Answers) : ∃ aliases, d.sameLock group first = .ok aliases ∧ aliases ⊆ group ∧
      Represents aliases (d.LocalAlias first) := by
  obtain ⟨⟨hsite, hflavor⟩, hplace⟩ := (hgroup.mem_iff first).mp hfirst
  obtain ⟨-, hf, hty⟩ := Tables.placeOf_eq_within.mp hplace
  -- the test without faults, which the oracle does not raise on lock sites
  let certain (s : LockSite) : Bool :=
    s.inst != first.inst && (d.oracle first.target s.target).toOption == some .must
  have htest : ∀ s ∈ group, (do
      if s.inst == first.inst then return false
      d.oracle.must first.target s.target : Except Fault Bool) = .ok (certain s) := by
    intro s hs
    obtain ⟨r, hr⟩ := horacle first s hsite ((hgroup.mem_iff s).mp hs).1.1
    cases heq : s.inst == first.inst <;> simp [certain, bne, heq, Oracle.must, hr, Except.toOption]
  have hcertain (s : LockSite) : certain s = true ↔
      s.inst ≠ first.inst ∧ d.oracle first.target s.target = .ok .must := by
    rw [Bool.and_eq_true, bne_iff_ne, beq_iff_eq, toOption_eq_some]
  refine ⟨_, filterM_eq_ok htest, List.filter_sublist.subset, ?_⟩
  refine (hgroup.filter fun s _ => hcertain s).congr fun s => ?_
  -- what the group says and what the oracle says make up an alias
  rw [InGroup, Tables.placeOf_eq_within]
  constructor
  · rintro ⟨⟨⟨hsite, hsflavor⟩, hidentity, hsf, hsty⟩, hother, hmust⟩
    exact ⟨hsite, hother, hsflavor.trans hflavor.symm, hidentity, ⟨f, hf, hsf⟩, ⟨ty, hty, hsty⟩, hmust⟩
  · rintro ⟨hsite, hother, hsflavor, hidentity, ⟨f', hf', hsf⟩, ⟨ty', hty', hsty⟩, hmust⟩
    rw [hf] at hf'
    cases hf'
    rw [hty] at hty'
    cases hty'
    exact ⟨⟨⟨hsite, hsflavor.trans hflavor⟩, hidentity, hsf, hsty⟩, hother, hmust⟩

/-- The other sites of its group are those that a site is checked against. -/
theorem represents_others {l : LockIdentity} (hgroup : Represents group (d.InGroup flavor (.field l)))
    (hfirst : first ∈ group) : Represents (others group first) (d.GlobalAlias first) := by
  obtain ⟨⟨-, hflavor⟩, hplace⟩ := (hgroup.mem_iff first).mp hfirst
  have hl := Tables.placeOf_eq_field.mp hplace
  have hother (s : LockSite) : (s.inst != first.inst) = true ↔ s.inst ≠ first.inst := bne_iff_ne
  refine (hgroup.filter fun s _ => hother s).congr fun s => ?_
  -- a lock known by its field needs no oracle: the identity is what is compared
  rw [InGroup, Tables.placeOf_eq_field]
  constructor
  · rintro ⟨⟨⟨hsite, hsflavor⟩, hsl⟩, hother⟩
    exact ⟨hsite, hother, hsflavor.trans hflavor.symm, l, hl, hsl⟩
  · rintro ⟨hsite, hother, hsflavor, l', hl', hsl⟩
    rw [hl] at hl'
    cases hl'
    exact ⟨⟨⟨hsite, hsflavor.trans hflavor⟩, hsl⟩, hother⟩

/-- The reports on a group are those on its sites. -/
theorem collects_checkGroup {one : List LockSite → LockSite → Except Fault (List Report)}
    (h : ∀ first ∈ group, ∃ part, d.Checked first part ∧
      if group.length < 2 then part = [] else one group first = .ok part) :
    Collects (checkGroup one group) d.Checked group := by
  unfold checkGroup
  split
  · -- a group of one site is not looked at, and gives no report
    next hshort =>
    refine ⟨group.map fun _ => [], by simp, ?_⟩
    rw [List.forall₂_map_right_iff, List.forall₂_same]
    intro first hfirst
    obtain ⟨part, hpart, heq⟩ := h first hfirst
    rw [if_pos hshort] at heq
    exact heq ▸ hpart
  · -- the sites of the group, one after the other
    next hlong =>
    have hsingle : ∀ first ∈ group, Collects (one group first) d.Checked [first] := by
      intro first hfirst
      obtain ⟨part, hpart, heq⟩ := h first hfirst
      rw [if_neg hlong] at heq
      exact .single heq hpart
    simpa using Collects.flatMapM hsingle

variable (hd : d.Ready) {released : List (InstId × List InstId)} {release : List InstId}
  (hrelease : Guard.releases d.program first.inst first.guard = .ok release)
  (hlookup : released.lookup first.inst = some release)

include hd hrelease hlookup

/-- **A site of an intra-procedural group is checked as it ought to be**: against the sites of its group that must
alias it. -/
theorem exists_checkLocal {f : FunctionId} {ty : TypeId}
    (hgroup : Represents group (d.InGroup flavor (.within f ty))) (hfirst : first ∈ group)
    (horacle : d.Answers) : ∃ part, d.Checked first part ∧
      if group.length < 2 then part = [] else d.checkLocal released group first = .ok part := by
  obtain ⟨⟨hsite, -⟩, hplace⟩ := (hgroup.mem_iff first).mp hfirst
  obtain ⟨aliases, haliases, hsub, hrep⟩ := exists_sameLock hgroup hfirst horacle
  have hidentity := (Tables.placeOf_eq_within.mp hplace).1
  by_cases hnone : aliases = []
  · -- a site with no alias is left alone, whether or not its group is checked
    refine ⟨[], .here hidentity hrep hrelease (reported_nil hnone), ?_⟩
    split
    · rfl
    · simp [checkLocal, haliases, hnone]
  · obtain ⟨reports, hreports⟩ := exists_check_ok hd .here hsite hrep (fun s hs => hs.site) release
    refine ⟨reports, .here hidentity hrep hrelease (reported_check hnone hreports), ?_⟩
    obtain ⟨s, hs⟩ := List.exists_mem_of_ne_nil aliases hnone
    rw [if_neg (not_short hfirst (hsub hs) ((hrep.mem_iff s).mp hs).other)]
    simp [checkLocal, haliases, hnone, hlookup, hreports]

/-- **A site of an inter-procedural group is checked as it ought to be**: against all other sites with its lock
identity. -/
theorem exists_checkGlobal {l : LockIdentity} (hgroup : Represents group (d.InGroup flavor (.field l)))
    (hfirst : first ∈ group) : ∃ part, d.Checked first part ∧
      if group.length < 2 then part = [] else d.checkGlobal released group first = .ok part := by
  obtain ⟨⟨hsite, -⟩, hplace⟩ := (hgroup.mem_iff first).mp hfirst
  have hrep := represents_others hgroup hfirst
  have hidentity := Tables.placeOf_eq_field.mp hplace
  by_cases hnone : others group first = []
  · -- here the group itself is too short
    refine ⟨[], .everywhere hidentity hrep hrelease (reported_nil hnone), ?_⟩
    rw [if_pos (short_of_others_eq_nil hgroup.insts_nodup hnone)]
  · obtain ⟨reports, hreports⟩ := exists_check_ok hd .everywhere hsite hrep (fun s hs => hs.site) release
    refine ⟨reports, .everywhere hidentity hrep hrelease (reported_check hnone hreports), ?_⟩
    obtain ⟨s, hs⟩ := List.exists_mem_of_ne_nil _ hnone
    rw [if_neg (not_short hfirst (List.mem_of_mem_filter hs) ((hrep.mem_iff s).mp hs).other)]
    simp [checkGlobal, hlookup, hreports]

end Group

/-! ## One flavor -/

section OneFlavor

variable {flavor : Flavor} {sites : List LockSite}
  (hsites : Represents sites fun s => d.program.IsLockSite s ∧ s.kind.flavor = flavor)

include hsites

/-- The sites with one place make a group. -/
theorem represents_filter_place (place : LockPlace) :
    Represents (sites.filter fun s => (d.program.placeOf s).toOption == some place)
      (d.InGroup flavor place) :=
  hsites.filter fun s _ => by rw [beq_iff_eq, toOption_eq_some]

variable (hd : d.Ready) (hends : d.program.ChainsEnd)

include hd hends

theorem exists_places :
    ∃ places, (sites.mapM fun s => do return (← d.program.placeOf s, s)) = .ok places := by
  refine exists_mapM_ok fun s hs => ?_
  obtain ⟨place, hplace⟩ := Tables.exists_placeOf hd.inRange hends ((hsites.mem_iff s).mp hs).1
  exact ⟨_, bind_eq_ok.mpr ⟨place, hplace, rfl⟩⟩

/-- The releases of every site are found by its instruction. -/
theorem exists_releasesOf : ∃ released, releasesOf d.program sites = .ok released ∧
    ∀ first ∈ sites, ∃ release, Guard.releases d.program first.inst first.guard = .ok release ∧
      released.lookup first.inst = some release := by
  have hreleases (s : LockSite) : ∃ release, Guard.releases d.program s.inst s.guard = .ok release := by
    obtain ⟨found, hfound, -⟩ := Guard.exists_releases s.inst hd.inRange hends s.guard
    exact ⟨_, hfound⟩
  obtain ⟨released, hreleased⟩ : ∃ released, releasesOf d.program sites = .ok released := by
    refine exists_mapM_ok fun s _ => ?_
    obtain ⟨release, hrelease⟩ := hreleases s
    exact ⟨_, bind_eq_ok.mpr ⟨release, hrelease, rfl⟩⟩
  -- the sites have different instructions, so none hides the entry of another one
  have hkeys : (released.map Prod.fst).Nodup := by
    rw [List.Nodup, List.pairwise_map]
    refine pairwise_of_mapM hreleased hsites.sorted fun {s s' e e'} he he' hlt heq => ?_
    obtain ⟨_, -, he⟩ := bind_eq_ok.mp he
    obtain ⟨_, -, he'⟩ := bind_eq_ok.mp he'
    cases he
    cases he'
    exact Nat.ne_of_lt hlt (congrArg InstId.index heq)
  refine ⟨released, hreleased, fun first hfirst => ?_⟩
  obtain ⟨release, hrelease⟩ := hreleases first
  have hentry : (first.inst, release) ∈ released :=
    (mem_of_mapM hreleased).mpr ⟨first, hfirst, bind_eq_ok.mpr ⟨release, hrelease, rfl⟩⟩
  exact ⟨release, hrelease, lookup_of_mem hkeys hentry⟩

/-- **Run lemma**: the reports on the sites of a flavor are those on its sites, group by group. -/
theorem collects_detectFlavor (horacle : d.Answers) :
    ∃ ordered, ordered.Perm sites ∧ Collects (d.detectFlavor sites) d.Checked ordered := by
  obtain ⟨places, hplaces⟩ := exists_places hsites hd hends
  obtain ⟨released, hreleased, hfound⟩ := exists_releasesOf hsites hd hends
  -- every group consists of sites of the flavor, so its releases were computed
  have hsite {place : LockPlace} {group : List LockSite} (hgroup : Represents group (d.InGroup flavor place))
      {first : LockSite} (hfirst : first ∈ group) : first ∈ sites :=
    (hsites.mem_iff first).mpr ((hgroup.mem_iff first).mp hfirst).1
  have hhere : ∀ g ∈ (LockGroups.ofPlaces places).intra,
      Collects (checkGroup (d.checkLocal released) g.2) d.Checked g.2 := by
    rintro ⟨⟨f, ty⟩, group⟩ hg
    have hgroup := represents_filter_place hsites (.within f ty)
    rw [← LockGroups.eq_of_mem_intra hplaces hg] at hgroup
    refine collects_checkGroup fun first hfirst => ?_
    obtain ⟨release, hrelease, hlookup⟩ := hfound first (hsite hgroup hfirst)
    exact exists_checkLocal hd hrelease hlookup hgroup hfirst horacle
  have heverywhere : ∀ g ∈ (LockGroups.ofPlaces places).inter,
      Collects (checkGroup (d.checkGlobal released) g.2) d.Checked g.2 := by
    rintro ⟨l, group⟩ hg
    have hgroup := represents_filter_place hsites (.field l)
    rw [← LockGroups.eq_of_mem_inter hplaces hg] at hgroup
    refine collects_checkGroup fun first hfirst => ?_
    obtain ⟨release, hrelease, hlookup⟩ := hfound first (hsite hgroup hfirst)
    exact exists_checkGlobal hd hrelease hlookup hgroup hfirst
  refine ⟨_, LockGroups.flatMap_perm hplaces, ?_⟩
  have hgroups : LockGroups.ofSites d.program.toTables sites = .ok (.ofPlaces places) :=
    bind_eq_ok.mpr ⟨places, hplaces, rfl⟩
  have hcollects := (Collects.flatMapM hhere).append (Collects.flatMapM heverywhere)
  unfold detectFlavor
  rw [hgroups, ok_bind, hreleased, ok_bind]
  simpa only [bind_assoc, pure_bind] using hcollects

end OneFlavor

/-! ## The whole program -/

/-- A lock call that cannot be parsed can be reported. -/
theorem exists_reportUnparsed (hd : d.Ready) {u : UnparsedSite} (hu : u.inst.index < d.program.insts.size) :
    ∃ r, d.reportUnparsed u = .ok r := by
  obtain ⟨place, hplace⟩ := hd.inRange.exists_describe hu
  exact ⟨_, bind_eq_ok.mpr ⟨place, hplace, rfl⟩⟩

/-- The sites of one flavor, as they were collected. -/
theorem represents_ofFlavor (hd : d.Ready) {flavors : FlavorSet} {found : LockSites}
    (hfound : d.program.lockSites flavors = .ok found) {f : Flavor} (hf : flavors.contains f = true) :
    Represents (found.ofFlavor f) fun s => d.program.IsLockSite s ∧ s.kind.flavor = f := by
  obtain ⟨hnodup, hmem⟩ := Tables.of_lockSites hd.inRange hd.arranged hfound
  refine ⟨LockSites.ofFlavor_pairwise hnodup, fun s => ?_⟩
  rw [LockSites.mem_ofFlavor, hmem]
  constructor
  · rintro ⟨⟨hs, -⟩, rfl⟩
    exact ⟨hs, rfl⟩
  · rintro ⟨hs, rfl⟩
    exact ⟨⟨hs, hf⟩, rfl⟩

/-- The locks of a flavor can be reported on if all chains end. -/
theorem exists_detectFlavor (hd : d.Ready) (hends : d.program.ChainsEnd) (horacle : d.Answers)
    {flavors : FlavorSet} {found : LockSites} (hfound : d.program.lockSites flavors = .ok found) {f : Flavor}
    (hf : flavors.contains f = true) : ∃ reports, d.detectFlavor (found.ofFlavor f) = .ok reports ∧
      ∀ r ∈ reports, r.bugKind = "DoubleLock" := by
  obtain ⟨ordered, -, parts, hparts, hchecked⟩ :=
    collects_detectFlavor (represents_ofFlavor hd hfound hf) hd hends horacle
  refine ⟨parts.flatten, hparts, fun r hr => ?_⟩
  exact beq_iff_eq.mp (List.filter_eq_self.mp (filter_checked hchecked) r hr)

/-- The reports on locks that are acquired again are those on the sites of all flavors. -/
theorem exists_detect (hd : d.Ready) (hends : d.program.ChainsEnd) (horacle : d.Answers) :
    ∃ sites parts reports, d.detect = .ok (sites.length, reports) ∧ sites.Nodup ∧
      (∀ s, s ∈ sites ↔ d.program.IsLockSite s ∧ d.policy.isEnabled s.kind.flavor = true) ∧
        List.Forall₂ d.Checked sites parts ∧
          reports.filter (fun r => r.bugKind == "DoubleLock") = parts.flatten := by
  obtain ⟨found, hfound, hnodup, hunparsed, hmem⟩ :=
    Tables.exists_lockSites hd.inRange hd.arranged d.policy.flavors
  have hflavor : ∀ f ∈ Flavor.all.filter d.policy.isEnabled, ∃ ordered,
      ordered.Perm (found.ofFlavor f) ∧ Collects (d.detectFlavor (found.ofFlavor f)) d.Checked ordered := by
    intro f hf
    have hsites := represents_ofFlavor hd hfound (List.mem_filter.mp hf).2
    exact collects_detectFlavor hsites hd hends horacle
  -- the order in which the groups of each flavor list its sites
  choose! ordered hordered hcollects using hflavor
  obtain ⟨parts, hparts, hall⟩ := Collects.flatMapM hcollects
  obtain ⟨perFlavor, hper, hparts⟩ := bind_eq_ok.mp hparts
  obtain ⟨unparsed, hreported⟩ := exists_mapM_ok fun u hu => exists_reportUnparsed hd (hunparsed u hu)
  -- every site that was collected has a flavor that is enabled
  have henabled : ∀ s ∈ found.locks, s.kind.flavor ∈ Flavor.all.filter d.policy.isEnabled := by
    intro s hs
    exact List.mem_filter.mpr ⟨s.kind.flavor.mem_all, ((hmem s).mp hs).2⟩
  -- all flavors together have all sites, each once
  have hperm : ((Flavor.all.filter d.policy.isEnabled).flatMap ordered).Perm found.locks :=
    (List.Perm.flatMap_left _ hordered).trans
      (LockSites.flatMap_ofFlavor_perm (Flavor.all_nodup.filter _) henabled)
  refine ⟨_, parts, unparsed ++ parts.flatten, ?_, hperm.nodup_iff.mpr hnodup.of_map, fun s => ?_, hall, ?_⟩
  · rw [hperm.length_eq]
    simp [detect, hfound, hreported, hper, pure_eq_ok.mp hparts]
  · rw [hperm.mem_iff, hmem]
    rfl
  · -- calls that cannot be parsed are reported too, but not as locks acquired again
    rw [List.filter_append, filter_checked hall, List.filter_eq_nil_iff.mpr, List.nil_append]
    intro r hr
    obtain ⟨u, -, hu⟩ := (mem_of_mapM hreported).mp hr
    obtain ⟨place, -, hu⟩ := bind_eq_ok.mp hu
    cases hu
    simp [Report.bugKind]

/-- **Detection is pairwise.** The lock sites of a program, each checked against the sites that may acquire its
lock, give all reports on double locks. Groups, which the detector goes by, do not occur in what it returns. -/
theorem detect_eq_pairwise {text : String} {p : Program} (hload : Program.load text = .ok p)
    (hends : p.ChainsEnd) {oracle : Oracle}
    (horacle : oracle = p.aliasing ∨ ∀ a b, ∃ r, oracle a b = .ok r) (policy : Policy) :
    ∃ d sites parts reports, ofProgram p oracle policy = .ok d ∧
      d.detect = .ok (sites.length, reports) ∧ sites.Nodup ∧
        (∀ s, s ∈ sites ↔ p.IsLockSite s ∧ policy.isEnabled s.kind.flavor = true) ∧
          List.Forall₂ d.Checked sites parts ∧
            reports.filter (fun r => r.bugKind == "DoubleLock") = parts.flatten := by
  obtain ⟨d, hd, hready, rfl, rfl, rfl⟩ := exists_ready hload oracle policy
  -- the structural oracle has an answer for all values whose chains end
  have hanswers : d.Answers := by
    intro a b ha hb
    rcases horacle with heq | hanswers
    · rw [heq]
      exact Tables.exists_aliasing hready.inRange hends (ha.target_within hready.inRange)
        (hb.target_within hready.inRange)
    · exact hanswers a.target b.target
  obtain ⟨sites, parts, reports, h⟩ := exists_detect hready hends hanswers
  exact ⟨d, sites, parts, reports, hd, h⟩

/-! ### A lock that is acquired twice in a row -/

/-- A lock that is an argument is acquired twice, then one that is known by its record type. -/
def lockedTwice : String :=
  "[[[\"M\",[\"i64\"]]],[],[[\"f\",[\"*M\"],\"void\",[[\"s\",[
    \x7b\"op\":\"call\",\"callee\":\"lock_api::mutex::Mutex<T>::lock\",\"args\":[\"%0\"]\x7d,
    \x7b\"op\":\"call\",\"callee\":\"lock_api::mutex::Mutex<T>::lock\",\"args\":[\"%0\"]\x7d,
    \x7b\"op\":\"cast\",\"id\":\"x\",\"value\":\"%0\",\"ty\":\"*i64\"\x7d,
    \x7b\"op\":\"call\",\"callee\":\"lock_api::mutex::Mutex<T>::lock\",\"args\":[\"x\"]\x7d]]]]]]"

/-- The tables of `lockedTwice`. -/
def twiceTables : Tables where
  types := #[.void, .int 64, .record "M" [⟨1⟩], .pointer ⟨2⟩, .pointer ⟨1⟩]
  globals := #[]
  functions := #[⟨"f", [⟨3⟩], ⟨0⟩, [⟨0⟩]⟩, ⟨"lock_api::mutex::Mutex<T>::lock", [], ⟨0⟩, []⟩]
  blocks := #[⟨"s", ⟨0⟩, [⟨0⟩, ⟨1⟩, ⟨2⟩, ⟨3⟩]⟩]
  insts := #[⟨.call (.direct ⟨1⟩) [.arg ⟨0⟩ 0], ⟨0⟩, ⟨0⟩, none⟩,
    ⟨.call (.direct ⟨1⟩) [.arg ⟨0⟩ 0], ⟨0⟩, ⟨0⟩, none⟩, ⟨.cast (.arg ⟨0⟩ 0), ⟨4⟩, ⟨0⟩, none⟩,
    ⟨.call (.direct ⟨1⟩) [.inst ⟨2⟩], ⟨0⟩, ⟨0⟩, none⟩]

/-- The lock that is acquired by the first two instructions of `lockedTwice`. -/
def argumentAt (i : InstId) : LockSite := ⟨i, .arg ⟨0⟩ 0, .inst i, .lockApiMutexLock⟩

/-- The first two calls are lock sites. -/
theorem isLockSite_lockedTwice {i : InstId} (hi : i = ⟨0⟩ ∨ i = ⟨1⟩) :
    twiceTables.IsLockSite (argumentAt i) := by
  have hsymbol : LockKind.ofSymbol "lock_api::mutex::Mutex<T>::lock" = some .lockApiMutexLock := by
    decide +kernel
  rcases hi with rfl | rfl
  · exact ⟨⟨⟨0⟩, _, by decide, rfl, by decide⟩, ⟨_, rfl, hsymbol⟩, rfl⟩
  · exact ⟨⟨⟨0⟩, _, by decide, rfl, by decide⟩, ⟨_, rfl, hsymbol⟩, rfl⟩

set_option maxRecDepth 4000 in
/-- The first site of `lockedTwice` is checked against the second one. -/
theorem detect_lockedTwice : ∃ p d sites parts reports, Program.load lockedTwice = .ok p ∧ p.ChainsEnd ∧
    ofProgram p p.aliasing .default = .ok d ∧ d.detect = .ok (sites.length, reports) ∧
      List.Forall₂ d.Checked sites parts ∧
        reports.filter (fun r => r.bugKind == "DoubleLock") = parts.flatten ∧
          argumentAt ⟨0⟩ ∈ sites ∧ argumentAt ⟨1⟩ ∈ sites ∧
            d.LocalAlias (argumentAt ⟨0⟩) (argumentAt ⟨1⟩) := by
  obtain ⟨p, hload, hp⟩ : ∃ p, Program.load lockedTwice = .ok p ∧ p.toTables = twiceTables :=
    Program.exists_load_of_chars rfl (by decide +kernel)
  have hends : p.ChainsEnd := by
    rw [Tables.chainsEnd_iff (Program.inRange_of_load hload), hp]
    decide +kernel
  obtain ⟨d, sites, parts, reports, hd, hdetect, -, hmem, hchecked, hreports⟩ :=
    detect_eq_pairwise hload hends (.inl rfl) .default
  have hsite {i : InstId} (hi : i = ⟨0⟩ ∨ i = ⟨1⟩) : p.IsLockSite (argumentAt i) := by
    rw [hp]
    exact isLockSite_lockedTwice hi
  refine ⟨p, d, sites, parts, reports, hload, hends, hd, hdetect, hchecked, hreports,
    (hmem _).mpr ⟨hsite (.inl rfl), rfl⟩, (hmem _).mpr ⟨hsite (.inr rfl), rfl⟩, ?_⟩
  obtain ⟨graph, -, h⟩ := bind_eq_ok.mp hd
  cases h
  refine ⟨hsite (.inr rfl), by decide, rfl, rfl, ⟨⟨0⟩, ?_, ?_⟩, ⟨⟨3⟩, ?_, ?_⟩, rfl⟩
  all_goals
    rw [hp]
    rfl

end Detector

end Relock
