import Relock.Proofs.Detector.Safety

/-!
# Locks that are checked against each other

Two lock sites of one function may have targets that are certainly the same place. They are checked against
each other only if their locks are known alike: by the same field, or both by their type alone and then by the
same one. How an address is spelled decides that. A field of a field that is reached by one path is known by
the outer record, and one that is reached step by step by the inner record.

* `Tables.KnownAlike`: the same is known about two locks;
* `Detector.ChecksAgainst`: a site is among those that another one is checked against;
* `Detector.checksAgainst_iff`: which sites of one flavor are;
* `Detector.checked_both_ways_iff`: the same for every program that was loaded.
-/

namespace Relock

/-- The same is known about two locks: the field, or no field and the type. -/
inductive Tables.KnownAlike (t : Tables) (v w : Value) : Prop where
  | field {l : LockIdentity} (hv : t.identityOf v = .ok (some l)) (hw : t.identityOf w = .ok (some l)) :
      KnownAlike t v w
  | type {ty : TypeId} (hv : t.identityOf v = .ok none) (hw : t.identityOf w = .ok none)
      (htv : t.valueType v = .ok ty) (htw : t.valueType w = .ok ty) : KnownAlike t v w

/-- Neither of the two comes first. -/
theorem Tables.KnownAlike.symm {t : Tables} {v w : Value} (h : t.KnownAlike v w) : t.KnownAlike w v := by
  cases h with
  | field hv hw => exact .field hw hv
  | type hv hw htv htw => exact .type hw hv htw htv

/-- In one function, locks that are known alike have the same place. -/
theorem Tables.knownAlike_iff {t : Tables} {a b : LockSite} {f : FunctionId}
    (ha : t.functionOf a.inst = .ok f) (hb : t.functionOf b.inst = .ok f) :
    t.KnownAlike a.target b.target ↔ ∃ place, t.placeOf a = .ok place ∧ t.placeOf b = .ok place := by
  constructor
  · intro h
    cases h with
    | @field l hv hw => exact ⟨.field l, placeOf_eq_field.mpr hv, placeOf_eq_field.mpr hw⟩
    | @type ty hv hw htv htw =>
      exact ⟨.within f ty, placeOf_eq_within.mpr ⟨hv, ha, htv⟩, placeOf_eq_within.mpr ⟨hw, hb, htw⟩⟩
  · -- a place is known by the field or by the function and the type
    rintro ⟨place, hpa, hpb⟩
    cases place with
    | field l => exact .field (placeOf_eq_field.mp hpa) (placeOf_eq_field.mp hpb)
    | within g ty =>
      obtain ⟨hv, -, htv⟩ := placeOf_eq_within.mp hpa
      obtain ⟨hw, -, htw⟩ := placeOf_eq_within.mp hpb
      exact .type hv hw htv htw

namespace Detector

/-- In a check of sites, `second` is among those that `first` is checked against. -/
inductive ChecksAgainst (d : Detector) (sites : List LockSite) (first second : LockSite) : Prop where
  | here {groups : LockGroups} {key : FunctionId × TypeId} {group aliases : List LockSite}
      (hgroups : LockGroups.ofSites d.program.toTables sites = .ok groups) (hgroup : (key, group) ∈ groups.intra)
      (hlong : ¬ group.length < 2) (hfirst : first ∈ group) (haliases : d.sameLock group first = .ok aliases)
      (hsecond : second ∈ aliases) : ChecksAgainst d sites first second
  | everywhere {groups : LockGroups} {key : LockIdentity} {group : List LockSite}
      (hgroups : LockGroups.ofSites d.program.toTables sites = .ok groups) (hgroup : (key, group) ∈ groups.inter)
      (hlong : ¬ group.length < 2) (hfirst : first ∈ group) (hsecond : second ∈ others group first) :
      ChecksAgainst d sites first second

variable {d : Detector} {sites : List LockSite} {first second : LockSite}

/-- Only sites of one group are checked against each other, and a group has one place. -/
theorem ChecksAgainst.same_place (h : d.ChecksAgainst sites first second) :
    ∃ place, d.program.placeOf first = .ok place ∧ d.program.placeOf second = .ok place := by
  -- both are in one group, and a group has one place
  have hplaceOf {s : LockSite} {place : LockPlace}
      (hs : s ∈ sites.filter fun s => (d.program.placeOf s).toOption == some place) :
      d.program.placeOf s = .ok place := by
    obtain ⟨-, hs⟩ := List.mem_filter.mp hs
    exact toOption_eq_some.mp (beq_iff_eq.mp hs)
  cases h with
  | @here _ key group _ hgroups hgroup _ hfirst haliases hsecond =>
    obtain ⟨places, hplaces, h⟩ := bind_eq_ok.mp hgroups
    cases h
    -- the alias set is a part of the group
    have hsecond := (mem_of_filterM haliases).mp hsecond
    rw [LockGroups.eq_of_mem_intra hplaces hgroup] at hfirst hsecond
    exact ⟨_, hplaceOf hfirst, hplaceOf hsecond.1⟩
  | @everywhere _ key group hgroups hgroup _ hfirst hsecond =>
    obtain ⟨places, hplaces, h⟩ := bind_eq_ok.mp hgroups
    cases h
    have hsecond := List.mem_of_mem_filter hsecond
    rw [LockGroups.eq_of_mem_inter hplaces hgroup] at hfirst hsecond
    exact ⟨_, hplaceOf hfirst, hplaceOf hsecond⟩

/-- Where a group was checked, the locks of its sites were compared. -/
theorem exists_sameLock_of_detectFlavor {reports : List Report} (h : d.detectFlavor sites = .ok reports) :
    ∃ groups, LockGroups.ofSites d.program.toTables sites = .ok groups ∧
      ∀ g ∈ groups.intra, ¬ g.2.length < 2 → ∀ first ∈ g.2, ∃ aliases, d.sameLock g.2 first = .ok aliases := by
  obtain ⟨groups, hgroups, h⟩ := bind_eq_ok.mp h
  obtain ⟨released, -, h⟩ := bind_eq_ok.mp h
  obtain ⟨here, hhere, -⟩ := bind_eq_ok.mp h
  refine ⟨groups, hgroups, fun g hg hlong first hfirst => ?_⟩
  obtain ⟨part, hpart⟩ := succeeds_mapM.mp ⟨here, hhere⟩ g hg
  -- a group of two or more is checked site by site
  unfold checkGroup at hpart
  rw [if_neg hlong] at hpart
  obtain ⟨parts, hparts, -⟩ := bind_eq_ok.mp hpart
  obtain ⟨one, hone⟩ := succeeds_mapM.mp ⟨parts, hparts⟩ first hfirst
  obtain ⟨aliases, haliases, -⟩ := bind_eq_ok.mp hone
  exact ⟨aliases, haliases⟩

/-- Two sites whose locks are certainly the same are checked against each other if their locks have the same
place. -/
theorem checksAgainst_iff {reports : List Report} (hdetect : d.detectFlavor sites = .ok reports)
    (hfirst : first ∈ sites) (hsecond : second ∈ sites) (hne : second.inst ≠ first.inst)
    (hmust : d.oracle first.target second.target = .ok .must) :
    d.ChecksAgainst sites first second ↔
      ∃ place, d.program.placeOf first = .ok place ∧ d.program.placeOf second = .ok place := by
  refine ⟨ChecksAgainst.same_place, fun ⟨place, hpf, hps⟩ => ?_⟩
  obtain ⟨groups, hgroups, hsame⟩ := exists_sameLock_of_detectFlavor hdetect
  obtain ⟨places, hplaces, h⟩ := bind_eq_ok.mp hgroups
  cases h
  -- a site with this place is in the group of the place
  have hgroup {s : LockSite} (hs : s ∈ sites) (hplace : d.program.placeOf s = .ok place) :
      s ∈ sites.filter fun s => (d.program.placeOf s).toOption == some place :=
    List.mem_filter.mpr ⟨hs, beq_iff_eq.mpr (toOption_eq_some.mpr hplace)⟩
  have hf := hgroup hfirst hpf
  have hs := hgroup hsecond hps
  -- two sites make a group that is long enough to be checked
  have hlong := not_short hf hs hne
  cases place with
  | field l =>
    -- locks of one field are checked against all others of it, whatever the oracle says
    exact .everywhere hgroups (LockGroups.mem_inter_of_placeOf hplaces hfirst hpf) hlong hf
      (List.mem_filter.mpr ⟨hs, bne_iff_ne.mpr hne⟩)
  | within f ty =>
    -- here the oracle decides, and it is certain
    have hintra := LockGroups.mem_intra_of_placeOf hplaces hfirst hpf
    obtain ⟨aliases, haliases⟩ := hsame _ hintra hlong first hf
    refine .here hgroups hintra hlong hf haliases ((mem_of_filterM haliases).mpr ⟨hs, ?_⟩)
    rw [if_neg (by simpa using hne), Oracle.must, hmust]
    rfl

/-- Two lock sites of one flavor and one function, with targets that are certainly the same place, are checked
against each other exactly if their locks are known alike. -/
theorem checked_both_ways_iff {text : String} {p : Program} (hload : Program.load text = .ok p)
    (policy : Policy) {found : LockSites} (hfound : p.lockSites policy.flavors = .ok found) {flavor : Flavor}
    {first second : LockSite} (hfirst : first ∈ found.ofFlavor flavor) (hsecond : second ∈ found.ofFlavor flavor)
    (hne : first.inst ≠ second.inst) {f : FunctionId} (hf : p.functionOf first.inst = .ok f)
    (hs : p.functionOf second.inst = .ok f) (hmust : p.aliasing first.target second.target = .ok .must) :
    ∃ d, ofProgram p p.aliasing policy = .ok d ∧
      (∀ reports, d.detectFlavor (found.ofFlavor flavor) = .ok reports →
        (d.ChecksAgainst (found.ofFlavor flavor) first second ↔ p.KnownAlike first.target second.target) ∧
          (d.ChecksAgainst (found.ofFlavor flavor) second first ↔
            p.KnownAlike first.target second.target)) ∧
        (p.ChainsEnd → ∃ reports, d.detectFlavor (found.ofFlavor flavor) = .ok reports) := by
  obtain ⟨d, hd, hready, rfl, horacle, rfl⟩ := exists_ready hload p.aliasing policy
  refine ⟨d, hd, fun reports hreports => ⟨?_, ?_⟩, fun hends => ?_⟩
  · rw [Tables.knownAlike_iff hf hs]
    exact checksAgainst_iff hreports hfirst hsecond hne.symm (horacle ▸ hmust)
  · -- certainty goes both ways
    rw [show d.program.KnownAlike first.target second.target ↔ d.program.KnownAlike second.target first.target
      from ⟨.symm, .symm⟩, Tables.knownAlike_iff hs hf]
    exact checksAgainst_iff hreports hsecond hfirst hne (horacle ▸ Tables.aliasing_must_symm hmust)
  · -- a flavor with a site is analysed
    obtain ⟨hmem, rfl⟩ := LockSites.mem_ofFlavor.mp hfirst
    have hflavor := (((Tables.of_lockSites hready.inRange hready.arranged hfound).2 first).mp hmem).2
    obtain ⟨reports, hreports, -⟩ := exists_detectFlavor hready hends
      ((hready.compares (.inl horacle)).answers hends) hfound hflavor
    exact ⟨reports, hreports⟩

/-- The lock sites of `lockedTwice`. -/
def twiceSites : LockSites where
  locks := [argumentAt ⟨0⟩, argumentAt ⟨1⟩, ⟨⟨3⟩, .inst ⟨2⟩, .inst ⟨3⟩, .lockApiMutexLock⟩]
  unparsed := []

set_option maxRecDepth 4000 in
/-- An argument that is locked twice is the same value, so that the same is known about it. -/
theorem checked_both_ways_lockedTwice : ∃ p d, Program.load lockedTwice = .ok p ∧
    ofProgram p p.aliasing .default = .ok d ∧ p.lockSites .all = .ok twiceSites ∧
      d.ChecksAgainst (twiceSites.ofFlavor .lockApi) (argumentAt ⟨0⟩) (argumentAt ⟨1⟩) ∧
        d.ChecksAgainst (twiceSites.ofFlavor .lockApi) (argumentAt ⟨1⟩) (argumentAt ⟨0⟩) := by
  obtain ⟨p, hload, hp⟩ : ∃ p, Program.load lockedTwice = .ok p ∧ p.toTables = twiceTables :=
    Program.exists_load_of_chars rfl (by decide +kernel)
  have hsites : p.lockSites .all = .ok twiceSites := by
    rw [hp]
    exact toOption_eq_some.mp (by decide +kernel)
  have hmem : argumentAt ⟨0⟩ ∈ twiceSites.ofFlavor .lockApi ∧ argumentAt ⟨1⟩ ∈ twiceSites.ofFlavor .lockApi := by
    decide
  have hfunction : p.functionOf ⟨0⟩ = .ok ⟨0⟩ ∧ p.functionOf ⟨1⟩ = .ok ⟨0⟩ := by
    rw [hp]
    exact ⟨rfl, rfl⟩
  -- an argument is no field, so its type is all that is known
  have halike : p.KnownAlike (.arg ⟨0⟩ 0) (.arg ⟨0⟩ 0) := by
    rw [hp]
    exact @Tables.KnownAlike.type _ _ _ ⟨3⟩ rfl rfl rfl rfl
  have hends : p.ChainsEnd := by
    rw [Tables.chainsEnd_iff (Program.inRange_of_load hload), hp]
    decide +kernel
  obtain ⟨d, hd, hiff, hdetect⟩ := checked_both_ways_iff hload .default hsites hmem.1 hmem.2 (by decide)
    hfunction.1 hfunction.2 rfl
  obtain ⟨reports, hreports⟩ := hdetect hends
  obtain ⟨hforth, hback⟩ := hiff reports hreports
  exact ⟨p, d, hload, hd, hsites, hforth.mpr halike, hback.mpr halike⟩

/-! ### One lock with two spellings -/

/-- The lock of an inner record is acquired twice, by one path from the outer record and step by step. -/
def spelledTwice : String :=
  "[[[\"Mutex\",[]],[\"Inner\",[\"Mutex\",\"Mutex\"]],[\"Outer\",[\"Inner\",\"Inner\"]]],[],
    [[\"f\",[\"*Outer\"],\"void\",[[\"s\",[
      \x7b\"op\":\"field\",\"id\":\"flat\",\"base\":\"%0\",\"indices\":[0,1,0],\"ty\":\"*Mutex\"\x7d,
      \x7b\"op\":\"field\",\"id\":\"step\",\"base\":\"%0\",\"indices\":[0,1],\"ty\":\"*Inner\"\x7d,
      \x7b\"op\":\"field\",\"id\":\"nested\",\"base\":\"step\",\"indices\":[0,0],\"ty\":\"*Mutex\"\x7d,
      \x7b\"op\":\"call\",\"callee\":\"lock_api::mutex::Mutex<T>::lock\",\"args\":[\"flat\"]\x7d,
      \x7b\"op\":\"call\",\"callee\":\"lock_api::mutex::Mutex<T>::lock\",\"args\":[\"nested\"]\x7d]]]]]]"

/-- The tables of `spelledTwice`. -/
def spelledTables : Tables where
  types := #[.void, .int 64, .record "Mutex" [], .record "Inner" [⟨2⟩, ⟨2⟩], .record "Outer" [⟨3⟩, ⟨3⟩],
    .pointer ⟨4⟩, .pointer ⟨2⟩, .pointer ⟨3⟩]
  globals := #[]
  functions := #[⟨"f", [⟨5⟩], ⟨0⟩, [⟨0⟩]⟩, ⟨"lock_api::mutex::Mutex<T>::lock", [], ⟨0⟩, []⟩]
  blocks := #[⟨"s", ⟨0⟩, [⟨0⟩, ⟨1⟩, ⟨2⟩, ⟨3⟩, ⟨4⟩]⟩]
  insts := #[⟨.fieldAddr (.arg ⟨0⟩ 0) [0, 1, 0], ⟨6⟩, ⟨0⟩, none⟩,
    ⟨.fieldAddr (.arg ⟨0⟩ 0) [0, 1], ⟨7⟩, ⟨0⟩, none⟩, ⟨.fieldAddr (.inst ⟨1⟩) [0, 0], ⟨6⟩, ⟨0⟩, none⟩,
    ⟨.call (.direct ⟨1⟩) [.inst ⟨0⟩], ⟨0⟩, ⟨0⟩, none⟩, ⟨.call (.direct ⟨1⟩) [.inst ⟨2⟩], ⟨0⟩, ⟨0⟩, none⟩]

/-- The lock of `spelledTwice` by one path. -/
def flatSite : LockSite := ⟨⟨3⟩, .inst ⟨0⟩, .inst ⟨3⟩, .lockApiMutexLock⟩

/-- The lock of `spelledTwice` step by step. -/
def nestedSite : LockSite := ⟨⟨4⟩, .inst ⟨2⟩, .inst ⟨4⟩, .lockApiMutexLock⟩

set_option maxRecDepth 4000 in
/-- The two spellings are certainly the same place, and yet the two sites are not checked against each
other. -/
theorem spelledTwice_not_checked : ∃ p d found, Program.load spelledTwice = .ok p ∧
    ofProgram p p.aliasing .default = .ok d ∧ p.lockSites .all = .ok found ∧
      (flatSite ∈ found.ofFlavor .lockApi ∧ nestedSite ∈ found.ofFlavor .lockApi) ∧
        (p.functionOf flatSite.inst = .ok ⟨0⟩ ∧ p.functionOf nestedSite.inst = .ok ⟨0⟩) ∧
          p.aliasing flatSite.target nestedSite.target = .ok .must ∧
            ¬ d.ChecksAgainst (found.ofFlavor .lockApi) flatSite nestedSite ∧
              ¬ d.ChecksAgainst (found.ofFlavor .lockApi) nestedSite flatSite := by
  obtain ⟨p, hload, hp⟩ : ∃ p, Program.load spelledTwice = .ok p ∧ p.toTables = spelledTables :=
    Program.exists_load_of_chars rfl (by decide +kernel)
  obtain ⟨d, hd, -, rfl, -, -⟩ := exists_ready hload p.aliasing .default
  have hsites : spelledTables.lockSites .all = .ok ⟨[flatSite, nestedSite], []⟩ :=
    toOption_eq_some.mp (by decide +kernel)
  -- one lock is known by the outer record, the other one by the inner record
  have hflat : spelledTables.placeOf flatSite = .ok (.field ⟨⟨4⟩, [0, 1, 0]⟩) := rfl
  have hnested : spelledTables.placeOf nestedSite = .ok (.field ⟨⟨3⟩, [0, 0]⟩) := rfl
  have hapart : ∀ place, d.program.placeOf flatSite = .ok place → d.program.placeOf nestedSite ≠ .ok place := by
    rw [hp, hflat, hnested]
    intro place hplace
    rw [← hplace]
    simp
  refine ⟨d.program, d, _, hload, hd, by rw [hp, hsites], by decide, ?_, ?_, fun h => ?_, fun h => ?_⟩
  · rw [hp]
    exact ⟨rfl, rfl⟩
  · rw [hp]
    rfl
  · obtain ⟨place, hfirst, hsecond⟩ := h.same_place
    exact hapart place hfirst hsecond
  · obtain ⟨place, hfirst, hsecond⟩ := h.same_place
    exact hapart place hsecond hfirst

end Detector

end Relock
