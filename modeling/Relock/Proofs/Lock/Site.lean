import Mathlib.Data.List.Perm.Basic
import Relock.Lock.Site
import Relock.Proofs.CallGraph

/-!
# All lock sites of a program

The lock sites that are collected from the bodies of a program are exactly the calls of lock operations
that can be parsed. Each is collected once, and sorting them by flavor and instruction keeps them all.

* `Tables.IsLockSite`: what a lock site is;
* `Tables.exists_lockSites`: the lock sites of a program;
* `LockSites.mem_ofFlavor`, `LockSites.ofFlavor_pairwise`: the lock sites of one flavor;
* `LockSites.flatMap_ofFlavor_perm`: all flavors together.
-/

namespace Relock

/-- An instruction of a body that calls a lock operation by its name and can be parsed. -/
structure Tables.IsLockSite (t : Tables) (s : LockSite) : Prop where
  body : ∃ f is, f ∈ t.bodies ∧ t.instsOf f = .ok is ∧ s.inst ∈ is
  operation : ∃ name, t.calledName s.inst = .ok (some name) ∧ LockKind.ofSymbol name = some s.kind
  parsed : t.parseSite s.inst s.kind = .ok (.ok s)

namespace Tables

variable {t : Tables}

/-! ## One call -/

/-- The lock is an argument of the call. -/
theorem target_mem_of_locate {layout : Layout} {isVoid : Bool} {call first target guard : Value}
    {rest : List Value} (h : layout.locate isVoid call first rest = .ok (target, guard)) :
    target ∈ first :: rest := by
  -- every layout takes the lock from an argument, wherever the guard goes
  unfold Layout.locate at h
  repeat' split at h
  all_goals cases h <;> simp

/-- A site that was parsed is about its call, and its lock is one of the arguments. -/
theorem of_parseSite {i : InstId} {k : LockKind} {s : LockSite} (h : t.parseSite i k = .ok (.ok s)) :
    s.inst = i ∧ s.kind = k ∧ ∃ x, t.inst i = .ok x ∧ s.target ∈ x.kind.args?.getD [] := by
  obtain ⟨x, hx, h⟩ := bind_eq_ok.mp h
  split at h
  · cases h
  · -- a call without arguments is not parsed
    next first rest hargs =>
    obtain ⟨isVoid, -, h⟩ := bind_eq_ok.mp h
    split at h
    · next target guard hlocate =>
      cases h
      exact ⟨rfl, rfl, x, hx, by rw [hargs]; exact target_mem_of_locate hlocate⟩
    · cases h

/-- Lock sites are instructions of the program. -/
theorem IsLockSite.lt {s : LockSite} (hs : t.IsLockSite s) : s.inst.index < t.insts.size := by
  obtain ⟨-, -, x, hx, -⟩ := of_parseSite hs.parsed
  exact lt_of_inst hx

/-- An instruction is a lock operation if it calls one by name, of a flavor that is asked for. -/
theorem lockKindAt_eq_some {flavors : FlavorSet} {i : InstId} {k : LockKind} :
    t.lockKindAt flavors i = .ok (some k) ↔ (∃ name, t.calledName i = .ok (some name) ∧
      LockKind.ofSymbol name = some k) ∧ flavors.contains k.flavor = true := by
  unfold lockKindAt
  constructor
  · intro h
    obtain ⟨called, hcalled, h⟩ := bind_eq_ok.mp h
    cases called with
    | none => cases h
    | some name =>
      obtain ⟨hk, hflavor⟩ := Option.filter_eq_some_iff.mp (pure_eq_ok.mp h)
      exact ⟨⟨name, hcalled, hk⟩, hflavor⟩
  · rintro ⟨⟨name, hname, hk⟩, hflavor⟩
    simp [hname, hk, hflavor]

/-- The instructions of all bodies, each listed once. -/
theorem exists_bodyInsts (harranged : t.Arranged) : ∃ iss, t.bodies.mapM t.instsOf = .ok iss ∧ iss.flatten.Nodup ∧
    (∀ i ∈ iss.flatten, i.index < t.insts.size) ∧
      ∀ i, i ∈ iss.flatten ↔ ∃ f is, f ∈ t.bodies ∧ t.instsOf f = .ok is ∧ i ∈ is := by
  obtain ⟨iss, hiss⟩ : ∃ iss, t.bodies.mapM t.instsOf = .ok iss := by
    refine exists_mapM_ok fun f hf => ?_
    obtain ⟨g, hg⟩ := exists_function_of_mem_bodies hf
    exact (harranged.exists_instsOf hg).imp fun _ => And.left
  -- body by body
  have hmem (i : InstId) : i ∈ iss.flatten ↔ ∃ f is, f ∈ t.bodies ∧ t.instsOf f = .ok is ∧ i ∈ is := by
    rw [List.mem_flatten]
    constructor
    · rintro ⟨is, his, hi⟩
      obtain ⟨f, hf, his⟩ := (mem_of_mapM hiss).mp his
      exact ⟨f, is, hf, his, hi⟩
    · rintro ⟨f, is, hf, his, hi⟩
      exact ⟨is, (mem_of_mapM hiss).mpr ⟨f, hf, his⟩, hi⟩
  refine ⟨iss, hiss, List.nodup_flatten.mpr ⟨?_, ?_⟩, ?_, hmem⟩
  · intro is his
    obtain ⟨f, -, his⟩ := (mem_of_mapM hiss).mp his
    exact (harranged.of_instsOf his).1
  · -- an instruction belongs to one function
    refine pairwise_of_mapM hiss t.bodies_nodup fun {f g is js} his hjs hfg i hi hj => hfg ?_
    have hf := ((harranged.of_instsOf his).2 i).mp hi
    have hg := ((harranged.of_instsOf hjs).2 i).mp hj
    exact Except.ok.inj (hf.symm.trans hg)
  · intro i hi
    obtain ⟨f, is, -, his, hi⟩ := (hmem i).mp hi
    exact lt_of_functionOf (((harranged.of_instsOf his).2 i).mp hi)

variable (ht : t.InRange)

include ht

/-- Parsing a call cannot fault. It may give a site error, which is not a fault. -/
theorem exists_parseSite {i : InstId} (hi : i.index < t.insts.size) (k : LockKind) :
    ∃ r, t.parseSite i k = .ok r := by
  obtain ⟨x, hmem, hx⟩ : ∃ x ∈ t.insts, t.inst i = .ok x := exists_lookUp hi
  obtain ⟨void, hvoid⟩ := InRange.exists_isVoid (ht.within.results x hmem)
  unfold parseSite
  rw [hx, ok_bind]
  cases x.kind.args?.getD [] with
  | nil => exact ⟨_, rfl⟩
  | cons first rest =>
    simp only [hvoid, ok_bind]
    cases k.layout.locate void (.inst i) first rest with
    | ok located => exact ⟨_, rfl⟩
    | error e => exact ⟨_, rfl⟩

/-- Whether an instruction is a lock operation can always be decided. -/
theorem exists_lockKindAt (flavors : FlavorSet) {i : InstId} (hi : i.index < t.insts.size) :
    ∃ r, t.lockKindAt flavors i = .ok r := by
  obtain ⟨name, hname⟩ := ht.exists_calledName hi
  unfold lockKindAt
  rw [hname, ok_bind]
  cases name with
  | none => exact ⟨_, rfl⟩
  | some name => exact ⟨_, rfl⟩

/-- The lock of a site is a value of the program. -/
theorem IsLockSite.target_within {s : LockSite} (hs : t.IsLockSite s) : s.target.Within t.sizes := by
  obtain ⟨-, -, x, hx, hin⟩ := of_parseSite hs.parsed
  cases hargs : x.kind.args? with
  | none =>
    rw [hargs] at hin
    cases hin
  | some args =>
    rw [hargs] at hin
    exact (ht.kindOf_within (kindOf_of_inst hx)).operands _ (InstKind.mem_operands_of_args hargs hin)

/-! ## All calls -/

/-- The lock sites among instructions, in their order. -/
theorem exists_lockSitesAmong (flavors : FlavorSet) {is : List InstId}
    (hlt : ∀ i ∈ is, i.index < t.insts.size) :
    ∃ sites, t.lockSitesAmong flavors is = .ok sites ∧ (sites.locks.map LockSite.inst).Sublist is ∧
      (∀ u ∈ sites.unparsed, u.inst ∈ is) ∧ ∀ s, s ∈ sites.locks ↔ s.inst ∈ is ∧
        t.lockKindAt flavors s.inst = .ok (some s.kind) ∧ t.parseSite s.inst s.kind = .ok (.ok s) := by
  induction is with
  | nil => exact ⟨.empty, rfl, .slnil, by simp [LockSites.empty], by simp [LockSites.empty]⟩
  | cons i is ih =>
    have hi := hlt i (List.mem_cons_self ..)
    obtain ⟨sites, hsites, hsub, hunparsed, hmem⟩ := ih fun j hj => hlt j (List.mem_cons_of_mem _ hj)
    have hlater : ∀ u ∈ sites.unparsed, u.inst ∈ i :: is := fun u hu =>
      List.mem_cons_of_mem _ (hunparsed u hu)
    obtain ⟨kind, hkind⟩ := exists_lockKindAt ht flavors hi
    unfold lockSitesAmong
    rw [hkind, ok_bind, hsites]
    cases kind with
    -- no lock operation: nothing is added, and nothing is missed
    | none =>
      refine ⟨sites, rfl, hsub.cons i, hlater, fun s => ?_⟩
      rw [hmem, List.mem_cons, or_and_right, or_iff_right]
      rintro ⟨rfl, hs, -⟩
      rw [hkind] at hs
      cases hs
    | some k =>
      obtain ⟨parsed, hparsed⟩ := exists_parseSite ht hi k
      -- a site of `i` has the kind of `i`, and so comes from what was parsed
      have hat {s : LockSite} (hs : s.inst = i)
          (h : t.lockKindAt flavors s.inst = .ok (some s.kind) ∧ t.parseSite s.inst s.kind = .ok (.ok s)) :
          parsed = .ok s := by
        obtain ⟨hkind', hparsed'⟩ := h
        rw [hs, hkind] at hkind'
        cases hkind'
        rw [hs, hparsed] at hparsed'
        exact Except.ok.inj hparsed'
      refine ⟨.cons i k parsed sites, by simp [hparsed], ?_⟩
      cases parsed with
      -- a lock call that cannot be parsed is put aside
      | error e =>
        refine ⟨hsub.cons i, ?_, fun s => ?_⟩
        · intro u hu
          rcases List.mem_cons.mp hu with rfl | hu
          · exact List.mem_cons_self ..
          · exact hlater u hu
        · rw [List.mem_cons, or_and_right, or_iff_right]
          · exact hmem s
          · rintro ⟨hs, h⟩
            cases hat hs h
      -- a lock site, in front of those that follow
      | ok site =>
        obtain ⟨rfl, rfl, -⟩ := of_parseSite hparsed
        refine ⟨hsub.cons_cons _, hlater, fun s => ?_⟩
        rw [List.mem_cons, or_and_right, ← hmem s]
        show s ∈ site :: sites.locks ↔ _
        rw [List.mem_cons]
        refine or_congr_left ⟨?_, fun ⟨hs, h⟩ => ?_⟩
        · rintro rfl
          exact ⟨rfl, hkind, hparsed⟩
        · cases hat hs h
          rfl

/-- **The lock sites of a program are found, each once.** The search cannot fault on a program whose indices are
in range. -/
theorem exists_lockSites (harranged : t.Arranged) (flavors : FlavorSet) : ∃ sites, t.lockSites flavors = .ok sites ∧
    (sites.locks.map LockSite.inst).Nodup ∧ (∀ u ∈ sites.unparsed, u.inst.index < t.insts.size) ∧
      ∀ s, s ∈ sites.locks ↔ t.IsLockSite s ∧ flavors.contains s.kind.flavor = true := by
  -- the sites are collected from one list of instructions, of which none is listed twice
  obtain ⟨iss, hiss, hnodup, hlt, hmem⟩ := exists_bodyInsts harranged
  obtain ⟨sites, hsites, hsub, hunparsed, hlocks⟩ := exists_lockSitesAmong ht flavors hlt
  refine ⟨sites, bind_eq_ok.mpr ⟨iss, hiss, hsites⟩, hnodup.sublist hsub, ?_, fun s => ?_⟩
  · intro u hu
    exact hlt _ (hunparsed u hu)
  · rw [hlocks, hmem, lockKindAt_eq_some]
    constructor
    · rintro ⟨hbody, ⟨hoperation, hflavor⟩, hparsed⟩
      exact ⟨⟨hbody, hoperation, hparsed⟩, hflavor⟩
    · rintro ⟨⟨hbody, hoperation, hparsed⟩, hflavor⟩
      exact ⟨hbody, ⟨hoperation, hflavor⟩, hparsed⟩

/-- What was collected is every lock site, each once. -/
theorem of_lockSites (harranged : t.Arranged) {flavors : FlavorSet} {sites : LockSites}
    (h : t.lockSites flavors = .ok sites) : (sites.locks.map LockSite.inst).Nodup ∧
      ∀ s, s ∈ sites.locks ↔ t.IsLockSite s ∧ flavors.contains s.kind.flavor = true := by
  obtain ⟨sites', hsites', hnodup, -, hmem⟩ := exists_lockSites ht harranged flavors
  rw [h] at hsites'
  cases hsites'
  exact ⟨hnodup, hmem⟩

end Tables

/-! ## One flavor -/

/-- The table of flavors leaves none out. -/
theorem Flavor.mem_all (f : Flavor) : f ∈ Flavor.all := by
  cases f <;> decide

/-- No flavor is analysed twice. -/
theorem Flavor.all_nodup : Flavor.all.Nodup := by
  decide

namespace LockSites

variable {sites : LockSites} {f : Flavor}

theorem mem_ofFlavor {s : LockSite} : s ∈ sites.ofFlavor f ↔ s ∈ sites.locks ∧ s.kind.flavor = f := by
  rw [ofFlavor, (sortBy_perm _ _).mem_iff, List.mem_filter, beq_iff_eq]

/-- The sites of one flavor stand in the order of the instruction table. -/
theorem ofFlavor_pairwise (h : (sites.locks.map LockSite.inst).Nodup) :
    (sites.ofFlavor f).Pairwise fun a b => a.inst.index < b.inst.index := by
  -- sorting gives `≤`; no two sites have the same instruction, so it is `<`
  have hle := sortBy_pairwise (fun s : LockSite => s.inst.index)
    (sites.locks.filter fun site => site.kind.flavor == f)
  have hne : (sites.ofFlavor f).Pairwise fun a b => a.inst ≠ b.inst := by
    have hperm := (sortBy_perm (fun a b : LockSite => decide (a.inst.index < b.inst.index))
      (sites.locks.filter fun site => site.kind.flavor == f)).map LockSite.inst
    exact List.pairwise_map.mp (hperm.nodup_iff.mpr (h.sublist (List.filter_sublist.map LockSite.inst)))
  refine (hle.and hne).imp fun {a b} hab => Nat.lt_of_le_of_ne hab.1 fun heq => hab.2 ?_
  exact congrArg InstId.mk heq

/-- The flavors that are analysed have all lock sites that were collected. -/
theorem flatMap_ofFlavor_perm {flavors : List Flavor} (hnodup : flavors.Nodup)
    (h : ∀ s ∈ sites.locks, s.kind.flavor ∈ flavors) :
    (flavors.flatMap sites.ofFlavor).Perm sites.locks := by
  refine List.Perm.trans ?_ (flatMap_filter_perm (fun s => s.kind.flavor) hnodup h)
  exact List.Perm.flatMap_left _ fun f _ => sortBy_perm _ _

end LockSites

end Relock
