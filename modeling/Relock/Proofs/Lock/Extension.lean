import Relock.Proofs.Lock.Identity
import Relock.Proofs.Program.Extension

/-!
# Locks in programs that grow

A program that grows has no new lock sites if no new instruction calls a lock operation. The old sites
stay what they were: they have the same lock and the same guard, and as much is known about the lock.

* `Tables.QuietFrom`: no instruction from some index on calls a lock operation;
* `Tables.ExtendsTo.lockSites`: the lock sites persist;
* `Tables.ExtendsTo.placeOf`: so does what is known about their locks;
* `Tables.IsLockSite.guard_within`: the guard of a lock site is a value of the program.
-/

namespace Relock

/-- The instructions from an index on call no lock operation. The functions that they call by name
exist. -/
def Tables.QuietFrom (t : Tables) (n : Nat) : Prop :=
  ∀ i kind f, n ≤ i.index → t.kindOf i = .ok kind → kind.callee? = some f →
    ∃ g, t.function f = .ok g ∧ LockKind.ofSymbol g.name = none

namespace Tables

variable {t t' : Tables}

/-! ## Guards -/

/-- The guard is the call itself or one of its arguments. -/
theorem guard_mem_of_locate {layout : Layout} {isVoid : Bool} {call first target guard : Value}
    {rest : List Value} (h : layout.locate isVoid call first rest = .ok (target, guard)) :
    guard = call ∨ guard ∈ first :: rest := by
  unfold Layout.locate at h
  repeat' split at h
  all_goals cases h <;> simp

/-- The guard of a lock site is a value of the program. -/
theorem IsLockSite.guard_within (ht : t.InRange) {s : LockSite} (hs : t.IsLockSite s) :
    s.guard.Within t.sizes := by
  obtain ⟨x, hx, h⟩ := bind_eq_ok.mp hs.parsed
  cases hargs : x.kind.args? with
  -- what is no call cannot be parsed
  | none =>
    rw [hargs] at h
    cases h
  | some args =>
    rw [hargs, Option.getD_some] at h
    cases args with
    | nil => cases h
    | cons first rest =>
      obtain ⟨isVoid, -, h⟩ := bind_eq_ok.mp h
      split at h
      · -- the layout of the arguments says which of them is the guard
        next target guard hlocate =>
        have hguard : s.guard = guard := congrArg LockSite.guard (Except.ok.inj (Except.ok.inj h)).symm
        rw [hguard]
        rcases guard_mem_of_locate hlocate with rfl | hmem
        · exact lt_of_inst hx
        · exact (ht.kindOf_within (kindOf_of_inst hx)).operands _ (InstKind.mem_operands_of_args hargs hmem)
      · cases h

/-! ## Lock sites -/

/-- An instruction that calls no lock operation is not a lock site. -/
theorem QuietFrom.lockKindAt {n : Nat} (h : t.QuietFrom n) (flavors : FlavorSet) {i : InstId}
    (hn : n ≤ i.index) (hi : i.index < t.insts.size) : t.lockKindAt flavors i = .ok none := by
  obtain ⟨kind, hkind⟩ := InRange.exists_kindOf hi
  have hcalled : t.calledFunction i = .ok kind.callee? := bind_eq_ok.mpr ⟨kind, hkind, rfl⟩
  unfold Tables.lockKindAt calledName
  rw [hcalled, ok_bind]
  cases hcallee : kind.callee? with
  -- an indirect call, or no call at all, has no symbol to recognise
  | none => rfl
  | some f =>
    obtain ⟨g, hg, hname⟩ := h i kind f hn hkind hcallee
    simp only [hg, ok_bind]
    show Except.ok ((LockKind.ofSymbol g.name).filter _) = _
    rw [hname]
    rfl

/-- Where nothing calls a lock operation, there is no lock site. -/
theorem lockSitesAmong_quiet {flavors : FlavorSet} {is : List InstId}
    (hquiet : ∀ i ∈ is, t.lockKindAt flavors i = .ok none) : t.lockSitesAmong flavors is = .ok .empty := by
  induction is with
  | nil => rfl
  | cons i is ih =>
    rw [Tables.lockSitesAmong, hquiet i (List.mem_cons_self ..), ok_bind]
    exact ih fun j hj => hquiet j (List.mem_cons_of_mem _ hj)

/-- Instructions at the end that call no lock operation add nothing. -/
theorem lockSitesAmong_append {flavors : FlavorSet} {is quiet : List InstId}
    (hquiet : ∀ i ∈ quiet, t.lockKindAt flavors i = .ok none) :
    t.lockSitesAmong flavors (is ++ quiet) = t.lockSitesAmong flavors is := by
  induction is with
  | nil => exact lockSitesAmong_quiet hquiet
  | cons i is ih => rw [List.cons_append, Tables.lockSitesAmong, Tables.lockSitesAmong, ih]

namespace ExtendsTo

variable (h : t.ExtendsTo t')

include h

theorem parseSite (i : InstId) (k : LockKind) : Persists (t.parseSite i k) (t'.parseSite i k) := by
  refine (h.inst i).bind fun x _ => ?_
  cases x.kind.args?.getD [] with
  | nil => exact .refl _
  | cons first rest => exact (h.isVoid x.ty).bind_pure _

theorem lockKindAt (flavors : FlavorSet) (i : InstId) :
    Persists (t.lockKindAt flavors i) (t'.lockKindAt flavors i) :=
  (h.calledName i).bind_pure _

theorem lockSitesAmong (flavors : FlavorSet) (is : List InstId) :
    Persists (t.lockSitesAmong flavors is) (t'.lockSitesAmong flavors is) := by
  induction is with
  | nil => exact .refl _
  | cons i is ih =>
    refine (h.lockKindAt flavors i).bind fun kind _ => ?_
    cases kind with
    | none => exact ih
    | some k => exact (h.parseSite i k).bind fun _ _ => ih.bind_pure _

/-- The instructions of a new function are new. -/
theorem le_of_functionOf (ht : t.InRange) {i : InstId} {f : FunctionId} (hi : t'.functionOf i = .ok f)
    (hf : t.functions.size ≤ f.index) : t.insts.size ≤ i.index := by
  by_contra hlt
  obtain ⟨f', hf', hlt'⟩ := ht.exists_functionOf (Nat.lt_of_not_le hlt)
  -- an old instruction is still in its function, which is an old one
  rw [h.functionOf i f' hf'] at hi
  cases hi
  omega

/-- No lock site is added and none is lost. -/
theorem lockSites (ht : t.InRange) (ht' : t'.Arranged) (hquiet : t'.QuietFrom t.insts.size)
    (flavors : FlavorSet) : Persists (t.lockSites flavors) (t'.lockSites flavors) := by
  intro sites hsites
  obtain ⟨parts, hparts, hsites⟩ := bind_eq_ok.mp hsites
  obtain ⟨newBodies, hbodies, hnew⟩ := h.exists_bodies
  -- old functions have their instructions, and no others
  have hparts' : t.bodies.mapM t'.instsOf = .ok parts :=
    Persists.mapM (fun f _ => h.instsOf f) parts hparts
  obtain ⟨news, hnews⟩ : ∃ news, newBodies.mapM t'.instsOf = .ok news := by
    refine exists_mapM_ok fun f hf => ?_
    have hbody : f ∈ t'.bodies := hbodies ▸ List.mem_append_right _ hf
    obtain ⟨g, hg⟩ := exists_function_of_mem_bodies hbody
    exact (ht'.exists_instsOf hg).imp fun _ => And.left
  -- new instructions are in new functions only
  have hnone : ∀ i ∈ news.flatten, t'.lockKindAt flavors i = .ok none := by
    refine forall_mem_flatten_of_mapM hnews fun f hf is his i hi => ?_
    have hfunction : t'.functionOf i = .ok f := ((ht'.of_instsOf his).2 i).mp hi
    exact hquiet.lockKindAt flavors (h.le_of_functionOf ht hfunction (hnew f hf)) (lt_of_functionOf hfunction)
  unfold Tables.lockSites
  rw [hbodies, List.mapM_append, hparts', ok_bind, hnews, ok_bind]
  show t'.lockSitesAmong flavors (parts ++ news).flatten = .ok sites
  rw [List.flatten_append, lockSitesAmong_append hnone]
  exact h.lockSitesAmong flavors _ sites hsites

/-! ## What is known about a lock -/

theorem pointedRecord (v : Value) : Persists (t.pointedRecord v) (t'.pointedRecord v) := by
  refine (h.stripCasts v).bind fun w _ => (h.valueType w).bind fun ty _ => (h.pointee ty).bind fun r _ => ?_
  cases r with
  | none => exact .refl _
  | some r => exact (h.isRecord r).bind_pure _

/-- **The identity of a lock persists.** -/
theorem identityOf (v : Value) : Persists (t.identityOf v) (t'.identityOf v) := by
  cases v with
  | inst i =>
    refine (h.kindOf i).bind fun k _ => ?_
    -- only casts and field addresses have an identity
    cases k with
    | fieldAddr base indices => exact (h.pointedRecord base).bind_pure _
    | cast v => exact (h.pointedRecord v).bind_pure _
    | _ => exact .refl _
  | arg f n => exact .refl _
  | global g => exact .refl _
  | const n => exact .refl _

/-- So does the group that it belongs to. -/
theorem placeOf (s : LockSite) : Persists (t.placeOf s) (t'.placeOf s) := by
  refine (h.identityOf s.target).bind fun identity _ => ?_
  cases identity with
  | some l => exact .refl _
  | none => exact (h.functionOf s.inst).bind fun _ _ => (h.valueType s.target).bind_pure _

/-- **Sites are grouped as they were**, within functions and across them. -/
theorem lockGroups (sites : List LockSite) : Persists (LockGroups.ofSites t sites) (LockGroups.ofSites t' sites) :=
  (Persists.mapM fun s _ => (h.placeOf s).bind_pure _).bind_pure _

end ExtendsTo

end Tables

end Relock
