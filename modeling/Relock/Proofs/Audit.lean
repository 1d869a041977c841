import Relock.Audit.Basic
import Relock.Proofs.CallGraph
import Relock.Proofs.Closure
import Relock.Proofs.Program.DefUse

/-!
# Audits return their reports

An audit goes from a lock call to the users of its guard and of what these pass it on to. Users are entries
of the instruction table, and the worklist looks at each value that has a user at most once. No chain of
casts is followed, so an audit of a program whose indices are in range always returns.

* `exists_drops`: the explicit drops of one guard;
* `exists_audit`: all reports.
-/

namespace Relock.Audit

variable {p : Program} (hp : p.InRange)

include hp

/-! ## One guard -/

theorem exists_heldAt (v : Value) {u : InstId} (hu : u.index < p.insts.size) : ∃ vs, heldAt p v u = .ok vs := by
  refine exists_bind_ok (hp.exists_callsA Guard.isManualDrop hu) fun drops _ => ?_
  cases drops with
  | true => exact ⟨[], rfl⟩
  | false =>
    refine exists_bind_ok (Tables.InRange.exists_kindOf hu) fun k _ => ?_
    cases k <;> exact ⟨_, rfl⟩

/-- What a value is passed on to can be found: its users are entries. -/
theorem exists_heldBy (lock : InstId) (v : Value) : ∃ vs, heldBy p lock v = .ok vs := by
  refine exists_bind_ok (exists_mapM_ok fun u hu => ?_) fun _ _ => ⟨_, rfl⟩
  exact exists_heldAt hp v (Program.lt_of_mem_usersExcept hu)

/-- The worklist of the auditor returns, for its steps do not fault. -/
theorem exists_holders (lock : InstId) (g : Value) : ∃ vs, holders p lock g = .ok vs := by
  obtain ⟨vs, hvs, -⟩ := lists_reach fun v (_ : v ∈ p.usedValues) => exists_heldBy hp lock v
  exact ⟨vs, hvs⟩

theorem exists_dropsOf (lock : InstId) (v : Value) : ∃ is, dropsOf p lock v = .ok is := by
  obtain ⟨is, his, -⟩ := Lists.filterM fun u (hu : u ∈ p.usersExcept lock v) =>
    hp.exists_callsA Guard.isManualDrop (Program.lt_of_mem_usersExcept hu)
  exact ⟨is, his⟩

/-- The explicit drops of a guard are found, and are entries of the instruction table. -/
theorem exists_drops (lock : InstId) (g : Value) :
    ∃ is, drops p lock g = .ok is ∧ ∀ i ∈ is, i.index < p.insts.size := by
  obtain ⟨vs, hvs⟩ := exists_holders hp lock g
  obtain ⟨iss, hiss⟩ := exists_mapM_ok fun v (_ : v ∈ vs) => exists_dropsOf hp lock v
  refine ⟨p.instIds.filter fun i => iss.flatten.contains i, ?_, fun i hi => ?_⟩
  · rw [drops, hvs, ok_bind, hiss]
    rfl
  · exact Tables.mem_instIds.mp (List.mem_filter.mp hi).1

/-! ## All lock calls -/

theorem exists_guardOf {i : InstId} (hi : i.index < p.insts.size) : ∃ g, guardOf p i = .ok g := by
  obtain ⟨x, hmem, hx⟩ : ∃ x ∈ p.insts, p.inst i = .ok x := exists_lookUp hi
  obtain ⟨void, hvoid⟩ := Tables.InRange.exists_isVoid (hp.within.results x hmem)
  unfold guardOf
  rw [hx, ok_bind]
  cases x.kind.args? with
  | none => exact ⟨none, rfl⟩
  | some args =>
    simp only [hvoid, ok_bind]
    split
    · split <;> exact ⟨_, rfl⟩
    · exact ⟨_, rfl⟩

/-- An instruction of a function is audited without a fault. -/
theorem exists_auditAt {f : FunctionId} (hf : ∃ g, p.function f = .ok g) {i : InstId}
    (hi : i.index < p.insts.size) : ∃ r, auditAt p f i = .ok r := by
  refine exists_bind_ok (hp.exists_callsA isLockLike hi) fun like _ => ?_
  cases like with
  | false => exact ⟨none, rfl⟩
  | true =>
    refine exists_bind_ok (exists_guardOf hp hi) fun guard _ => ?_
    cases guard with
    | none => exact ⟨none, rfl⟩
    | some g =>
      -- the drops are entries, so each of them can be described
      obtain ⟨ds, hds, hlt⟩ := exists_drops hp i g
      simp only [hds, ok_bind]
      split
      · exact ⟨none, rfl⟩
      · refine exists_bind_ok hf fun _ _ => exists_bind_ok (hp.exists_describe hi) fun _ _ => ?_
        exact exists_bind_ok (exists_mapM_ok fun d hd => hp.exists_describe (hlt d hd)) fun _ _ => ⟨_, rfl⟩

/-- **An audit returns its reports** on every arranged program whose indices are in range. No assumption about
chains is needed. -/
theorem exists_audit (harranged : p.Arranged) : ∃ reports, audit p = .ok reports := by
  refine exists_bind_ok (exists_mapM_ok fun f hf => ?_) fun _ _ => ⟨_, rfl⟩
  obtain ⟨g, hg⟩ := Tables.exists_function_of_mem_bodies hf
  -- the instructions of a body are entries of the table
  obtain ⟨is, his, -, hmem⟩ := harranged.exists_instsOf hg
  unfold auditFunction
  rw [his, ok_bind]
  refine exists_bind_ok (exists_mapM_ok fun i hi => ?_) fun _ _ => ⟨_, rfl⟩
  exact exists_auditAt hp ⟨g, hg⟩ (Tables.lt_of_functionOf ((hmem i).mp hi))

end Relock.Audit
