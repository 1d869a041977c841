import Mathlib.Data.List.ReduceOption
import Relock.Proofs.Audit
import Relock.Proofs.Builder.Arrangement
import Relock.Proofs.Lock.Site

/-!
# Audits are exact

An audit runs a worklist over the values that the guard of a lock call is passed on to, and reports the
explicit drops among their users. Here the same is said by rules: what a user of a value passes it on to, and
which instructions are the drops of a guard. The rules are inductive, so the values they give are the least
set that is closed under them, whatever cycles the uses of a program form.

* `PassesOn`, `Holds`, `DroppedAt`: the rules;
* `lists_heldBy`: what one value is passed on to;
* `reached_iff_holds`: the worklist finds every holder of the guard that has a user;
* `exists_sorted_drops`: `drops` lists exactly the drops that the rules give, by instruction;
* `LockCall`, `AuditedAs`: the calls that an audit looks at, and what it says about an instruction;
* `audit_exact`: what an audit of a program that was built returns.
-/

namespace Relock.Audit

/-! ## The rules -/

section Rules

variable (p : Program) (lock : InstId)

/-- The instruction `u` drops its argument explicitly. -/
def IsDrop (u : InstId) : Prop :=
  ∃ name, p.calledName u = .ok (some name) ∧ Guard.isManualDrop name = true

/-- What the user `u` of the value `v` passes it on to. A store of something else through `v` passes nothing
on, and neither does an explicit drop. -/
inductive PassesOn (v : Value) (u : InstId) : Value → Prop where
  /-- The value is stored somewhere. -/
  | stored {ptr : Value} (hdrop : ¬ IsDrop p u) (hk : p.kindOf u = .ok (.store v ptr)) : PassesOn v u ptr
  /-- Something is computed from the value. -/
  | computed {k : InstKind} (hdrop : ¬ IsDrop p u) (hk : p.kindOf u = .ok k)
      (hno : ∀ stored ptr, k ≠ .store stored ptr) : PassesOn v u (.inst u)

/-- The values that the guard `g` of the call `lock` is passed on to. -/
inductive Holds (g : Value) : Value → Prop where
  | guard : Holds g g
  | passed {v w : Value} {u : InstId} (hv : Holds g v) (hu : u ∈ p.users v) (hlock : u ≠ lock)
      (hw : PassesOn p v u w) : Holds g w

/-- The instruction `u` drops the guard `g` of the call `lock`, or something that it was passed on to. -/
def DroppedAt (g : Value) (u : InstId) : Prop :=
  ∃ v, Holds p lock g v ∧ u ∈ p.users v ∧ u ≠ lock ∧ IsDrop p u

/-- The instruction `i` looks like a lock operation with the guard `g`: its result or, if it has none, the
first of several arguments. -/
inductive LockCall (i : InstId) : Value → Prop where
  | result {name : String} {x : Instruction} (hname : p.calledName i = .ok (some name))
      (hlike : isLockLike name = true) (hx : p.inst i = .ok x) (hty : p.isVoid x.ty = .ok false) :
      LockCall i (.inst i)
  | slot {name : String} {x : Instruction} {first second : Value} {rest : List Value}
      (hname : p.calledName i = .ok (some name)) (hlike : isLockLike name = true) (hx : p.inst i = .ok x)
      (hty : p.isVoid x.ty = .ok true) (hargs : x.kind.args? = some (first :: second :: rest)) :
      LockCall i first

/-- What an audit says about the instruction `i`: nothing, or where its guard is dropped. -/
inductive AuditedAs (i : InstId) : List Report → Prop where
  | dropped {g : Value} {function text : String} {ds : List InstId} {texts : List String}
      (hg : LockCall p i g) (hsorted : ds.Pairwise fun d e => d.index < e.index)
      (hds : ∀ u, u ∈ ds ↔ DroppedAt p i g u) (hne : ds ≠ []) (hfunction : p.functionName i = .ok function)
      (htext : p.describe i = .ok text)
      (htexts : List.Forall₂ (fun d text => p.describe d = .ok text) ds texts) :
      AuditedAs i [.manualDrop ⟨function, text, texts⟩]
  | passed (hnone : ∀ g, LockCall p i g → ∀ u, ¬ DroppedAt p i g u) : AuditedAs i []

end Rules

variable {p : Program} {lock : InstId}

/-! ## One lock call -/

theorem callsA_eq_true_iff_isDrop {u : InstId} : p.callsA Guard.isManualDrop u = .ok true ↔ IsDrop p u :=
  Tables.callsA_eq_true

theorem exists_args_of_calledName {i : InstId} {name : String} {x : Instruction}
    (hname : p.calledName i = .ok (some name)) (hx : p.inst i = .ok x) : ∃ args, x.kind.args? = some args := by
  obtain ⟨k, f, -, hk, hf, -⟩ := Tables.calledName_eq_some.mp hname
  cases (Tables.kindOf_of_inst hx).symm.trans hk
  cases hkind : x.kind with
  | call _ args => exact ⟨args, rfl⟩
  | invoke _ args => exact ⟨args, rfl⟩
  | _ => simp [hkind, InstKind.callee?] at hf

/-- The guard of a lock call depends on whether the call has a result. -/
theorem guardOf_eq_some {i : InstId} {g : Value} : guardOf p i = .ok (some g) ↔
    ∃ x args, p.inst i = .ok x ∧ x.kind.args? = some args ∧ (p.isVoid x.ty = .ok false ∧ g = .inst i ∨
      p.isVoid x.ty = .ok true ∧ ∃ second rest, args = g :: second :: rest) := by
  constructor
  · intro h
    obtain ⟨x, hx, h⟩ := bind_eq_ok.mp h
    cases hargs : x.kind.args? with
    | none => simp [hargs] at h
    | some args =>
      rw [hargs] at h
      obtain ⟨void, hvoid, h⟩ := bind_eq_ok.mp h
      refine ⟨x, args, hx, hargs, ?_⟩
      cases void with
      | false =>
        cases h
        exact .inl ⟨hvoid, rfl⟩
      | true =>
        -- without a result the first argument is the slot of the guard, if there is a second one
        obtain _ | ⟨first, _ | ⟨second, rest⟩⟩ := args <;> cases h
        exact .inr ⟨hvoid, second, rest, rfl⟩
  · rintro ⟨x, args, hx, hargs, ⟨hvoid, rfl⟩ | ⟨hvoid, second, rest, rfl⟩⟩
    all_goals simp [guardOf, hx, hargs, hvoid]

/-- The two tests that the auditor makes recognise a lock call and its guard. -/
theorem lockCall_iff {i : InstId} {g : Value} :
    LockCall p i g ↔ p.callsA isLockLike i = .ok true ∧ guardOf p i = .ok (some g) := by
  rw [Tables.callsA_eq_true, guardOf_eq_some]
  constructor
  · rintro (⟨hname, hlike, hx, hty⟩ | ⟨hname, hlike, hx, hty, hargs⟩)
    · -- the rule for results does not name the arguments, but a call has some
      obtain ⟨args, hargs⟩ := exists_args_of_calledName hname hx
      exact ⟨⟨_, hname, hlike⟩, _, args, hx, hargs, .inl ⟨hty, rfl⟩⟩
    · exact ⟨⟨_, hname, hlike⟩, _, _, hx, hargs, .inr ⟨hty, _, _, rfl⟩⟩
  · rintro ⟨⟨name, hname, hlike⟩, x, args, hx, hargs, ⟨hty, rfl⟩ | ⟨hty, second, rest, rfl⟩⟩
    · exact .result hname hlike hx hty
    · exact .slot hname hlike hx hty hargs

section InRange

variable (hp : p.InRange)

include hp

/-! ## Holders -/

/-- What one user of a value passes it on to. -/
theorem lists_heldAt (v : Value) {u : InstId} (hu : u.index < p.insts.size) :
    Lists (heldAt p v u) (PassesOn p v u) := by
  obtain ⟨k, hk⟩ := Tables.InRange.exists_kindOf hu
  obtain ⟨drops, hdrops⟩ := hp.exists_callsA Guard.isManualDrop hu
  unfold heldAt
  rw [hdrops, ok_bind, hk]
  cases drops with
  | true =>
    have hdrop : IsDrop p u := callsA_eq_true_iff_isDrop.mp hdrops
    refine (Lists.ok []).congr fun w => ⟨by simp, ?_⟩
    rintro (⟨hno, -⟩ | ⟨hno, -⟩) <;> exact absurd hdrop hno
  | false =>
    have hdrop : ¬ IsDrop p u := by
      rw [← callsA_eq_true_iff_isDrop, hdrops]
      simp
    -- what an instruction other than a store passes on
    have hcomputed (hno : ∀ stored ptr, k ≠ .store stored ptr) (w : Value) :
        w ∈ [Value.inst u] ↔ PassesOn p v u w := by
      rw [List.mem_singleton]
      constructor
      · rintro rfl
        exact .computed hdrop hk hno
      · rintro (⟨-, hk'⟩ | -)
        · exact absurd (Except.ok.inj (hk.symm.trans hk')) (hno _ _)
        · rfl
    cases k with
    -- a store passes on what is stored, to where it is stored; used as the address, the value stays
    | store stored ptr =>
      refine (Lists.ok (if stored == v then [ptr] else [])).congr fun w => ?_
      constructor
      · intro hw
        by_cases hv : stored = v
        · subst hv
          obtain rfl : w = ptr := by simpa using hw
          exact .stored hdrop hk
        · simp [hv] at hw
      · rintro (⟨-, hk'⟩ | ⟨-, hk', hno⟩)
        · cases hk.symm.trans hk'
          simp
        · cases hk.symm.trans hk'
          exact absurd rfl (hno stored ptr)
    | _ => exact (Lists.ok [Value.inst u]).congr (hcomputed (by simp))

variable (lock) in
/-- **Step lemma**: one round of the worklist finds what a value is passed on to. -/
theorem lists_heldBy (v : Value) :
    Lists (heldBy p lock v) fun w => ∃ u ∈ p.usersExcept lock v, PassesOn p v u w :=
  .flatMapM fun _ hu => lists_heldAt hp v (Program.lt_of_mem_usersExcept hu)

/-- **Run lemma**: the worklist finds the holders that the rules give, those without a user apart. -/
theorem reached_iff_holds {g v : Value} :
    Reached (heldBy p lock) p.usedValues [g] v ↔ Holds p lock g v ∧ v ∈ p.usedValues := by
  constructor
  · -- each step of the worklist is a step of the rules
    intro h
    induction h with
    | start hwork hfresh =>
      obtain rfl := List.mem_singleton.mp hwork
      exact ⟨.guard, hfresh⟩
    | @step v w more _ hnext hw hfresh ih =>
      obtain ⟨u, hu, hw⟩ := ((lists_heldBy lock hp v).mem_iff hnext).mp hw
      obtain ⟨hu, hlock⟩ := Program.mem_usersExcept.mp hu
      exact ⟨.passed ih.1 hu hlock hw, hfresh⟩
  · -- a value that is passed on has a user, so the worklist does not leave it out
    rintro ⟨hv, hfresh⟩
    induction hv with
    | guard => exact .start (List.mem_singleton_self _) hfresh
    | @passed v w u _ hu hlock hw ih =>
      obtain ⟨more, hmore, hmem⟩ := lists_heldBy lock hp v
      have hw : w ∈ more := (hmem w).mpr ⟨u, Program.mem_usersExcept.mpr ⟨hu, hlock⟩, hw⟩
      exact .step (ih (Program.mem_usedValues (List.ne_nil_of_mem hu))) hmore hw hfresh

/-! ## Drops -/

theorem lists_dropsOf (v : Value) :
    Lists (dropsOf p lock v) fun u => (u ∈ p.users v ∧ u ≠ lock) ∧ IsDrop p u := by
  have hfound := Lists.filterM fun u (hu : u ∈ p.usersExcept lock v) =>
    hp.exists_callsA Guard.isManualDrop (Program.lt_of_mem_usersExcept hu)
  exact hfound.congr fun u => and_congr Program.mem_usersExcept callsA_eq_true_iff_isDrop

variable (lock) in
/-- What is found at the holders that the worklist finds is what the rules give. -/
theorem lists_found (g : Value) :
    Lists (do return (← (← holders p lock g).mapM (dropsOf p lock)).flatten) (DroppedAt p lock g) := by
  have hholders : Lists (holders p lock g) _ := lists_reach fun v _ => exists_heldBy hp lock v
  refine (hholders.bind fun v _ => lists_dropsOf hp v).congr fun u => ?_
  constructor
  · rintro ⟨v, hv, ⟨hu, hlock⟩, hdrop⟩
    exact ⟨v, ((reached_iff_holds hp).mp hv).1, hu, hlock, hdrop⟩
  · -- a value that is dropped has a user
    rintro ⟨v, hv, hu, hlock, hdrop⟩
    have hused := Program.mem_usedValues (List.ne_nil_of_mem hu)
    exact ⟨v, (reached_iff_holds hp).mpr ⟨hv, hused⟩, ⟨hu, hlock⟩, hdrop⟩

variable (lock) in
/-- The explicit drops of a guard are listed once each and in the order of the instruction table. -/
theorem exists_sorted_drops (g : Value) : ∃ ds, drops p lock g = .ok ds ∧
    ds.Pairwise (fun d e => d.index < e.index) ∧ ∀ u, u ∈ ds ↔ DroppedAt p lock g u := by
  obtain ⟨found, hfound, hmem⟩ := lists_found lock hp g
  obtain ⟨vs, hvs, hfound⟩ := bind_eq_ok.mp hfound
  obtain ⟨parts, hparts, hfound⟩ := bind_eq_ok.mp hfound
  cases hfound
  -- the table lists its instructions in order, and a filter keeps the order
  refine ⟨p.instIds.filter fun i => parts.flatten.contains i, ?_, p.instIds_pairwise.filter _, fun u => ?_⟩
  · rw [drops, hvs, ok_bind, hparts]
    rfl
  · rw [List.mem_filter, List.contains_iff_mem, hmem, Tables.mem_instIds]
    refine and_iff_right_of_imp ?_
    rintro ⟨v, -, hu, -⟩
    exact Program.lt_of_mem_users hu

/-! ## Reports -/

/-- The report on one instruction, if there is one, says what the rules say. -/
theorem exists_auditedAs {f : FunctionId} {i : InstId} (hi : p.functionOf i = .ok f) :
    ∃ r, auditAt p f i = .ok r ∧ AuditedAs p i r.toList := by
  have hlt := Tables.lt_of_functionOf hi
  obtain ⟨like, hlike⟩ := hp.exists_callsA isLockLike hlt
  obtain ⟨guard, hguard⟩ := exists_guardOf hp hlt
  -- a call has one guard at most, so what was found at `i` is all there is
  have hcall {g : Value} (hg : LockCall p i g) : like = true ∧ guard = some g := by
    obtain ⟨hlike', hguard'⟩ := lockCall_iff.mp hg
    exact ⟨Except.ok.inj (hlike.symm.trans hlike'), Except.ok.inj (hguard.symm.trans hguard')⟩
  unfold auditAt
  rw [hlike, ok_bind]
  cases like with
  | false => exact ⟨none, rfl, .passed fun g hg => by cases (hcall hg).1⟩
  | true =>
    rw [hguard]
    cases guard with
    | none => exact ⟨none, rfl, .passed fun g hg => by cases (hcall hg).2⟩
    | some g =>
      obtain ⟨ds, hds, hsorted, hmem⟩ := exists_sorted_drops i hp g
      cases ds with
      | nil =>
        refine ⟨none, by simp [hds], .passed fun g' hg u hu => ?_⟩
        cases (hcall hg).2
        cases (hmem u).mpr hu
      | cons d ds =>
        have hg : LockCall p i g := lockCall_iff.mpr ⟨hlike, hguard⟩
        -- the name comes from the function being audited, which is the one that `i` belongs to
        obtain ⟨name, hname⟩ := hp.exists_functionName hlt
        obtain ⟨function, hfunction, rfl⟩ : ∃ function, p.function f = .ok function ∧ function.name = name := by
          simpa [Tables.functionName, hi] using hname
        obtain ⟨text, htext⟩ := hp.exists_describe hlt
        obtain ⟨texts, htexts⟩ : ∃ texts, (d :: ds).mapM p.describe = .ok texts := by
          refine exists_mapM_ok fun e he => ?_
          obtain ⟨v, -, hu, -⟩ := (hmem e).mp he
          exact hp.exists_describe (Program.lt_of_mem_users hu)
        refine ⟨some (.manualDrop ⟨function.name, text, texts⟩), ?_, ?_⟩
        · simp [hds, hfunction, htext, htexts]
        · exact .dropped hg hsorted hmem (List.cons_ne_nil d ds) hname htext (mapM_eq_ok.mp htexts)

/-- The reports on the instructions of one body, in their order. -/
theorem collects_auditFunction (harranged : p.Arranged) {f : FunctionId} {is : List InstId}
    (his : p.instsOf f = .ok is) : Collects (auditFunction p f) (AuditedAs p) is := by
  unfold auditFunction
  rw [his, ok_bind]
  exact .reduceOption fun i hi => exists_auditedAs hp (((harranged.of_instsOf his).2 i).mp hi)

/-- The bodies of a program have all of its instructions, each once. -/
theorem exists_layout (harranged : p.Arranged) : ∃ iss, p.bodies.mapM p.instsOf = .ok iss ∧
    iss.flatten.Nodup ∧ ∀ i, i ∈ iss.flatten ↔ i.index < p.insts.size := by
  obtain ⟨iss, hiss, hnodup, hlt, hmem⟩ := Tables.exists_bodyInsts harranged
  refine ⟨iss, hiss, hnodup, fun i => ⟨hlt i, fun hi => (hmem i).mpr ?_⟩⟩
  obtain ⟨f, hf, -⟩ := hp.exists_functionOf hi
  -- a function with an instruction has a body
  have hbody := harranged.mem_bodies hf
  obtain ⟨g, hg⟩ := Tables.exists_function_of_mem_bodies hbody
  obtain ⟨is, his, -, hin⟩ := harranged.exists_instsOf hg
  exact ⟨f, is, hbody, his, (hin i).mpr hf⟩

end InRange

/-- **The audit of every program that was built, and whose indices are in range, is exact.** The explicit
drops of a guard are the calls to a dropping function that use one of the least set of values with the guard
in it and with all that these values are passed on to. They are listed in the order of the instruction table.
An audit goes through the bodies of the program and through each instruction once, as they are laid out. It
makes one report for each lock call whose guard is dropped, with these drops, and none for anything else. -/
theorem audit_exact {steps : List Step} {b : Builder} (hb : Builder.empty.runAll steps = .ok b)
    (hrange : b.finish.InRange) :
    (∀ lock g, ∃ ds, drops b.finish lock g = .ok ds ∧ ds.Pairwise (fun d e => d.index < e.index) ∧
      ∀ u, u ∈ ds ↔ DroppedAt b.finish lock g u) ∧
    ∃ iss, b.finish.bodies.mapM b.finish.instsOf = .ok iss ∧ iss.flatten.Nodup ∧
      (∀ i, i ∈ iss.flatten ↔ i.index < b.finish.insts.size) ∧
        Collects (audit b.finish) (AuditedAs b.finish) iss.flatten := by
  -- whatever the steps were, the builder keeps its tables arranged
  have harranged : b.finish.Arranged := Builder.arranged_of_runAll hb
  obtain ⟨iss, hiss, hnodup, hmem⟩ := exists_layout hrange harranged
  refine ⟨fun lock g => exists_sorted_drops lock hrange g, iss, hiss, hnodup, hmem, ?_⟩
  exact .flatMapM_of_mapM hiss fun f _ is his => collects_auditFunction hrange harranged his

/-- A body with two lock calls. The first guard goes from one slot to another and back, and is dropped on the
way. What is stored through it is dropped as well, but is something else. The second guard is in a slot that
is not used again. -/
def guardsInSlots : List (InstKind × TypeId) :=
  [(.alloca, .word), (.alloca, .word), (.call (.direct ⟨0⟩) [], .word),
    (.store (.inst ⟨2⟩) (.inst ⟨0⟩), .void), (.load (.inst ⟨0⟩), .word),
    (.store (.inst ⟨4⟩) (.inst ⟨1⟩), .void), (.load (.inst ⟨1⟩), .word),
    (.store (.inst ⟨6⟩) (.inst ⟨0⟩), .void), (.call (.direct ⟨2⟩) [.inst ⟨6⟩], .void), (.alloca, .word),
    (.store (.inst ⟨9⟩) (.inst ⟨2⟩), .void), (.call (.direct ⟨2⟩) [.inst ⟨9⟩], .void), (.alloca, .word),
    (.call (.direct ⟨1⟩) [.inst ⟨12⟩, .const 1], .void)]

def slotSteps : List Step :=
  [.function "lock_api::mutex::Mutex<T>::lock" [] .word,
    .function "lock_api::rwlock::RwLock<T>::write" [.word, .word] .void,
    .function "core::mem::drop" [.word] .void, .function "f" [] .void, .block ⟨3⟩ "entry"] ++
    guardsInSlots.map fun e => .push ⟨0⟩ e.1 e.2

def slotTables : Tables where
  types := #[.void, .int 64]
  globals := #[]
  functions := #[⟨"lock_api::mutex::Mutex<T>::lock", [], .word, []⟩,
    ⟨"lock_api::rwlock::RwLock<T>::write", [.word, .word], .void, []⟩, ⟨"core::mem::drop", [.word], .void, []⟩,
    ⟨"f", [], .void, [⟨0⟩]⟩]
  blocks := #[⟨"entry", ⟨3⟩, (List.range 14).map InstId.mk⟩]
  insts := (guardsInSlots.map fun e => ⟨e.1, e.2, ⟨0⟩, none⟩).toArray

/-- One report, with the drop of the first guard. Neither what was stored through that guard nor the second guard
gives another one. -/
theorem audit_guardsInSlots : ∃ b, Builder.empty.runAll slotSteps = .ok b ∧ b.finish.InRange ∧
    (∀ u, DroppedAt b.finish ⟨2⟩ (.inst ⟨2⟩) u ↔ u = ⟨8⟩) ∧
      (∀ u, ¬ DroppedAt b.finish ⟨13⟩ (.inst ⟨12⟩) u) ∧ audit b.finish =
        .ok [.manualDrop ⟨"f", "f: <unknown location>", ["f: <unknown location>"]⟩] := by
  obtain ⟨b, hb⟩ : ∃ b, Builder.empty.runAll slotSteps = .ok b := ⟨_, rfl⟩
  have hprogram : b.finish = .ofTables slotTables := by
    cases hb
    rfl
  have hrange : b.finish.InRange := by
    rw [hprogram]
    decide +kernel
  obtain ⟨hdrops, -⟩ := audit_exact hb hrange
  obtain ⟨ds, hds, -, hmem⟩ := hdrops ⟨2⟩ (.inst ⟨2⟩)
  obtain ⟨ds', hds', -, hmem'⟩ := hdrops ⟨13⟩ (.inst ⟨12⟩)
  rw [hprogram] at hds hds'
  have hdropped : drops (.ofTables slotTables) ⟨2⟩ (.inst ⟨2⟩) = .ok [⟨8⟩] :=
    toOption_eq_some.mp (by decide +kernel)
  have hkept : drops (.ofTables slotTables) ⟨13⟩ (.inst ⟨12⟩) = .ok [] :=
    toOption_eq_some.mp (by decide +kernel)
  cases hdropped.symm.trans hds
  cases hkept.symm.trans hds'
  refine ⟨b, hb, hrange, fun u => ?_, fun u hu => ?_, ?_⟩
  · rw [← hmem, List.mem_singleton]
  · cases (hmem' u).mpr hu
  · rw [hprogram]
    exact toOption_eq_some.mp (by decide +kernel)

end Relock.Audit
