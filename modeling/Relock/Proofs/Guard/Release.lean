import Relock.Guard.Release
import Relock.Proofs.Closure
import Relock.Proofs.Guard.Symbol
import Relock.Proofs.Program.Chain
import Relock.Proofs.Program.DefUse

/-!
# Where guards are released, by rules

The search for the releases of a guard runs a worklist over the carriers of the guard and then looks at
the users of each. Here the same set is given by rules: which values are the guard, which objects its
payload was moved into, and which instructions release what one of them holds. The rules are inductive,
so they define the least sets that are closed under them, whatever cycles the uses of a program form.

* `IsGuard`, `IsRelocated`, `ReleasedAt`: the rules;
* `lists_carriersFrom`, `lists_releasesFrom`: what one carrier leads to;
* `reached_iff_holds`: the worklist finds every carrier that has a user;
* `releases_eq_rules`: `releases` lists exactly the instructions that the rules give.
-/

namespace Relock.Guard

/-! ## The rules -/

section Rules

variable (p : Program) (lock : InstId)

/-- The instruction `u` of kind `k`, other than the lock call, uses `v`. -/
def Uses (v : Value) (u : InstId) (k : InstKind) : Prop :=
  u ∈ p.usersExcept lock v ∧ p.kindOf u = .ok k

/-- The call `u`, other than the lock call, drops `v`. -/
def Drops (v : Value) (u : InstId) : Prop :=
  u ∈ p.usersExcept lock v ∧ p.callsA isRelease u = .ok true

/-- What an unwrapping call puts the guard into: its result or, if it has none, the object that its
first argument points into. -/
inductive UnwrapsInto (u : InstId) : Value → Prop where
  | result {x : Instruction} (hx : p.inst u = .ok x) (hty : p.isVoid x.ty = .ok false) :
      UnwrapsInto u (.inst u)
  | object {x : Instruction} {out o : Value} {rest : List Value} (hx : p.inst u = .ok x)
      (hty : p.isVoid x.ty = .ok true) (hargs : x.kind.args? = some (out :: rest))
      (ho : p.underlyingObject out = .ok o) : UnwrapsInto u o

/-- The values that are the guard `result`, or come from unwrapping it. -/
inductive IsGuard (result : Value) : Value → Prop where
  | result : IsGuard result result
  | unwrapped {g o : Value} {u : InstId} (hg : IsGuard result g) (hu : u ∈ p.usersExcept lock g)
      (hcall : p.callsA isUnwrap u = .ok true) (ho : UnwrapsInto p u o) : IsGuard result o

/-- The objects that a payload is moved into: seen through the cast `c`, it is loaded from field `[0, 0]`
of field `[0, 1]` and stored somewhere in an object whose fields are used. -/
inductive MovedThrough (c : InstId) : Value → Prop where
  | moved {b b' a dest o : Value} {f q l s u : InstId} {k : InstKind} {indices : List Int}
      (hf : Uses p lock (.inst c) f (.fieldAddr b [0, 1]))
      (hq : Uses p lock (.inst f) q (.fieldAddr b' [0, 0]))
      (hl : Uses p lock (.inst q) l (.load a)) (hs : Uses p lock (.inst l) s (.store (.inst l) dest))
      (ho : p.underlyingObject dest = .ok o) (hu : u ∈ p.users o) (hk : p.kindOf u = .ok k)
      (hfield : k.indices? = some indices) : MovedThrough c o

/-- The objects that the payload of the guard `result` is moved into. -/
inductive IsRelocated (result : Value) : Value → Prop where
  | moved {g v o : Value} {c : InstId} (hg : IsGuard p lock result g) (hc : Uses p lock g c (.cast v))
      (ho : MovedThrough p lock c o) : IsRelocated result o

/-- The block that a branch on a comparison with zero goes to for other values. -/
inductive GoesOtherwise : Predicate → BlockId → BlockId → BlockId → Prop where
  | eq (thenDest elseDest : BlockId) : GoesOtherwise .eq thenDest elseDest elseDest
  | ne (thenDest elseDest : BlockId) : GoesOtherwise .ne thenDest elseDest thenDest

/-- Where a program goes on after a lock operation that failed: the discriminant, loaded through the cast
`c`, is compared with zero, and is not zero. -/
inductive FailsThrough (c : InstId) : InstId → Prop where
  | branch {a lhs rhs cond : Value} {l m br i : InstId} {pred : Predicate}
      {thenDest elseDest b : BlockId} (hl : Uses p lock (.inst c) l (.load a))
      (hm : Uses p lock (.inst l) m (.icmp pred lhs rhs)) (hzero : lhs = .const 0 ∨ rhs = .const 0)
      (hbr : Uses p lock (.inst m) br (.condBr cond thenDest elseDest))
      (hb : GoesOtherwise pred thenDest elseDest b) (hi : p.firstActiveOf b = .ok (some i)) :
      FailsThrough c i

/-- The instructions that release the guard `g`, as the user `u` of `g` shows. -/
inductive ReleasesThrough (g : Value) (u : InstId) : InstId → Prop where
  /-- The guard is dropped. -/
  | dropped (hu : p.callsA isRelease u = .ok true) : ReleasesThrough g u u
  /-- What is loaded from the guard is dropped. -/
  | loaded {a : Value} {i : InstId} (hu : p.kindOf u = .ok (.load a)) (hi : Drops p lock (.inst u) i) :
      ReleasesThrough g u i
  /-- The slot that the guard is stored in is dropped. -/
  | slot {slot : Value} {i : InstId} (hu : p.kindOf u = .ok (.store g slot))
      (hi : Drops p lock slot i) : ReleasesThrough g u i
  /-- The guard is loaded from such a slot and dropped. -/
  | reloaded {slot a : Value} {l i : InstId} (hu : p.kindOf u = .ok (.store g slot))
      (hl : Uses p lock slot l (.load a)) (hi : Drops p lock (.inst l) i) : ReleasesThrough g u i
  /-- The payload is dropped in place. -/
  | payload {v b : Value} {f i : InstId} (hu : p.kindOf u = .ok (.cast v))
      (hf : Uses p lock (.inst u) f (.fieldAddr b [0, 1])) (hi : Drops p lock (.inst f) i) :
      ReleasesThrough g u i
  /-- The lock operation failed. -/
  | failed {v : Value} {i : InstId} (hu : p.kindOf u = .ok (.cast v)) (hi : FailsThrough p lock u i) :
      ReleasesThrough g u i

/-- The instructions that release what was moved into the object `o`. -/
inductive ReleasesRelocated (o : Value) : InstId → Prop where
  /-- The object is dropped. -/
  | dropped {i : InstId} (hi : Drops p lock o i) : ReleasesRelocated o i
  /-- What is loaded from the object is dropped. -/
  | loaded {a : Value} {l i : InstId} (hl : Uses p lock o l (.load a))
      (hi : Drops p lock (.inst l) i) : ReleasesRelocated o i

/-- The instructions at which the guard `result` is released. -/
inductive ReleasedAt (result : Value) : InstId → Prop where
  | guard {g : Value} {u i : InstId} (hg : IsGuard p lock result g) (hu : u ∈ p.usersExcept lock g)
      (hi : ReleasesThrough p lock g u i) : ReleasedAt result i
  | relocated {o : Value} {i : InstId} (ho : IsRelocated p lock result o)
      (hi : ReleasesRelocated p lock o i) : ReleasedAt result i

end Rules

variable {p : Program} {lock : InstId}

/-! ## Users -/

/-- The users of a certain kind, which is known of all of them. -/
theorem lists_withKind (test : InstKind → Bool) {is : List InstId}
    (hlt : ∀ i ∈ is, i.index < p.insts.size) :
    Lists (withKind p test is) fun i => i ∈ is ∧ ∃ k, p.kindOf i = .ok k ∧ test k = true := by
  induction is with
  | nil => exact (Lists.ok []).congr (by simp)
  | cons i is ih =>
    obtain ⟨k, hk⟩ := Tables.InRange.exists_kindOf (hlt i (List.mem_cons_self ..))
    obtain ⟨rest, hrest, hmem⟩ := ih fun j hj => hlt j (List.mem_cons_of_mem _ hj)
    refine ⟨if test k then i :: rest else rest, ?_, fun j => ?_⟩
    · rw [withKind, hrest, ok_bind, hk]
      rfl
    · by_cases htest : test k = true
      · simp only [if_pos htest, List.mem_cons, hmem]
        constructor
        · rintro (rfl | ⟨hj, hpass⟩)
          · exact ⟨.inl rfl, k, hk, htest⟩
          · exact ⟨.inr hj, hpass⟩
        · rintro ⟨rfl | hj, hpass⟩
          · exact .inl rfl
          · exact .inr ⟨hj, hpass⟩
      · simp only [if_neg htest, List.mem_cons, hmem]
        constructor
        · rintro ⟨hj, hpass⟩
          exact ⟨.inr hj, hpass⟩
        · rintro ⟨rfl | hj, hpass⟩
          · -- the test fails on the kind that `j` has
            obtain ⟨k', hk', htest'⟩ := hpass
            rw [hk] at hk'
            cases hk'
            exact absurd htest' htest
          · exact ⟨hj, hpass⟩

variable (p lock) in
theorem lists_loadsOf (v : Value) : Lists (loadsOf p lock v) fun l => ∃ a, Uses p lock v l (.load a) := by
  refine (lists_withKind _ fun _ => Program.lt_of_mem_usersExcept).congr fun l => ?_
  constructor
  · rintro ⟨hl, k, hk, hload⟩
    cases k with
    | load a => exact ⟨a, hl, hk⟩
    | _ => cases hload
  · rintro ⟨a, hl, hk⟩
    exact ⟨hl, _, hk, rfl⟩

variable (p lock) in
theorem lists_fieldsOf (v : Value) (path : List Int) :
    Lists (fieldsOf p lock v path) fun f => ∃ b, Uses p lock v f (.fieldAddr b path) := by
  refine (lists_withKind _ fun _ => Program.lt_of_mem_usersExcept).congr fun f => ?_
  constructor
  · rintro ⟨hf, k, hk, hpath⟩
    cases k with
    | fieldAddr b indices =>
      -- the path is compared as a whole
      obtain rfl : indices = path := by simpa [InstKind.indices?] using hpath
      exact ⟨b, hf, hk⟩
    | _ => cases hpath
  · rintro ⟨b, hf, hk⟩
    exact ⟨hf, _, hk, by simp [InstKind.indices?]⟩

/-! ## Calls -/

/-- An instruction that calls a function by name is a call. -/
theorem isCall_of_callsA {test : String → Bool} {u : InstId} {k : InstKind}
    (h : p.callsA test u = .ok true) (hk : p.kindOf u = .ok k) : k.isCall = true := by
  obtain ⟨name, hname, -⟩ := Tables.callsA_eq_true.mp h
  obtain ⟨k', f, -, hk', hf, -⟩ := Tables.calledName_eq_some.mp hname
  rw [hk] at hk'
  cases hk'
  cases k with
  | call => rfl
  | invoke => rfl
  | _ => cases hf

/-- A call that drops its argument does not unwrap it. -/
theorem not_unwraps_of_drops {u : InstId} (h : p.callsA isRelease u = .ok true) :
    p.callsA isUnwrap u ≠ .ok true := by
  intro hunwrap
  obtain ⟨name, hname, hrelease⟩ := Tables.callsA_eq_true.mp h
  obtain ⟨name', hname', hunwrap⟩ := Tables.callsA_eq_true.mp hunwrap
  -- a call has one callee, and its name is not both
  rw [hname] at hname'
  cases hname'
  rw [isUnwrap_of_isRelease hrelease] at hunwrap
  cases hunwrap

/-! ## The rules, carrier by carrier -/

/-- The carriers that the user `u` of a guard makes. -/
inductive Makes (p : Program) (lock u : InstId) : Carrier → Prop where
  | relocated {v o : Value} (hk : p.kindOf u = .ok (.cast v)) (ho : MovedThrough p lock u o) :
      Makes p lock u (.relocated o)
  | unwrapped {o : Value} (hcall : p.callsA isUnwrap u = .ok true) (ho : UnwrapsInto p u o) :
      Makes p lock u (.guard o)

/-- What a carrier leads to in one step: the carriers that the users of a guard make. -/
def LeadsTo (p : Program) (lock : InstId) : Carrier → Carrier → Prop
  | .guard g, c => ∃ u ∈ p.usersExcept lock g, Makes p lock u c
  | .relocated _, _ => False

/-- What releases the guard that a carrier holds. -/
def ReleasesCarrier (p : Program) (lock : InstId) : Carrier → InstId → Prop
  | .guard g, i => ∃ u ∈ p.usersExcept lock g, ReleasesThrough p lock g u i
  | .relocated o, i => ReleasesRelocated p lock o i

/-- The carriers that the rules give for the guard `result`. -/
def Holds (p : Program) (lock : InstId) (result : Value) : Carrier → Prop
  | .guard g => IsGuard p lock result g
  | .relocated o => IsRelocated p lock result o

/-- What an unwrapping call puts the guard into depends on whether it has a result. -/
theorem unwrapsInto_iff {u : InstId} {x : Instruction} {void : Bool} {o : Value}
    (hx : p.inst u = .ok x) (hvoid : p.isVoid x.ty = .ok void) :
    UnwrapsInto p u o ↔ if void then ∃ out rest, x.kind.args? = some (out :: rest) ∧
      p.underlyingObject out = .ok o else o = .inst u := by
  constructor
  · rintro (⟨hx', hvoid'⟩ | ⟨hx', hvoid', hargs, ho⟩)
    -- the instruction and its type are known, so only one of the two rules is left
    all_goals
      rw [hx] at hx'
      cases hx'
      rw [hvoid] at hvoid'
      cases hvoid'
    · rfl
    · exact ⟨_, _, hargs, ho⟩
  · cases void with
    | false =>
      rintro rfl
      exact .result hx hvoid
    | true =>
      rintro ⟨out, rest, hargs, ho⟩
      exact .object hx hvoid hargs ho

/-- What the user `u` of a guard shows depends on its kind, if it does not drop the guard itself. -/
theorem releasesThrough_iff {g : Value} {u i : InstId} {k : InstKind} (hk : p.kindOf u = .ok k)
    (hdrops : p.callsA isRelease u = .ok false) :
    ReleasesThrough p lock g u i ↔ match k with
      | .load _ => Drops p lock (.inst u) i
      | .store v slot => v = g ∧
          (Drops p lock slot i ∨ ∃ l, (∃ a, Uses p lock slot l (.load a)) ∧ Drops p lock (.inst l) i)
      | .cast _ => FailsThrough p lock u i ∨
          ∃ f, (∃ b, Uses p lock (.inst u) f (.fieldAddr b [0, 1])) ∧ Drops p lock (.inst f) i
      | _ => False := by
  constructor
  · intro hi
    -- each rule is about one kind of instruction, and the kind of `u` is known
    cases hi with
    | dropped hcall =>
      rw [hdrops] at hcall
      cases hcall
    | loaded hk' hi =>
      cases hk.symm.trans hk'
      exact hi
    | slot hk' hi =>
      cases hk.symm.trans hk'
      exact ⟨rfl, .inl hi⟩
    | reloaded hk' hl hi =>
      cases hk.symm.trans hk'
      exact ⟨rfl, .inr ⟨_, ⟨_, hl⟩, hi⟩⟩
    | payload hk' hf hi =>
      cases hk.symm.trans hk'
      exact .inr ⟨_, ⟨_, hf⟩, hi⟩
    | failed hk' hi =>
      cases hk.symm.trans hk'
      exact .inl hi
  · intro hi
    cases k with
    | load a => exact .loaded hk hi
    | store v slot =>
      obtain ⟨rfl, hi | ⟨l, ⟨a, hl⟩, hi⟩⟩ := hi
      · exact .slot hk hi
      · exact .reloaded hk hl hi
    | cast v =>
      rcases hi with hi | ⟨f, ⟨b, hf⟩, hi⟩
      · exact .failed hk hi
      · exact .payload hk hf hi
    | _ => exact hi.elim

/-- What a carrier of the guard leads to is a carrier of the guard. -/
theorem holds_of_leadsTo {result : Value} {c d : Carrier} (hc : Holds p lock result c)
    (hd : LeadsTo p lock c d) : Holds p lock result d := by
  cases c with
  | guard g =>
    obtain ⟨u, hu, hmakes⟩ := hd
    cases hmakes with
    | relocated hk ho => exact IsRelocated.moved hc ⟨hu, hk⟩ ho
    | unwrapped hcall ho => exact IsGuard.unwrapped hc hu hcall ho
  | relocated o => exact hd.elim

/-- The rules, said with carriers: a release is one at some carrier. -/
theorem releasedAt_iff {result : Value} {i : InstId} :
    ReleasedAt p lock result i ↔ ∃ c, Holds p lock result c ∧ ReleasesCarrier p lock c i := by
  constructor
  · rintro (⟨hg, hu, hi⟩ | ⟨ho, hi⟩)
    · exact ⟨.guard _, hg, _, hu, hi⟩
    · exact ⟨.relocated _, ho, hi⟩
  · rintro ⟨g | o, hc, hi⟩
    · obtain ⟨u, hu, hi⟩ := hi
      exact .guard hc hu hi
    · exact .relocated hc hi

/-- A value with a user is among the carriers that the worklist starts with. -/
theorem mem_allCarriers {v : Value} {u : InstId} (hu : u ∈ p.users v) :
    .guard v ∈ allCarriers p ∧ .relocated v ∈ allCarriers p := by
  have hv : v ∈ p.usedValues := Program.mem_usedValues (List.ne_nil_of_mem hu)
  simp [allCarriers, hv]

/-- A carrier without a user releases nothing. -/
theorem mem_allCarriers_of_releases {c : Carrier} {i : InstId} (hi : ReleasesCarrier p lock c i) :
    c ∈ allCarriers p := by
  cases c with
  | guard g =>
    obtain ⟨u, hu, -⟩ := hi
    exact (mem_allCarriers (Program.mem_users_of_mem_usersExcept hu)).1
  | relocated o =>
    cases hi with
    | dropped hi => exact (mem_allCarriers (Program.mem_users_of_mem_usersExcept hi.1)).2
    | loaded hl => exact (mem_allCarriers (Program.mem_users_of_mem_usersExcept hl.1)).2

section InRange

variable (hp : p.InRange)

include hp

/-- The calls that drop a value. -/
theorem lists_dropsOf (v : Value) : Lists (dropsOf p lock v) (Drops p lock v) :=
  .filterM fun _ hu => hp.exists_callsA isRelease (Program.lt_of_mem_usersExcept hu)

/-- The calls that drop what is loaded through a value. -/
theorem lists_reloadedDropsOf (v : Value) :
    Lists (reloadedDropsOf p lock v)
      fun i => ∃ l, (∃ a, Uses p lock v l (.load a)) ∧ Drops p lock (.inst l) i :=
  (lists_loadsOf p lock v).bind fun l _ => lists_dropsOf hp (.inst l)

/-! ## Failed lock operations -/

/-- What one comparison sends a branch to when it is not zero that was compared. -/
theorem lists_failureAt (pred : Predicate) {u : InstId} (hu : u.index < p.insts.size) :
    Lists (failureAt p pred u) fun i => ∃ cond thenDest elseDest b,
      p.kindOf u = .ok (.condBr cond thenDest elseDest) ∧ GoesOtherwise pred thenDest elseDest b ∧
        p.firstActiveOf b = .ok (some i) := by
  obtain ⟨k, hk⟩ := Tables.InRange.exists_kindOf hu
  -- the blocks that a branch names exist, so the one it goes to can be looked into
  have hblocks := (hp.kindOf_within hk).blocks
  unfold failureAt
  rw [hk, ok_bind]
  cases k with
  | condBr cond thenDest elseDest =>
    -- the branch for other values, if the predicate tells it
    have hdest : ∀ b, nonzeroDest pred thenDest elseDest = some b ↔
        GoesOtherwise pred thenDest elseDest b := by
      intro b
      cases pred <;> constructor <;> intro h <;> cases h <;> constructor
    dsimp only
    cases hb : nonzeroDest pred thenDest elseDest with
    | none =>
      refine (Lists.ok []).congr fun i => ⟨by simp, ?_⟩
      rintro ⟨_, _, _, b, ⟨⟩, hgoes, -⟩
      rw [(hdest b).mpr hgoes] at hb
      cases hb
    | some b =>
      have hgoes := (hdest b).mp hb
      have hlt : b.index < p.blocks.size := by
        apply hblocks
        cases hgoes <;> simp [InstKind.blocks, InstKind.targets]
      obtain ⟨r, hr, -⟩ := hp.exists_firstActiveOf hlt
      refine ⟨r.toList, by simp [hr], fun i => ?_⟩
      rw [Option.mem_toList]
      constructor
      · rintro rfl
        exact ⟨cond, thenDest, elseDest, b, rfl, hgoes, hr⟩
      · rintro ⟨_, _, _, b', ⟨⟩, hgoes', hi⟩
        rw [(hdest b').mpr hgoes'] at hb
        cases hb
        rw [hr] at hi
        exact Except.ok.inj hi
  | _ => exact (Lists.ok []).congr (by simp)

/-- Where a comparison of the discriminant with zero leads when it was not zero. -/
theorem lists_failuresOfCompare {m : InstId} (hm : m.index < p.insts.size) :
    Lists (failuresOfCompare p lock m) fun i => ∃ pred lhs rhs,
      p.kindOf m = .ok (.icmp pred lhs rhs) ∧ (lhs = .const 0 ∨ rhs = .const 0) ∧
        ∃ br ∈ p.usersExcept lock (.inst m), ∃ cond thenDest elseDest b,
          p.kindOf br = .ok (.condBr cond thenDest elseDest) ∧
            GoesOtherwise pred thenDest elseDest b ∧ p.firstActiveOf b = .ok (some i) := by
  obtain ⟨k, hk⟩ := Tables.InRange.exists_kindOf hm
  unfold failuresOfCompare
  rw [hk, ok_bind]
  cases k with
  | icmp pred lhs rhs =>
    -- a comparison with something else than zero says nothing about the discriminant
    by_cases hzero : lhs = .const 0 ∨ rhs = .const 0
    · have hfound := Lists.flatMapM fun br (hbr : br ∈ p.usersExcept lock (.inst m)) =>
        lists_failureAt hp pred (Program.lt_of_mem_usersExcept hbr)
      simp only [Bool.or_eq_true, beq_iff_eq, if_pos hzero]
      refine hfound.congr fun i => ?_
      constructor
      · intro hbr
        exact ⟨pred, lhs, rhs, rfl, hzero, hbr⟩
      · rintro ⟨_, _, _, ⟨⟩, -, hbr⟩
        exact hbr
    · simp only [Bool.or_eq_true, beq_iff_eq, if_neg hzero]
      refine (Lists.ok []).congr fun i => ⟨by simp, ?_⟩
      rintro ⟨_, _, _, ⟨⟩, hzero', -⟩
      exact absurd hzero' hzero
  | _ => exact (Lists.ok []).congr (by simp)

/-- **The discriminant checks are exact**: the branches found are those taken when the lock operation failed. -/
theorem lists_failuresOf (c : InstId) : Lists (failuresOf p lock c) (FailsThrough p lock c) := by
  have hloads : Lists (failuresOf p lock c) _ := (lists_loadsOf p lock (.inst c)).bind fun l _ =>
    .flatMapM fun m hm => lists_failuresOfCompare hp (Program.lt_of_mem_usersExcept hm)
  -- loads, then comparisons, then branches: the rule names the same instructions
  refine hloads.congr fun i => ?_
  constructor
  · rintro ⟨l, ⟨a, hl⟩, m, hm, pred, lhs, rhs, hk, hzero, br, hbr, cond, thenDest, elseDest, b, hkbr, hb, hi⟩
    exact .branch hl ⟨hm, hk⟩ hzero ⟨hbr, hkbr⟩ hb hi
  · rintro ⟨hl, ⟨hm, hk⟩, hzero, ⟨hbr, hkbr⟩, hb, hi⟩
    exact ⟨_, ⟨_, hl⟩, _, hm, _, _, _, hk, hzero, _, hbr, _, _, _, _, hkbr, hb, hi⟩

/-! ## Payloads -/

/-- The calls that drop the payload in place. -/
theorem lists_payloadDropsOf (c : InstId) :
    Lists (payloadDropsOf p lock c) fun i => ∃ f,
      (∃ b, Uses p lock (.inst c) f (.fieldAddr b [0, 1])) ∧ Drops p lock (.inst f) i :=
  (lists_fieldsOf p lock (.inst c) payloadPath).bind fun f _ => lists_dropsOf hp (.inst f)

/-! ## Releases at a carrier -/

/-- What one user of the guard shows is released. A user that drops the guard shows nothing else, since all other
rules are about instructions that are no calls. -/
theorem lists_releasesAt {g : Value} {u : InstId} (hu : u.index < p.insts.size) :
    Lists (releasesAt p lock g u) (ReleasesThrough p lock g u) := by
  obtain ⟨k, hk⟩ := Tables.InRange.exists_kindOf hu
  obtain ⟨drops, hdrops⟩ := hp.exists_callsA isRelease hu
  unfold releasesAt
  rw [hdrops, ok_bind, hk]
  cases drops with
  | true =>
    have hcall := isCall_of_callsA hdrops hk
    refine (Lists.ok [u]).congr fun i => ?_
    rw [List.mem_singleton]
    constructor
    · rintro rfl
      exact .dropped hdrops
    · -- all other rules are about instructions that are no calls
      intro hi
      cases hi with
      | dropped => rfl
      | loaded hk' | slot hk' | reloaded hk' | payload hk' | failed hk' =>
        cases hk.symm.trans hk'
        cases hcall
  | false =>
    -- what is left to show is what the rules say about this kind
    have hiff (i : InstId) := (@releasesThrough_iff p lock g u i k hk hdrops).symm
    cases k with
    | load a => exact (lists_dropsOf hp _).congr hiff
    | store v slot =>
      -- a store that uses the guard as its address does not keep it
      by_cases hv : v = g
      · subst hv
        simp only [Bool.false_eq_true, if_false, ok_bind, beq_self_eq_true, if_true]
        refine ((lists_dropsOf hp slot).append (lists_reloadedDropsOf hp slot)).congr fun i => ?_
        rw [← hiff]
        simp only [true_and]
      · simp only [Bool.false_eq_true, if_false, ok_bind, beq_iff_eq, if_neg hv]
        refine (Lists.ok []).congr fun i => ?_
        rw [← hiff]
        simp [hv]
    | cast v => exact ((lists_failuresOf hp u).append (lists_payloadDropsOf hp u)).congr hiff
    | _ => exact (Lists.ok []).congr fun i => by simp [← hiff]

/-- **Step lemma**: the releases at one carrier. -/
theorem lists_releasesFrom (c : Carrier) : Lists (releasesFrom p lock c) (ReleasesCarrier p lock c) := by
  cases c with
  | guard g => exact .flatMapM fun u hu => lists_releasesAt hp (Program.lt_of_mem_usersExcept hu)
  | relocated o =>
    refine ((lists_dropsOf hp o).append (lists_reloadedDropsOf hp o)).congr fun i => ?_
    constructor
    · rintro (hi | ⟨l, ⟨a, hl⟩, hi⟩)
      · exact .dropped hi
      · exact .loaded hl hi
    · rintro (hi | ⟨hl, hi⟩)
      · exact .inl hi
      · exact .inr ⟨_, ⟨_, hl⟩, hi⟩

/-- Releases are entries of the instruction table. -/
theorem lt_of_releasedAt {result : Value} {i : InstId} (hi : ReleasedAt p lock result i) :
    i.index < p.insts.size := by
  rcases hi with ⟨-, hu, hi⟩ | ⟨-, hi⟩
  · cases hi with
    | dropped => exact Program.lt_of_mem_usersExcept hu
    | loaded _ hi | slot _ hi | reloaded _ _ hi | payload _ _ hi => exact Program.lt_of_mem_usersExcept hi.1
    -- the first instruction of a block that a branch goes to
    | failed hk hi =>
      obtain ⟨-, -, -, -, -, hfirst⟩ := hi
      exact hp.lt_of_firstActiveOf hfirst
  · rcases hi with hi | ⟨-, hi⟩ <;> exact Program.lt_of_mem_usersExcept hi.1

/-! ## Carriers -/

variable (hends : p.ChainsEnd)

include hends

/-- The object that an operand points into can be found. -/
theorem exists_underlyingObject {u : InstId} {k : InstKind} {v : Value} (hk : p.kindOf u = .ok k)
    (hv : v ∈ k.operands) : ∃ o, p.underlyingObject v = .ok o := by
  obtain ⟨n, o, ho⟩ := hends v
  exact ⟨o, ho.underlyingObject hp ((hp.kindOf_within hk).operands v hv)⟩

/-- One store of what was loaded from the payload. The object counts only if its fields are used. -/
theorem lists_relocationAt (l : InstId) {s : InstId} (hs : s.index < p.insts.size) :
    Lists (relocationAt p l s) fun o => ∃ dest, p.kindOf s = .ok (.store (.inst l) dest) ∧
      p.underlyingObject dest = .ok o ∧
        ∃ u ∈ p.users o, ∃ k, p.kindOf u = .ok k ∧ ∃ indices, k.indices? = some indices := by
  obtain ⟨k, hk⟩ := Tables.InRange.exists_kindOf hs
  unfold relocationAt
  rw [hk, ok_bind]
  cases k with
  | store v dest =>
    -- the value loaded has to be what is stored, not where to
    by_cases hv : v = .inst l
    · subst hv
      obtain ⟨object, hobject⟩ := exists_underlyingObject hp hends hk (v := dest) (by simp [InstKind.operands])
      obtain ⟨fields, hfields, hmem⟩ :=
        lists_withKind (p := p) (fun k => k.indices?.isSome) fun _ => Program.lt_of_mem_users (v := object)
      refine ⟨if fields.isEmpty then [] else [object], ?_, fun o => ?_⟩
      · simp only [beq_self_eq_true, if_true, hobject, ok_bind, hfields]
        rfl
      · -- the object counts if the users found are not none
        have hused : fields ≠ [] ↔ ∃ u ∈ p.users object, ∃ k, p.kindOf u = .ok k ∧
            ∃ indices, k.indices? = some indices := by
          simp only [ne_eq, List.eq_nil_iff_forall_not_mem, hmem, Classical.not_forall,
            Classical.not_not, Option.isSome_iff_exists]
        simp only [List.isEmpty_iff]
        constructor
        · intro ho
          by_cases hnil : fields = []
          · simp [hnil] at ho
          · rw [if_neg hnil, List.mem_singleton] at ho
            subst ho
            exact ⟨dest, rfl, hobject, hused.mp hnil⟩
        · rintro ⟨dest', ⟨⟩, ho, hfield⟩
          rw [hobject] at ho
          cases ho
          rw [if_neg (hused.mpr hfield)]
          exact List.mem_singleton_self _
    · simp only [beq_iff_eq, if_neg hv]
      refine (Lists.ok []).congr fun o => ⟨by simp, ?_⟩
      rintro ⟨dest', ⟨⟩, -⟩
      exact absurd rfl hv
  | _ => exact (Lists.ok []).congr (by simp)

/-- **The payload moves are exact**: the objects found are those that the payload was moved into, seen through one
cast. -/
theorem lists_relocationsOf (c : InstId) :
    Lists (relocationsOf p lock c) (MovedThrough p lock c) := by
  -- one more use at a time: the payload, the pointer in it, what is loaded from there, the stores of that
  have hinner := (lists_fieldsOf p lock (.inst c) payloadPath).bind fun f _ =>
    lists_fieldsOf p lock (.inst f) innerPath
  have hloads := hinner.bind fun q _ => lists_loadsOf p lock (.inst q)
  have hmoves := hloads.bind fun l _ => Lists.flatMapM fun s (hs : s ∈ p.usersExcept lock (.inst l)) =>
    lists_relocationAt hp hends l (Program.lt_of_mem_usersExcept hs)
  simp only [bind_assoc, pure_bind] at hmoves
  refine hmoves.congr fun o => ?_
  constructor
  · rintro ⟨l, ⟨q, ⟨f, ⟨b, hf⟩, b', hq⟩, a, hl⟩, s, hs, dest, hk, ho, u, hu, k, hku, indices, hfield⟩
    exact .moved hf hq hl ⟨hs, hk⟩ ho hu hku hfield
  · rintro ⟨hf, hq, hl, ⟨hs, hk⟩, ho, hu, hku, hfield⟩
    exact ⟨_, ⟨_, ⟨_, ⟨_, hf⟩, _, hq⟩, _, hl⟩, _, hs, _, hk, ho, _, hu, _, hku, _, hfield⟩

/-- What an unwrapping call puts the guard into. -/
theorem lists_unwrapped {u : InstId} (hu : u.index < p.insts.size) :
    Lists (unwrapped p u) (UnwrapsInto p u) := by
  obtain ⟨x, hmem, hx⟩ : ∃ x ∈ p.insts, p.inst u = .ok x := exists_lookUp hu
  obtain ⟨void, hvoid⟩ := Tables.InRange.exists_isVoid (hp.within.results x hmem)
  suffices h : Lists (unwrapped p u) fun o => if void then ∃ out rest,
      x.kind.args? = some (out :: rest) ∧ p.underlyingObject out = .ok o else o = .inst u from
    h.congr fun o => (unwrapsInto_iff hx hvoid).symm
  unfold unwrapped
  rw [hx, ok_bind, hvoid, ok_bind]
  cases void with
  | false => exact (Lists.ok [Value.inst u]).congr (by simp)
  | true =>
    cases hargs : x.kind.args?.getD [] with
    -- without a result and without arguments the guard is lost
    | nil =>
      refine (Lists.ok []).congr fun o => ⟨by simp, ?_⟩
      rintro ⟨out, rest, hsome, -⟩
      rw [hsome] at hargs
      cases hargs
    | cons out rest =>
      have hsome : x.kind.args? = some (out :: rest) := by
        cases hnone : x.kind.args? with
        | none => simp [hnone] at hargs
        | some args => simpa [hnone] using hargs
      -- the first argument is an operand, so its chain ends
      have hout := InstKind.mem_operands_of_args hsome (List.mem_cons_self ..)
      obtain ⟨o, ho⟩ := exists_underlyingObject hp hends (Tables.kindOf_of_inst hx) hout
      refine ⟨[o], by simp [ho], fun o' => ?_⟩
      rw [List.mem_singleton]
      constructor
      · rintro rfl
        exact ⟨out, rest, hsome, ho⟩
      · rintro ⟨out', rest', hsome', ho'⟩
        rw [hsome] at hsome'
        cases hsome'
        rw [ho] at ho'
        exact (Except.ok.inj ho').symm

/-- The carriers that one user of a guard makes. -/
theorem lists_carriersAt {u : InstId} (hu : u.index < p.insts.size) :
    Lists (carriersAt p lock u) (Makes p lock u) := by
  obtain ⟨k, hk⟩ := Tables.InRange.exists_kindOf hu
  obtain ⟨drops, hdrops⟩ := hp.exists_callsA isRelease hu
  obtain ⟨unwraps, hunwraps⟩ := hp.exists_callsA isUnwrap hu
  have hcall : unwraps = true → k.isCall = true := by
    rintro rfl
    exact isCall_of_callsA hunwraps hk
  unfold carriersAt
  rw [hdrops, ok_bind, hk]
  cases drops with
  | true =>
    -- a call that drops the guard is no cast, and no name is both a release and an unwrapping
    refine (Lists.ok []).congr fun c => ⟨by simp, ?_⟩
    rintro (⟨hcast, -⟩ | ⟨hcall, -⟩)
    · cases isCall_of_callsA hdrops hcast
    · exact absurd hcall (not_unwraps_of_drops hdrops)
  | false =>
    -- what an instruction other than a cast makes
    have hother (hno : ∀ v, k ≠ .cast v) (c : Carrier) :
        Makes p lock u c ↔ unwraps = true ∧ ∃ o, UnwrapsInto p u o ∧ .guard o = c := by
      constructor
      · rintro (⟨hcast, -⟩ | ⟨hcall, ho⟩)
        · exact absurd (Except.ok.inj (hk.symm.trans hcast)) (hno _)
        · exact ⟨Except.ok.inj (hunwraps.symm.trans hcall), _, ho, rfl⟩
      · rintro ⟨rfl, o, ho, rfl⟩
        exact .unwrapped hunwraps ho
    have hunwrapped (hno : ∀ v, k ≠ .cast v) : Lists (do
        if ← p.callsA isUnwrap u then return (← unwrapped p u).map Carrier.guard
        return []) (Makes p lock u) := by
      rw [hunwraps, ok_bind]
      cases unwraps with
      | false => exact (Lists.ok []).congr fun c => by simp [hother hno]
      | true => exact ((lists_unwrapped hp hends hu).map Carrier.guard).congr fun c => by simp [hother hno]
    cases k with
    | cast v =>
      refine ((lists_relocationsOf hp hends u).map Carrier.relocated).congr fun c => ?_
      constructor
      · rintro ⟨o, ho, rfl⟩
        exact .relocated hk ho
      · rintro (⟨-, ho⟩ | ⟨hcall, -⟩)
        · exact ⟨_, ho, rfl⟩
        · cases isCall_of_callsA hcall hk
    | call => exact hunwrapped nofun
    | invoke => exact hunwrapped nofun
    | _ =>
      refine (Lists.ok []).congr fun c => ?_
      rw [hother nofun]
      simp [show unwraps ≠ true from fun h => by cases hcall h]

/-- **Step lemma**: one round of the worklist finds what a carrier leads to. -/
theorem lists_carriersFrom (c : Carrier) : Lists (carriersFrom p lock c) (LeadsTo p lock c) := by
  cases c with
  | guard g => exact .flatMapM fun u hu => lists_carriersAt hp hends (Program.lt_of_mem_usersExcept hu)
  | relocated o => exact (Lists.ok []).congr (by simp [LeadsTo])

/-! ## All carriers -/

/-- A carrier with a user that is led to is reached. -/
theorem reached_of_leadsTo {result : Value} {c d : Carrier}
    (hc : Reached (carriersFrom p lock) (allCarriers p) [.guard result] c) (hd : LeadsTo p lock c d)
    (hfresh : d ∈ allCarriers p) :
    Reached (carriersFrom p lock) (allCarriers p) [.guard result] d := by
  obtain ⟨more, hmore, hmem⟩ := lists_carriersFrom hp hends c
  exact .step hc hmore ((hmem d).mpr hd) hfresh

/-- **Run lemma**: the worklist finds the carriers that the rules give, those without a user apart. -/
theorem reached_iff_holds {result : Value} {c : Carrier} :
    Reached (carriersFrom p lock) (allCarriers p) [.guard result] c ↔
      Holds p lock result c ∧ c ∈ allCarriers p := by
  constructor
  · -- what the worklist reaches the rules give, step by step
    intro h
    induction h with
    | start hwork hfresh =>
      obtain rfl := List.mem_singleton.mp hwork
      exact ⟨IsGuard.result, hfresh⟩
    | @step c d more _ hnext hd hfresh ih =>
      have hleads := ((lists_carriersFrom hp hends c).mem_iff hnext).mp hd
      exact ⟨holds_of_leadsTo ih.1 hleads, hfresh⟩
  · -- a guard that leads on has a user, so the worklist does not leave it out
    have hguard {g : Value} (hg : IsGuard p lock result g) (hfresh : .guard g ∈ allCarriers p) :
        Reached (carriersFrom p lock) (allCarriers p) [.guard result] (.guard g) := by
      induction hg with
      | result => exact .start (List.mem_singleton_self _) hfresh
      | unwrapped _ hu hcall ho ih =>
        have hfrom := (mem_allCarriers (Program.mem_users_of_mem_usersExcept hu)).1
        exact reached_of_leadsTo hp hends (ih hfrom) ⟨_, hu, .unwrapped hcall ho⟩ hfresh
    rintro ⟨hc, hfresh⟩
    cases c with
    | guard g => exact hguard hc hfresh
    | relocated o =>
      obtain ⟨hg, ⟨hu, hk⟩, ho⟩ := hc
      have hfrom := (mem_allCarriers (Program.mem_users_of_mem_usersExcept hu)).1
      exact reached_of_leadsTo hp hends (hguard hg hfrom) ⟨_, hu, .relocated hk ho⟩ hfresh

/-! ## All releases -/

variable (lock) in
/-- What is found at the carriers that the worklist finds is what the rules give. -/
theorem lists_found (result : Value) :
    Lists (do return (← (← carriers p lock result).mapM (releasesFrom p lock)).flatten)
      (ReleasedAt p lock result) := by
  have hcarriers : Lists (carriers p lock result) _ :=
    lists_reach fun c _ => (lists_carriersFrom hp hends c).imp fun _ => And.left
  refine (hcarriers.bind fun c _ => lists_releasesFrom hp c).congr fun i => ?_
  -- the carriers that the worklist leaves out have no user, so nothing is released at them
  rw [releasedAt_iff]
  constructor
  · rintro ⟨c, hc, hi⟩
    exact ⟨c, ((reached_iff_holds hp hends).mp hc).1, hi⟩
  · rintro ⟨c, hc, hi⟩
    exact ⟨c, (reached_iff_holds hp hends).mpr ⟨hc, mem_allCarriers_of_releases hi⟩, hi⟩

variable (lock) in
/-- The releases are put into the order of the instruction table. -/
theorem exists_releases (result : Value) : ∃ found : List InstId,
    releases p lock result = .ok (p.instIds.filter (found.contains ·)) ∧
      ∀ i, i ∈ found ↔ ReleasedAt p lock result i := by
  obtain ⟨found, hfound, hmem⟩ := lists_found lock hp hends result
  refine ⟨found, ?_, hmem⟩
  obtain ⟨cs, hcs, hfound⟩ := bind_eq_ok.mp hfound
  obtain ⟨perCarrier, hper, hfound⟩ := bind_eq_ok.mp hfound
  cases hfound
  rw [releases, hcs, ok_bind, hper]
  rfl

end InRange

/-- **The release tracer is exact**: `releases` lists exactly the instructions that the rules give, each once and
in the order of the instruction table. It returns whatever cycles the uses of a program form. -/
theorem releases_eq_rules (p : Program) (hp : p.InRange) (hends : p.ChainsEnd) (lock : InstId)
    (result : Value) :
    ∃ rs, releases p lock result = .ok rs ∧ rs.Pairwise (fun i j => i.index < j.index) ∧
      ∀ i, i ∈ rs ↔ ReleasedAt p lock result i := by
  obtain ⟨found, hreleases, hmem⟩ := exists_releases lock hp hends result
  refine ⟨p.instIds.filter (found.contains ·), hreleases, ?_, fun i => ?_⟩
  · -- the table lists its instructions in order, and a filter keeps the order
    apply List.Pairwise.filter
    rw [Tables.instIds, List.pairwise_map]
    exact List.pairwise_lt_range
  · rw [List.mem_filter, List.contains_iff_mem, hmem, Tables.mem_instIds]
    exact and_iff_right_of_imp (lt_of_releasedAt hp)

/-- A program in which two slots are unwrapped into each other after the guard was put into one of them,
and the other one is dropped. -/
def slotsUnwrappedInTurn : Program :=
  let call (f : Nat) (args : List Nat) : InstKind := .call (.direct ⟨f⟩) (args.map fun i => .inst ⟨i⟩)
  .ofTables
    { types := #[.void, .int 64, .pointer .word]
      globals := #[]
      functions := #[⟨"lock", [], ⟨2⟩, []⟩, ⟨"core::result::Result<T>::unwrap", [⟨2⟩, ⟨2⟩], .void, []⟩,
        ⟨"core::mem::drop", [⟨2⟩], .void, []⟩, ⟨"main", [], .void, [⟨0⟩]⟩]
      blocks := #[⟨"entry", ⟨3⟩, (List.range 8).map InstId.mk⟩]
      insts := #[⟨.alloca, ⟨2⟩, ⟨0⟩, none⟩, ⟨.alloca, ⟨2⟩, ⟨0⟩, none⟩, ⟨call 0 [], ⟨2⟩, ⟨0⟩, none⟩,
        ⟨call 1 [1, 2], .void, ⟨0⟩, none⟩, ⟨call 1 [0, 1], .void, ⟨0⟩, none⟩,
        ⟨call 1 [1, 0], .void, ⟨0⟩, none⟩, ⟨call 2 [0], .void, ⟨0⟩, none⟩, ⟨.ret none, .void, ⟨0⟩, none⟩] }

/-- The tracer returns although the slots are unwrapped into each other, and finds the one drop. -/
theorem released_slotsUnwrappedInTurn :
    slotsUnwrappedInTurn.InRange ∧ slotsUnwrappedInTurn.ChainsEnd ∧
      ∀ i, ReleasedAt slotsUnwrappedInTurn ⟨2⟩ (.inst ⟨2⟩) i ↔ i = ⟨6⟩ := by
  have hrange : slotsUnwrappedInTurn.InRange := by decide +kernel
  have hends : slotsUnwrappedInTurn.ChainsEnd := (Tables.chainsEnd_iff hrange).mpr (by decide +kernel)
  obtain ⟨rs, hrs, -, hmem⟩ := releases_eq_rules slotsUnwrappedInTurn hrange hends ⟨2⟩ (.inst ⟨2⟩)
  -- the tracer is run on the program; what it finds is then what the rules give
  have hfound : (releases slotsUnwrappedInTurn ⟨2⟩ (.inst ⟨2⟩)).toOption = some [⟨6⟩] := by decide +kernel
  obtain rfl : rs = [⟨6⟩] := by simpa [hrs, Except.toOption] using hfound
  refine ⟨hrange, hends, fun i => ?_⟩
  rw [← hmem, List.mem_singleton]

end Relock.Guard
