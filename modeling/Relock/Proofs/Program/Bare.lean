import Relock.Proofs.Program.Chain
import Relock.Proofs.Program.DefUse

/-!
# Programs without the values of their markers

A phi names the values that it chooses from and a debug marker the values that it describes. Every question
about a program passes such instructions by, so the answer is the same for the program without these values.
Only the users of a value are fewer then, since phis and debug markers are none any more.

* `Tables.bare`, `Program.bare`: a program without the values of its phis and debug markers;
* `Tables.kindOf_bare`, `Tables.functionOf_bare`, …: the questions that look at an instruction;
* `Tables.derivation_bare`, `Tables.chainsEnd_bare`: chains of casts and field addresses;
* `Tables.InRange.bare`: fewer indices are in range as well;
* `Program.mem_users_bare`: the users that are left.
-/

namespace Relock

namespace InstKind

/-- The instruction without the values that a phi or a debug marker names. -/
def bare : InstKind → InstKind
  | .phi _ => .phi []
  | .debug _ => .debug []
  | k => k

/-- Phis and debug markers stay what they are. -/
theorem isSkipped_bare (k : InstKind) : k.bare.isSkipped = k.isSkipped := by
  cases k <;> rfl

theorem args?_bare (k : InstKind) : k.bare.args? = k.args? := by
  cases k <;> rfl

theorem bare_of_not_skipped {k : InstKind} (hk : k.isSkipped = false) : k.bare = k := by
  cases k with
  | phi => cases hk
  | debug => cases hk
  | _ => rfl

/-- Phis and debug markers lose their operands, and no other instruction does. -/
theorem mem_operands_bare {k : InstKind} {v : Value} :
    v ∈ k.bare.operands ↔ v ∈ k.operands ∧ k.isSkipped = false := by
  cases k <;> simp [bare, operands, isSkipped]

theorem Within.bare {n : Sizes} {k : InstKind} (h : k.Within n) : k.bare.Within n := by
  cases k with
  | phi => exact ⟨nofun, nofun, nofun⟩
  | debug => exact ⟨nofun, nofun, nofun⟩
  | _ => exact h

end InstKind

/-- An instruction without the values of a phi or a debug marker. -/
def Instruction.bare (x : Instruction) : Instruction := { x with kind := x.kind.bare }

/-- Tables without the values of phis and debug markers. -/
def Tables.bare (t : Tables) : Tables := { t with insts := t.insts.map Instruction.bare }

/-- A program without the values of its phis and debug markers. -/
def Program.bare (p : Program) : Program := .ofTables p.toTables.bare

namespace Tables

variable {t : Tables}

/-! ## Looking at instructions -/

theorem getElem?_insts_bare (n : Nat) : t.bare.insts[n]? = t.insts[n]?.map Instruction.bare :=
  Array.getElem?_map

/-- What is looked up is the instruction without these values. -/
theorem inst_bare (i : InstId) : t.bare.inst i = Instruction.bare <$> t.inst i := by
  unfold inst lookUp
  rw [getElem?_insts_bare]
  cases t.insts[i.index]? <;> rfl

theorem kindOf_bare (i : InstId) : t.bare.kindOf i = InstKind.bare <$> t.kindOf i := by
  unfold kindOf
  rw [inst_bare]
  cases t.inst i <;> rfl

section Bind

variable {β : Type}

/-- A question that does not look at the values of a phi or a debug marker has the same answer without
them. -/
theorem inst_bare_bind {f g : Instruction → Except Fault β} (h : ∀ x, f x.bare = g x) (i : InstId) :
    (t.bare.inst i >>= f) = t.inst i >>= g := by
  rw [inst_bare]
  cases t.inst i with
  | error e => rfl
  | ok x => exact h x

theorem kindOf_bare_bind {f g : InstKind → Except Fault β} (h : ∀ k, f k.bare = g k) (i : InstId) :
    (t.bare.kindOf i >>= f) = t.kindOf i >>= g := by
  rw [kindOf_bare]
  cases t.kindOf i with
  | error e => rfl
  | ok k => exact h k

end Bind

/-- An instruction that is neither a phi nor a debug marker stays as it is. -/
theorem kindOf_bare_eq_ok {i : InstId} {k : InstKind} (hk : k.isSkipped = false) :
    t.bare.kindOf i = .ok k ↔ t.kindOf i = .ok k := by
  rw [kindOf_bare, map_eq_ok]
  constructor
  · -- what is no phi afterwards was none before
    rintro ⟨k', hk', rfl⟩
    rw [InstKind.isSkipped_bare] at hk
    rw [hk', InstKind.bare_of_not_skipped hk]
  · intro h
    exact ⟨k, h, InstKind.bare_of_not_skipped hk⟩

@[simp] theorem size_insts_bare : t.bare.insts.size = t.insts.size := Array.size_map

@[simp] theorem instIds_bare : t.bare.instIds = t.instIds := by
  unfold instIds
  rw [size_insts_bare]

@[simp] theorem functionOf_bare (i : InstId) : t.bare.functionOf i = t.functionOf i :=
  inst_bare_bind (fun _ => rfl) i

@[simp] theorem functionName_bare (i : InstId) : t.bare.functionName i = t.functionName i := by
  unfold functionName
  rw [functionOf_bare]
  rfl

@[simp] theorem valueType_bare (v : Value) : t.bare.valueType v = t.valueType v := by
  cases v with
  | inst i => exact inst_bare_bind (fun _ => rfl) i
  | _ => rfl

@[simp] theorem describe_bare (i : InstId) : t.bare.describe i = t.describe i := by
  unfold describe
  refine inst_bare_bind (fun x => ?_) i
  rw [functionName_bare]
  rfl

/-- A block keeps its terminator, since no phi and no debug marker is one. -/
@[simp] theorem terminator_bare (b : BlockId) : t.bare.terminator b = t.terminator b := by
  unfold terminator
  refine bind_congr fun x => ?_
  cases x.insts.getLast? with
  | none => rfl
  | some i => exact kindOf_bare_bind (fun k => by cases k <;> rfl) i

/-- Control flow stays the same. -/
@[simp] theorem successors_bare (b : BlockId) : t.bare.successors b = t.successors b := by
  unfold successors
  rw [terminator_bare]
  refine bind_congr fun last => ?_
  cases last with
  | none => rfl
  | some i => exact kindOf_bare_bind (fun k => by cases k <;> rfl) i

@[simp] theorem isSkipped_bare (i : InstId) : t.bare.isSkipped i = t.isSkipped i :=
  kindOf_bare_bind (fun k => by cases k <;> rfl) i

/-- What is passed over stays the same. -/
theorem firstActive_bare (is : List InstId) : t.bare.firstActive is = t.firstActive is := by
  induction is with
  | nil => rfl
  | cons i is ih =>
    unfold firstActive
    rw [isSkipped_bare, ih]

@[simp] theorem firstActiveOf_bare (b : BlockId) : t.bare.firstActiveOf b = t.firstActiveOf b :=
  bind_congr fun x => firstActive_bare x.insts

@[simp] theorem isLandingPadBlock_bare (b : BlockId) : t.bare.isLandingPadBlock b = t.isLandingPadBlock b := by
  unfold isLandingPadBlock
  rw [firstActiveOf_bare]
  refine bind_congr fun first => ?_
  cases first with
  | none => rfl
  | some i => exact kindOf_bare_bind (fun k => by cases k <;> rfl) i

@[simp] theorem calledFunction_bare (i : InstId) : t.bare.calledFunction i = t.calledFunction i :=
  kindOf_bare_bind (fun k => by cases k <;> rfl) i

@[simp] theorem calledName_bare (i : InstId) : t.bare.calledName i = t.calledName i := by
  unfold calledName
  rw [calledFunction_bare]
  rfl

@[simp] theorem callsA_bare (test : String → Bool) (i : InstId) : t.bare.callsA test i = t.callsA test i := by
  unfold callsA
  rw [calledName_bare]

/-! ## Chains -/

theorem stripCastsWithin_bare (fuel : Nat) (v : Value) :
    t.bare.stripCastsWithin fuel v = t.stripCastsWithin fuel v := by
  induction fuel generalizing v with
  | zero => rfl
  | succ fuel ih =>
    cases v with
    | inst i =>
      -- only a cast goes on, and a cast stays as it is
      refine kindOf_bare_bind (fun k => ?_) i
      cases k with
      | cast w => exact ih w
      | _ => rfl
    | _ => rfl

@[simp] theorem stripCasts_bare (v : Value) : t.bare.stripCasts v = t.stripCasts v := by
  unfold stripCasts
  rw [size_insts_bare, stripCastsWithin_bare]

theorem derivationWithin_bare (fuel : Nat) (segments : List (List Int)) (v : Value) :
    t.bare.derivationWithin fuel segments v = t.derivationWithin fuel segments v := by
  induction fuel generalizing segments v with
  | zero => rfl
  | succ fuel ih =>
    cases v with
    | inst i =>
      -- casts and field addresses stay as they are, and nothing else goes on
      refine kindOf_bare_bind (fun k => ?_) i
      cases k with
      | cast w => exact ih segments w
      | fieldAddr base indices => exact ih (indices :: segments) base
      | _ => rfl
    | _ => rfl

@[simp] theorem derivation_bare (v : Value) : t.bare.derivation v = t.derivation v := by
  unfold derivation
  rw [size_insts_bare, derivationWithin_bare]

@[simp] theorem underlyingObject_bare (v : Value) : t.bare.underlyingObject v = t.underlyingObject v := by
  unfold underlyingObject
  rw [derivation_bare]

/-- A phi has no origin that a chain could go on to, with its values or without them. -/
theorem origin?_bare (v : Value) : t.bare.origin? v = t.origin? v := by
  cases v with
  | inst i =>
    show (t.bare.insts[i.index]?).bind _ = (t.insts[i.index]?).bind _
    rw [getElem?_insts_bare]
    cases t.insts[i.index]? with
    | none => rfl
    | some x =>
      show x.kind.bare.origin? = x.kind.origin?
      cases x.kind <;> rfl
  | _ => rfl

/-- A chain depends on nothing but the casts and field addresses. -/
theorem EndsIn.congr {t' : Tables} (horigin : ∀ v, t'.origin? v = t.origin? v) {n : Nat} {v o : Value}
    (h : t.EndsIn n v o) : t'.EndsIn n v o := by
  induction h with
  | stop hnone => exact .stop ((horigin _).trans hnone)
  | step hsome _ ih => exact .step ((horigin _).trans hsome) ih

/-- **Chains end in one program exactly if they do in the other.** -/
theorem chainsEnd_bare : t.bare.ChainsEnd ↔ t.ChainsEnd := by
  constructor
  · intro h v
    obtain ⟨n, o, ho⟩ := h v
    exact ⟨n, o, ho.congr fun w => (origin?_bare w).symm⟩
  · intro h v
    obtain ⟨n, o, ho⟩ := h v
    exact ⟨n, o, ho.congr origin?_bare⟩

/-! ## Indices in range -/

/-- Indices stay in range. -/
theorem InRange.bare (h : t.InRange) : t.bare.InRange := by
  have hsizes : t.bare.sizes = t.sizes := by
    unfold sizes
    rw [size_insts_bare]
    rfl
  have hwithin := h.within
  -- every instruction comes from one with the same type and block
  have hinst {P : Instruction → Prop} (hP : ∀ x ∈ t.insts, P x.bare) : ∀ x ∈ t.bare.insts, P x := by
    intro x hx
    obtain ⟨y, hy, rfl⟩ := Array.mem_map.mp hx
    exact hP y hy
  refine ⟨?_, h.word⟩
  rw [hsizes]
  exact {
    types := hwithin.types
    globals := hwithin.globals
    params := hwithin.params
    rets := hwithin.rets
    bodies := hwithin.bodies
    owners := hwithin.owners
    listed := hwithin.listed
    results := hinst hwithin.results
    parents := hinst hwithin.parents
    kinds := hinst fun x hx => (hwithin.kinds x hx).bare }

end Tables

/-! ## Users -/

namespace Program

variable {p : Program}

/-- The users that are left are neither phis nor debug markers. -/
theorem mem_users_bare {u : InstId} {v : Value} :
    u ∈ p.bare.users v ↔ u ∈ p.users v ∧ ∃ k, p.kindOf u = .ok k ∧ k.isSkipped = false := by
  -- the kind of a user is read off the table
  have hkindOf {x : Instruction} (hx : p.insts[u.index]? = some x) : p.kindOf u = .ok x.kind :=
    Tables.kindOf_of_inst (Tables.inst_eq_ok.mpr hx)
  have hinsts : p.bare.insts[u.index]? = p.insts[u.index]?.map Instruction.bare :=
    Tables.getElem?_insts_bare u.index
  rw [mem_users, mem_users, hinsts]
  constructor
  · rintro ⟨hconst, x, hx, hv⟩
    obtain ⟨y, hy, rfl⟩ := Option.map_eq_some_iff.mp hx
    obtain ⟨hv, hskipped⟩ := InstKind.mem_operands_bare.mp hv
    exact ⟨⟨hconst, y, hy, hv⟩, y.kind, hkindOf hy, hskipped⟩
  · rintro ⟨⟨hconst, x, hx, hv⟩, k, hk, hskipped⟩
    rw [hkindOf hx] at hk
    cases hk
    exact ⟨hconst, x.bare, by rw [hx]; rfl, InstKind.mem_operands_bare.mpr ⟨hv, hskipped⟩⟩

end Program

end Relock
