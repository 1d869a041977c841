import Relock.Alias
import Relock.Proofs.Persistence
import Relock.Proofs.Program.Chain
import Relock.Proofs.Program.DefUse

/-!
# Programs that grow

A program grows when its tables get more entries and keep the old ones as they are. Every question that
has an answer then keeps it. The users of a value are another matter, as a new instruction may use an old
value; they stay the same if the operands of the new instructions lie outside the old tables.

* `Tables.ExtendsTo`: all entries are kept;
* `Tables.ExtendsTo.kindOf`, `Tables.ExtendsTo.derivation`, …: answers that persist;
* `Tables.ExtendsTo.exists_bodies`: the new bodies come last;
* `Tables.ExtendsApart`: no new instruction uses an old value;
* `Program.users_of_extendsApart`: old values have no new users.
-/

namespace Relock

/-- Tables that have all the entries of `t`, and perhaps more. -/
structure Tables.ExtendsTo (t t' : Tables) : Prop where
  type : ∀ i, Persists (t.type i) (t'.type i)
  global : ∀ i, Persists (t.global i) (t'.global i)
  function : ∀ i, Persists (t.function i) (t'.function i)
  block : ∀ i, Persists (t.block i) (t'.block i)
  inst : ∀ i, Persists (t.inst i) (t'.inst i)
  sizes : t.sizes.Le t'.sizes

namespace Tables.ExtendsTo

variable {t t' : Tables} (h : t.ExtendsTo t')

include h

/-! ## Single entries -/

/-- An instruction goes on to do what it does. -/
theorem kindOf (i : InstId) : Persists (t.kindOf i) (t'.kindOf i) :=
  (h.inst i).bind_pure _

/-- A function goes on to list the same instructions. -/
theorem instsOf (f : FunctionId) : Persists (t.instsOf f) (t'.instsOf f) :=
  (h.function f).bind fun _ _ => (Persists.mapM fun b _ => (h.block b).bind_pure _).bind_pure _

theorem functionOf (i : InstId) : Persists (t.functionOf i) (t'.functionOf i) :=
  (h.inst i).bind fun x _ => (h.block x.block).bind_pure _

theorem functionName (i : InstId) : Persists (t.functionName i) (t'.functionName i) :=
  (h.functionOf i).bind fun f _ => (h.function f).bind_pure _

theorem valueType (v : Value) : Persists (t.valueType v) (t'.valueType v) := by
  cases v with
  | inst i => exact (h.inst i).bind_pure _
  | arg f n => exact (h.function f).bind_pure _
  | global g => exact (h.global g).bind_pure _
  | const n => exact .refl _

theorem pointee (i : TypeId) : Persists (t.pointee i) (t'.pointee i) :=
  (h.type i).bind_pure _

theorem isRecord (i : TypeId) : Persists (t.isRecord i) (t'.isRecord i) :=
  (h.type i).bind_pure _

theorem isVoid (i : TypeId) : Persists (t.isVoid i) (t'.isVoid i) :=
  (h.type i).bind_pure _

theorem isSkipped (i : InstId) : Persists (t.isSkipped i) (t'.isSkipped i) :=
  (h.kindOf i).bind_pure _

theorem calledFunction (i : InstId) : Persists (t.calledFunction i) (t'.calledFunction i) :=
  (h.kindOf i).bind_pure _

/-- A call keeps its callee, and the callee its name. -/
theorem calledName (i : InstId) : Persists (t.calledName i) (t'.calledName i) := by
  refine (h.calledFunction i).bind fun callee _ => ?_
  cases callee with
  | none => exact .refl _
  | some f => exact (h.function f).bind_pure _

theorem callsA (test : String → Bool) (i : InstId) : Persists (t.callsA test i) (t'.callsA test i) :=
  (h.calledName i).bind_pure _

theorem describe (i : InstId) : Persists (t.describe i) (t'.describe i) := by
  refine (h.inst i).bind fun x _ => ?_
  cases x.loc with
  | some loc => exact .refl _
  | none => exact (h.functionName i).bind_pure _

/-! ## Control flow -/

theorem terminator (b : BlockId) : Persists (t.terminator b) (t'.terminator b) := by
  refine (h.block b).bind fun x _ => ?_
  cases x.insts.getLast? with
  | none => exact .refl _
  | some i => exact (h.kindOf i).bind_pure _

/-- A block keeps its successors. -/
theorem successors (b : BlockId) : Persists (t.successors b) (t'.successors b) := by
  refine (h.terminator b).bind fun last _ => ?_
  cases last with
  | none => exact .refl _
  | some i => exact (h.kindOf i).bind_pure _

theorem firstActive (is : List InstId) : Persists (t.firstActive is) (t'.firstActive is) := by
  induction is with
  | nil => exact .refl _
  | cons i is ih =>
    refine (h.isSkipped i).bind fun skipped _ => ?_
    cases skipped with
    | true => exact ih
    | false => exact .refl _

theorem firstActiveOf (b : BlockId) : Persists (t.firstActiveOf b) (t'.firstActiveOf b) :=
  (h.block b).bind fun x _ => h.firstActive x.insts

/-- A block goes on to be a landing pad, or not to be one. -/
theorem isLandingPadBlock (b : BlockId) : Persists (t.isLandingPadBlock b) (t'.isLandingPadBlock b) := by
  refine (h.firstActiveOf b).bind fun first _ => ?_
  cases first with
  | none => exact .refl _
  | some i => exact (h.kindOf i).bind_pure _

/-! ## Chains -/

/-- A chain that ends before the fuel is used up ends at the same place with more fuel. -/
theorem stripCastsWithin {fuel fuel' : Nat} (hfuel : fuel ≤ fuel') (v : Value) :
    Persists (t.stripCastsWithin fuel v) (t'.stripCastsWithin fuel' v) := by
  induction fuel generalizing fuel' v with
  -- without fuel there is no answer that could persist
  | zero =>
    intro w hw
    cases hw
  | succ fuel ih =>
    obtain ⟨fuel', rfl⟩ : ∃ n, fuel' = n + 1 := ⟨fuel' - 1, by omega⟩
    cases v with
    | inst i =>
      refine (h.kindOf i).bind fun k _ => ?_
      cases k with
      | cast w => exact ih (by omega) w
      | _ => exact .refl _
    | arg f n => exact .refl _
    | global g => exact .refl _
    | const n => exact .refl _

theorem stripCasts (v : Value) : Persists (t.stripCasts v) (t'.stripCasts v) :=
  h.stripCastsWithin (Nat.add_le_add_right h.sizes.insts 1) v

/-- The same for derivations, which look through field addresses as well. -/
theorem derivationWithin {fuel fuel' : Nat} (hfuel : fuel ≤ fuel') (segments : List (List Int)) (v : Value) :
    Persists (t.derivationWithin fuel segments v) (t'.derivationWithin fuel' segments v) := by
  induction fuel generalizing fuel' segments v with
  | zero =>
    intro d hd
    cases hd
  | succ fuel ih =>
    -- the larger program has at least as much fuel left at each step
    obtain ⟨fuel', rfl⟩ : ∃ n, fuel' = n + 1 := ⟨fuel' - 1, by omega⟩
    cases v with
    | inst i =>
      refine (h.kindOf i).bind fun k _ => ?_
      cases k with
      | cast w => exact ih (by omega) segments w
      | fieldAddr base indices => exact ih (by omega) (indices :: segments) base
      | _ => exact .refl _
    | arg f n => exact .refl _
    | global g => exact .refl _
    | const n => exact .refl _

/-- The fuel is the number of instructions, which only grows. -/
theorem derivation (v : Value) : Persists (t.derivation v) (t'.derivation v) :=
  h.derivationWithin (Nat.add_le_add_right h.sizes.insts 1) [] v

/-- A value goes on to point into the same object. -/
theorem underlyingObject (v : Value) : Persists (t.underlyingObject v) (t'.underlyingObject v) :=
  (h.derivation v).bind_pure _

theorem isIdentified (v : Value) : Persists (t.isIdentified v) (t'.isIdentified v) := by
  cases v with
  | inst i => exact (h.kindOf i).bind_pure _
  | arg f n => exact .refl _
  | global g => exact .refl _
  | const n => exact .refl _

/-- **The structural oracle gives the same answers** about values of the old program. -/
theorem aliasing (v w : Value) : Persists (t.aliasing v w) (t'.aliasing v w) := by
  refine .ite (fun _ => .refl _) fun _ => ?_
  refine ((h.derivation v).bind_pure _).bind fun x _ => ((h.derivation w).bind_pure _).bind fun y _ => ?_
  -- only the objects of two different chains are looked up again
  refine .ite (fun _ => ?_) fun _ => .refl _
  exact (h.isIdentified _).bind fun _ _ => (h.isIdentified _).bind_pure _

/-! ## Whole tables -/

omit h in
/-- The numbers up to a larger bound are those up to a smaller one, and then those from there on. -/
theorem exists_range_append {m n : Nat} (hmn : m ≤ n) :
    ∃ more, List.range n = List.range m ++ more ∧ ∀ k ∈ more, m ≤ k := by
  obtain ⟨k, rfl⟩ := Nat.exists_eq_add_of_le hmn
  refine ⟨_, List.range_add, fun j hj => ?_⟩
  obtain ⟨i, -, rfl⟩ := List.mem_map.mp hj
  omega

/-- The new instructions come last. -/
theorem exists_instIds :
    ∃ more, t'.instIds = t.instIds ++ more ∧ ∀ i ∈ more, t.insts.size ≤ i.index := by
  obtain ⟨more, hmore, hle⟩ := exists_range_append h.sizes.insts
  refine ⟨more.map InstId.mk, ?_, fun i hi => ?_⟩
  · show (List.range t'.sizes.insts).map InstId.mk = (List.range t.sizes.insts).map InstId.mk ++ _
    rw [hmore, List.map_append]
  · obtain ⟨k, hk, rfl⟩ := List.mem_map.mp hi
    exact hle k hk

/-- The new bodies come last. -/
theorem exists_bodies :
    ∃ more, t'.bodies = t.bodies ++ more ∧ ∀ f ∈ more, t.functions.size ≤ f.index := by
  obtain ⟨more, hmore, hle⟩ := exists_range_append h.sizes.functions
  have hids : t'.functionIds = t.functionIds ++ more.map FunctionId.mk := by
    show (List.range t'.sizes.functions).map FunctionId.mk =
      (List.range t.sizes.functions).map FunctionId.mk ++ _
    rw [hmore, List.map_append]
  unfold bodies
  rw [hids, List.filter_append]
  refine ⟨_, congrArg (· ++ _) (List.filter_congr fun f hf => ?_), fun f hf => ?_⟩
  · -- a function of the old tables has the body that it had
    obtain ⟨k, hk, rfl⟩ := List.mem_map.mp hf
    obtain ⟨g, -, hg⟩ := @exists_lookUp _ .functions _ _ (List.mem_range.mp hk)
    rw [function_eq_ok.mp hg, function_eq_ok.mp (h.function ⟨k⟩ g hg)]
  · obtain ⟨k, hk, rfl⟩ := List.mem_map.mp (List.mem_filter.mp hf).1
    exact hle k hk

end Tables.ExtendsTo

/-! ## Users -/

/-- A value that is no entry of tables of these sizes. Globals belong to no function, so they count as
entries. -/
def Value.Outside (n : Sizes) : Value → Prop
  | .inst i => n.insts ≤ i.index
  | .arg f _ => n.functions ≤ f.index
  | .global _ => False
  | .const _ => True

instance (n : Sizes) (v : Value) : Decidable (v.Outside n) :=
  match v with
  | .inst i => inferInstanceAs (Decidable (n.insts ≤ i.index))
  | .arg f _ => inferInstanceAs (Decidable (n.functions ≤ f.index))
  | .global _ => .isFalse id
  | .const _ => .isTrue trivial

/-- A value that is both in the old tables and outside of them is a constant. -/
theorem Value.isConst_of_outside {n : Sizes} {v : Value} (hin : v.Within n) (hout : v.Outside n) :
    v.isConst = true := by
  cases v with
  | inst i => exact absurd hin (Nat.not_lt.mpr hout)
  | arg f k => exact absurd hin (Nat.not_lt.mpr hout)
  | global g => exact hout.elim
  | const k => rfl

/-- Tables that grow by instructions that do not use values of the old ones. -/
structure Tables.ExtendsApart (t t' : Tables) : Prop extends t.ExtendsTo t' where
  operands : ∀ i kind, t.insts.size ≤ i.index → t'.kindOf i = .ok kind →
    ∀ v ∈ kind.operands, v.Outside t.sizes

namespace Program

variable {p p' : Program} (h : p.ExtendsApart p'.toTables)

include h

/-- **A value of the old tables has the users that it had.** This is where it matters that the new instructions do
not use old values. -/
theorem users_of_extendsApart {v : Value} (hv : v.Within p.sizes) : p'.users v = p.users v := by
  obtain ⟨more, hmore, hnew⟩ := h.exists_instIds
  -- the old instructions are judged as before
  have hold : p.instIds.filter (fun i => (p'.insts[i.index]?).any (DefUse.uses v)) =
      p.instIds.filter fun i => (p.insts[i.index]?).any (DefUse.uses v) := by
    refine List.filter_congr fun i hi => ?_
    obtain ⟨x, -, hx⟩ := @exists_lookUp _ .insts _ _ (Tables.mem_instIds.mp hi)
    rw [Tables.inst_eq_ok.mp hx, Tables.inst_eq_ok.mp (h.inst i x hx)]
  -- no new one has the value among its operands, unless it is a constant, and constants have no users
  have hrest : more.filter (fun i => (p'.insts[i.index]?).any (DefUse.uses v)) = [] := by
    refine List.filter_eq_nil_iff.mpr fun i hi huses => ?_
    obtain ⟨x, hx, huses⟩ := Option.any_eq_true _ _ |>.mp huses
    obtain ⟨hconst, hmem⟩ : v.isConst = false ∧ v ∈ x.kind.operands := by
      simpa [DefUse.uses] using huses
    have hout := h.operands i _ (hnew i hi) (Tables.kindOf_of_inst (Tables.inst_eq_ok.mpr hx)) v hmem
    rw [Value.isConst_of_outside hv hout] at hconst
    cases hconst
  rw [users_eq, users_eq, hmore, List.filter_append, hold, hrest, List.append_nil]

theorem usersExcept_of_extendsApart {v : Value} (hv : v.Within p.sizes) (i : InstId) :
    p'.usersExcept i v = p.usersExcept i v := by
  unfold usersExcept
  rw [users_of_extendsApart h hv]

end Program

end Relock
