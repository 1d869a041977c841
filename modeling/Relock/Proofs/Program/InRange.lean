import Mathlib.Tactic.MkIffOfInductiveProp
import Relock.Program.Chain
import Relock.Proofs.Faults

/-!
# Programs whose indices are in range

A table may name entries of other tables, and of itself. `Tables.InRange` says that all these entries
exist; then no question about an existing entry faults. While a program is built an instruction may name
one that is still to come, so the invariant is stated for any `Sizes` that the tables are going to have.

* `Tables.Within`: every index in the tables is below the given sizes;
* `Tables.InRange`: every index is below the sizes of the tables themselves;
* `Tables.InRange.exists_kindOf`, `Tables.InRange.exists_callsA`, …: questions that have an answer.
-/

namespace Relock

/-- How many entries each table has, or is going to have. -/
structure Sizes where
  types : Nat
  globals : Nat
  functions : Nat
  blocks : Nat
  insts : Nat

/-- The number of entries of each table. -/
def Tables.sizes (t : Tables) : Sizes :=
  ⟨t.types.size, t.globals.size, t.functions.size, t.blocks.size, t.insts.size⟩

/-- No table is smaller. -/
structure Sizes.Le (m n : Sizes) : Prop where
  types : m.types ≤ n.types
  globals : m.globals ≤ n.globals
  functions : m.functions ≤ n.functions
  blocks : m.blocks ≤ n.blocks
  insts : m.insts ≤ n.insts

/-- The number of entries of each table once there are `n` instructions. -/
def Tables.sizesUpTo (t : Tables) (n : Nat) : Sizes :=
  { t.sizes with insts := n }

/-- A value that names an existing entry. -/
def Value.Within (n : Sizes) : Value → Prop
  | .inst i => i.index < n.insts
  | .arg f _ => f.index < n.functions
  | .global g => g.index < n.globals
  | .const _ => True

/-- The types that a type is made of. -/
def TypeKind.parts : TypeKind → List TypeId
  | .pointer t => [t]
  | .record _ fields => fields
  | _ => []

/-- The blocks that an instruction names: those it may go to and those that a phi tells apart. -/
def InstKind.blocks : InstKind → List BlockId
  | .phi incoming => incoming.map Prod.snd
  | k => k.targets

/-- The arguments of a call are among its operands. -/
theorem InstKind.mem_operands_of_args {k : InstKind} {args : List Value} {v : Value}
    (h : k.args? = some args) (hv : v ∈ args) : v ∈ k.operands := by
  cases k with
  | call callee args =>
    cases h
    exact List.mem_append_left _ hv
  | invoke callee args normal unwind =>
    cases h
    exact List.mem_append_left _ hv
  | _ => cases h

/-- An instruction that names only existing entries. -/
@[mk_iff]
structure InstKind.Within (n : Sizes) (k : InstKind) : Prop where
  operands : ∀ v ∈ k.operands, v.Within n
  callee : ∀ f, k.callee? = some f → f.index < n.functions
  blocks : ∀ b ∈ k.blocks, b.index < n.blocks

/-- Tables that name only existing entries. -/
@[mk_iff]
structure Tables.Within (t : Tables) (n : Sizes) : Prop where
  types : ∀ k ∈ t.types, ∀ i ∈ k.parts, i.index < n.types
  globals : ∀ g ∈ t.globals, g.ty.index < n.types ∧ g.ptrTy.index < n.types
  params : ∀ f ∈ t.functions, ∀ i ∈ f.params, i.index < n.types
  rets : ∀ f ∈ t.functions, f.ret.index < n.types
  bodies : ∀ f ∈ t.functions, ∀ b ∈ f.blocks, b.index < n.blocks
  owners : ∀ b ∈ t.blocks, b.func.index < n.functions
  listed : ∀ b ∈ t.blocks, ∀ i ∈ b.insts, i.index < n.insts
  results : ∀ x ∈ t.insts, x.ty.index < n.types
  parents : ∀ x ∈ t.insts, x.block.index < n.blocks
  kinds : ∀ x ∈ t.insts, x.kind.Within n

/-- Tables in which every index is in range, those of the two types that every program has included. -/
@[mk_iff]
structure Tables.InRange (t : Tables) : Prop where
  within : t.Within t.sizes
  word : TypeId.word.index < t.types.size

instance (n : Sizes) (v : Value) : Decidable (v.Within n) :=
  match v with
  | .inst i => inferInstanceAs (Decidable (i.index < n.insts))
  | .arg f _ => inferInstanceAs (Decidable (f.index < n.functions))
  | .global g => inferInstanceAs (Decidable (g.index < n.globals))
  | .const _ => .isTrue trivial

instance (n : Sizes) (k : InstKind) : Decidable (k.Within n) :=
  have : Decidable (∀ f, k.callee? = some f → f.index < n.functions) :=
    inferInstanceAs (Decidable (∀ f ∈ k.callee?, f.index < n.functions))
  decidable_of_iff' _ (InstKind.within_iff n k)

instance (t : Tables) (n : Sizes) : Decidable (t.Within n) :=
  decidable_of_iff' _ (Tables.within_iff t n)

instance (t : Tables) : Decidable t.InRange :=
  decidable_of_iff' _ (Tables.inRange_iff t)

/-! ## Larger tables -/

theorem Sizes.Le.refl (n : Sizes) : n.Le n :=
  ⟨Nat.le_refl _, Nat.le_refl _, Nat.le_refl _, Nat.le_refl _, Nat.le_refl _⟩

theorem Sizes.Le.trans {l m n : Sizes} (h : l.Le m) (h' : m.Le n) : l.Le n :=
  ⟨Nat.le_trans h.types h'.types, Nat.le_trans h.globals h'.globals,
    Nat.le_trans h.functions h'.functions, Nat.le_trans h.blocks h'.blocks, Nat.le_trans h.insts h'.insts⟩

/-- Larger tables that are going to have more instructions. -/
theorem Sizes.Le.upTo {t t' : Tables} (h : t.sizes.Le t'.sizes) {m n : Nat} (hmn : m ≤ n) :
    (t.sizesUpTo m).Le (t'.sizesUpTo n) :=
  ⟨h.types, h.globals, h.functions, h.blocks, hmn⟩

/-- An entry that exists stays when tables grow. -/
theorem Value.Within.mono {m n : Sizes} (hle : m.Le n) {v : Value} (h : v.Within m) : v.Within n := by
  cases v with
  | inst i => exact Nat.lt_of_lt_of_le h hle.insts
  | arg f k => exact Nat.lt_of_lt_of_le h hle.functions
  | global g => exact Nat.lt_of_lt_of_le h hle.globals
  | const k => exact trivial

theorem InstKind.Within.mono {m n : Sizes} (hle : m.Le n) {k : InstKind} (h : k.Within m) :
    k.Within n where
  operands v hv := (h.operands v hv).mono hle
  callee f hf := Nat.lt_of_lt_of_le (h.callee f hf) hle.functions
  blocks b hb := Nat.lt_of_lt_of_le (h.blocks b hb) hle.blocks

theorem Tables.Within.mono {m n : Sizes} (hle : m.Le n) {t : Tables} (h : t.Within m) :
    t.Within n where
  types k hk i hi := Nat.lt_of_lt_of_le (h.types k hk i hi) hle.types
  globals g hg := (h.globals g hg).imp (Nat.lt_of_lt_of_le · hle.types) (Nat.lt_of_lt_of_le · hle.types)
  params f hf i hi := Nat.lt_of_lt_of_le (h.params f hf i hi) hle.types
  rets f hf := Nat.lt_of_lt_of_le (h.rets f hf) hle.types
  bodies f hf b hb := Nat.lt_of_lt_of_le (h.bodies f hf b hb) hle.blocks
  owners b hb := Nat.lt_of_lt_of_le (h.owners b hb) hle.functions
  listed b hb i hi := Nat.lt_of_lt_of_le (h.listed b hb i hi) hle.insts
  results x hx := Nat.lt_of_lt_of_le (h.results x hx) hle.types
  parents x hx := Nat.lt_of_lt_of_le (h.parents x hx) hle.blocks
  kinds x hx := (h.kinds x hx).mono hle

/-! ## Questions that have an answer -/

/-- An index below the size of a table has an entry. Every question of this section comes down to this. -/
theorem exists_lookUp {α : Type} {table : Table} {xs : Array α} {n : Nat} (h : n < xs.size) :
    ∃ x ∈ xs, lookUp table xs n = .ok x :=
  ⟨xs[n], Array.getElem_mem h, lookUp_eq_ok.mpr (Array.getElem?_eq_getElem h)⟩

namespace Tables

variable {t : Tables}

theorem inst_eq_ok {i : InstId} {x : Instruction} : t.inst i = .ok x ↔ t.insts[i.index]? = some x :=
  lookUp_eq_ok

theorem block_eq_ok {b : BlockId} {x : Block} : t.block b = .ok x ↔ t.blocks[b.index]? = some x :=
  lookUp_eq_ok

theorem function_eq_ok {f : FunctionId} {x : Function} :
    t.function f = .ok x ↔ t.functions[f.index]? = some x :=
  lookUp_eq_ok

theorem kindOf_eq_ok {i : InstId} {k : InstKind} :
    t.kindOf i = .ok k ↔ ∃ x, t.inst i = .ok x ∧ x.kind = k := by
  simp [kindOf]

theorem kindOf_of_inst {i : InstId} {x : Instruction} (h : t.inst i = .ok x) : t.kindOf i = .ok x.kind :=
  kindOf_eq_ok.mpr ⟨x, h, rfl⟩

/-- Whether an instruction is passed over depends on its kind alone. -/
theorem isSkipped_eq_ok {i : InstId} {b : Bool} :
    t.isSkipped i = .ok b ↔ ∃ k, t.kindOf i = .ok k ∧ k.isSkipped = b := by
  simp [isSkipped]

/-- An instruction belongs to the function of its block. -/
theorem functionOf_eq_ok {i : InstId} {f : FunctionId} :
    t.functionOf i = .ok f ↔ ∃ x b, t.inst i = .ok x ∧ t.block x.block = .ok b ∧ b.func = f := by
  simp [functionOf]

/-- A call by name: a call whose callee is known and is an entry with this name. -/
theorem calledName_eq_some {i : InstId} {name : String} :
    t.calledName i = .ok (some name) ↔
      ∃ k f g, t.kindOf i = .ok k ∧ k.callee? = some f ∧ t.function f = .ok g ∧ g.name = name := by
  simp only [calledName, calledFunction, bind_eq_ok, pure_eq_ok]
  constructor
  · rintro ⟨_, ⟨k, hk, rfl⟩, h⟩
    cases hf : k.callee? with
    | none => simp [hf] at h
    | some f =>
      -- the name is looked up only for a direct call
      obtain ⟨g, hg, hname⟩ : ∃ g, t.function f = .ok g ∧ g.name = name := by simpa [hf] using h
      exact ⟨k, f, g, hk, hf, hg, hname⟩
  · rintro ⟨k, f, g, hk, hf, hg, rfl⟩
    exact ⟨some f, ⟨k, hk, hf⟩, by simp [hg]⟩

/-- A name that passes a test is the name of a function that is called. -/
theorem callsA_eq_true {test : String → Bool} {i : InstId} :
    t.callsA test i = .ok true ↔ ∃ name, t.calledName i = .ok (some name) ∧ test name = true := by
  simp only [callsA, bind_eq_ok, pure_eq_ok, Option.any_eq_true]
  constructor
  · rintro ⟨_, h, name, rfl, htest⟩
    exact ⟨name, h, htest⟩
  · rintro ⟨name, h, htest⟩
    exact ⟨_, h, name, rfl, htest⟩

theorem lt_of_inst {i : InstId} {x : Instruction} (h : t.inst i = .ok x) : i.index < t.insts.size :=
  (Array.getElem?_eq_some_iff.mp (inst_eq_ok.mp h)).1

theorem lt_of_functionOf {i : InstId} {f : FunctionId} (h : t.functionOf i = .ok f) :
    i.index < t.insts.size := by
  obtain ⟨x, -, hx, -⟩ := functionOf_eq_ok.mp h
  exact lt_of_inst hx

theorem lt_of_functionName {i : InstId} {name : String} (h : t.functionName i = .ok name) :
    i.index < t.insts.size := by
  obtain ⟨f, hf, -⟩ := bind_eq_ok.mp h
  exact lt_of_functionOf hf

theorem mem_instIds {i : InstId} : i ∈ t.instIds ↔ i.index < t.insts.size := by
  rw [instIds, List.mem_map]
  constructor
  · rintro ⟨n, hn, rfl⟩
    exact List.mem_range.mp hn
  · intro hi
    exact ⟨i.index, List.mem_range.mpr hi, rfl⟩

/-- An instruction that is found is in the table, so that what holds of all entries holds of it. -/
theorem mem_of_inst {i : InstId} {x : Instruction} (h : t.inst i = .ok x) : x ∈ t.insts :=
  Array.mem_of_getElem? (inst_eq_ok.mp h)

/-- The first active instruction of a list is one of the list. -/
theorem firstActive_mem {is : List InstId} {i : InstId} (h : t.firstActive is = .ok (some i)) : i ∈ is := by
  induction is with
  | nil => simp [firstActive] at h
  | cons j is ih =>
    obtain ⟨skipped, -, h⟩ := bind_eq_ok.mp h
    cases skipped with
    | true => exact List.mem_cons_of_mem _ (ih h)
    | false =>
      obtain rfl : j = i := by simpa using h
      exact List.mem_cons_self ..

namespace InRange

theorem exists_kindOf {i : InstId} (hi : i.index < t.insts.size) : ∃ k, t.kindOf i = .ok k := by
  obtain ⟨x, -, hx⟩ := @exists_lookUp _ .insts _ _ hi
  exact ⟨x.kind, kindOf_of_inst hx⟩

/-- It can always be told whether an entry is passed over. -/
theorem exists_isSkipped {i : InstId} (hi : i.index < t.insts.size) : ∃ b, t.isSkipped i = .ok b := by
  obtain ⟨k, hk⟩ := exists_kindOf hi
  exact ⟨k.isSkipped, isSkipped_eq_ok.mpr ⟨k, hk, rfl⟩⟩

/-- The first active instruction can be looked for in any list of entries. -/
theorem exists_firstActive {is : List InstId} (h : ∀ i ∈ is, i.index < t.insts.size) :
    ∃ r, t.firstActive is = .ok r := by
  induction is with
  | nil => exact ⟨none, rfl⟩
  | cons i is ih =>
    refine exists_bind_ok (exists_isSkipped (h i (List.mem_cons_self ..))) fun skipped _ => ?_
    cases skipped with
    | true => exact ih fun j hj => h j (List.mem_cons_of_mem _ hj)
    | false => exact ⟨some i, rfl⟩

theorem exists_isVoid {i : TypeId} (hi : i.index < t.types.size) : ∃ b, t.isVoid i = .ok b := by
  obtain ⟨k, -, hk⟩ := @exists_lookUp _ .types _ _ hi
  refine exists_bind_ok ⟨k, hk⟩ fun k _ => ?_
  cases k <;> exact ⟨_, rfl⟩

theorem exists_isRecord {i : TypeId} (hi : i.index < t.types.size) : ∃ b, t.isRecord i = .ok b := by
  obtain ⟨k, -, hk⟩ := @exists_lookUp _ .types _ _ hi
  refine exists_bind_ok ⟨k, hk⟩ fun k _ => ?_
  cases k <;> exact ⟨_, rfl⟩

variable (ht : t.InRange)

include ht

/-- Instructions name existing entries only. -/
theorem kindOf_within {i : InstId} {k : InstKind} (h : t.kindOf i = .ok k) : k.Within t.sizes := by
  obtain ⟨x, hx, rfl⟩ := kindOf_eq_ok.mp h
  exact ht.within.kinds x (mem_of_inst hx)

/-! ### Functions -/

/-- Every entry belongs to a function, which is an entry too. -/
theorem exists_functionOf {i : InstId} (hi : i.index < t.insts.size) :
    ∃ f, t.functionOf i = .ok f ∧ f.index < t.functions.size := by
  obtain ⟨x, hmem, hx⟩ := @exists_lookUp _ .insts _ _ hi
  obtain ⟨b, hb, hblock⟩ := @exists_lookUp _ .blocks _ _ (ht.within.parents x hmem)
  exact ⟨b.func, functionOf_eq_ok.mpr ⟨x, b, hx, hblock, rfl⟩, ht.within.owners b hb⟩

theorem exists_functionName {i : InstId} (hi : i.index < t.insts.size) :
    ∃ name, t.functionName i = .ok name := by
  obtain ⟨f, hf, hlt⟩ := ht.exists_functionOf hi
  obtain ⟨g, -, hg⟩ := @exists_lookUp _ .functions _ _ hlt
  exact ⟨g.name, bind_eq_ok.mpr ⟨f, hf, bind_eq_ok.mpr ⟨g, hg, rfl⟩⟩⟩

/-- Every entry can be described: the name of its function stands in for a missing location. -/
theorem exists_describe {i : InstId} (hi : i.index < t.insts.size) : ∃ s, t.describe i = .ok s := by
  obtain ⟨x, -, hx⟩ := @exists_lookUp _ .insts _ _ hi
  apply exists_bind_ok ⟨x, hx⟩
  intro y hy
  -- a location that is known needs no further look-up
  cases hloc : y.loc with
  | some loc => exact ⟨_, rfl⟩
  | none =>
    obtain ⟨name, hname⟩ := ht.exists_functionName hi
    exact ⟨_, bind_eq_ok.mpr ⟨name, hname, rfl⟩⟩

/-! ### Calls -/

/-- A callee that an entry names is an entry, so its name can be looked up. -/
theorem exists_calledName {i : InstId} (hi : i.index < t.insts.size) :
    ∃ name, t.calledName i = .ok name := by
  obtain ⟨k, hk⟩ := exists_kindOf hi
  have hcalled : t.calledFunction i = .ok k.callee? := by
    rw [calledFunction, hk]
    rfl
  rw [calledName, hcalled, ok_bind]
  cases hf : k.callee? with
  | none => exact ⟨none, rfl⟩
  | some f =>
    obtain ⟨g, -, hg⟩ := @exists_lookUp _ .functions _ _ ((ht.kindOf_within hk).callee f hf)
    exact ⟨some g.name, bind_eq_ok.mpr ⟨g, hg, rfl⟩⟩

/-- Names of callees can be tested. -/
theorem exists_callsA (test : String → Bool) {i : InstId} (hi : i.index < t.insts.size) :
    ∃ b, t.callsA test i = .ok b := by
  obtain ⟨name, hname⟩ := ht.exists_calledName hi
  exact ⟨name.any test, bind_eq_ok.mpr ⟨name, hname, rfl⟩⟩

/-! ### Types -/

/-- A pointer type points to an existing type. -/
theorem exists_pointee {i : TypeId} (hi : i.index < t.types.size) :
    ∃ r, t.pointee i = .ok r ∧ ∀ j ∈ r, j.index < t.types.size := by
  obtain ⟨k, hmem, hk⟩ := @exists_lookUp _ .types _ _ hi
  have hparts := ht.within.types k hmem
  cases k with
  | pointer j =>
    refine ⟨some j, bind_eq_ok.mpr ⟨_, hk, rfl⟩, ?_⟩
    rintro _ ⟨⟩
    exact hparts j (List.mem_cons_self ..)
  -- any other type points nowhere
  | _ => exact ⟨none, bind_eq_ok.mpr ⟨_, hk, rfl⟩, by simp⟩

/-- Every value has a type. A missing parameter has the type void, which every program has. -/
theorem exists_valueType {v : Value} (hv : v.Within t.sizes) :
    ∃ i, t.valueType v = .ok i ∧ i.index < t.types.size := by
  cases v with
  | inst i =>
    obtain ⟨x, hmem, hx⟩ := @exists_lookUp _ .insts _ _ hv
    exact ⟨x.ty, bind_eq_ok.mpr ⟨x, hx, rfl⟩, ht.within.results x hmem⟩
  | arg f n =>
    obtain ⟨g, hmem, hg⟩ := @exists_lookUp _ .functions _ _ hv
    refine ⟨g.params.getD n .void, bind_eq_ok.mpr ⟨g, hg, rfl⟩, ?_⟩
    rw [List.getD_eq_getElem?_getD]
    cases hp : g.params[n]? with
    | none =>
      -- an argument that the function does not have is void, the type before the word
      exact Nat.lt_of_succ_lt ht.word
    | some p => exact ht.within.params g hmem p (List.mem_of_getElem? hp)
  | global g =>
    obtain ⟨x, hmem, hx⟩ := @exists_lookUp _ .globals _ _ hv
    exact ⟨x.ptrTy, bind_eq_ok.mpr ⟨x, hx, rfl⟩, (ht.within.globals x hmem).2⟩
  | const n => exact ⟨.word, rfl, ht.word⟩

/-! ### Control flow -/

/-- The instructions of a block are entries of the table. -/
theorem listed {b : BlockId} {x : Block} (h : t.block b = .ok x) :
    ∀ i ∈ x.insts, i.index < t.insts.size :=
  ht.within.listed x (Array.mem_of_getElem? (block_eq_ok.mp h))

/-- The first active instruction of a block is looked for among the entries that the block lists. -/
theorem exists_firstActiveOf {b : BlockId} (hb : b.index < t.blocks.size) :
    ∃ r, t.firstActiveOf b = .ok r ∧ ∀ i ∈ r, i.index < t.insts.size := by
  obtain ⟨x, -, hx⟩ := @exists_lookUp _ .blocks _ _ hb
  obtain ⟨r, hr⟩ := exists_firstActive (ht.listed hx)
  refine ⟨r, bind_eq_ok.mpr ⟨x, hx, hr⟩, ?_⟩
  rintro i rfl
  exact ht.listed hx i (firstActive_mem hr)

/-- The first active instruction of a block is an entry. -/
theorem lt_of_firstActiveOf {b : BlockId} {i : InstId} (h : t.firstActiveOf b = .ok (some i)) :
    i.index < t.insts.size := by
  obtain ⟨x, hx, hi⟩ := bind_eq_ok.mp h
  exact ht.listed hx i (firstActive_mem hi)

/-- It can be told of every block whether it is a landing pad. -/
theorem exists_isLandingPadBlock {b : BlockId} (hb : b.index < t.blocks.size) :
    ∃ r, t.isLandingPadBlock b = .ok r := by
  obtain ⟨r, hr, hlt⟩ := ht.exists_firstActiveOf hb
  refine exists_bind_ok ⟨r, hr⟩ fun s hs => ?_
  obtain rfl : r = s := by rw [hr] at hs; exact Except.ok.inj hs
  -- a block of phis and debug markers only is no landing pad
  cases r with
  | none => exact ⟨false, rfl⟩
  | some i =>
    refine exists_bind_ok (exists_kindOf (hlt i rfl)) fun k _ => ?_
    cases k <;> exact ⟨_, rfl⟩

/-- The last instruction of a block is an entry, so it can be told whether it is a terminator. -/
theorem exists_terminator {b : BlockId} (hb : b.index < t.blocks.size) :
    ∃ r, t.terminator b = .ok r ∧ ∀ i ∈ r, i.index < t.insts.size := by
  obtain ⟨x, -, hx⟩ : ∃ x ∈ t.blocks, t.block b = .ok x := exists_lookUp hb
  unfold terminator
  rw [hx, ok_bind]
  cases hlast : x.insts.getLast? with
  | none => exact ⟨none, rfl, by simp⟩
  | some i =>
    have hi := ht.listed hx i (List.mem_of_getLast? hlast)
    obtain ⟨k, hk⟩ := exists_kindOf hi
    refine ⟨_, bind_eq_ok.mpr ⟨k, hk, rfl⟩, fun j hj => ?_⟩
    -- the last instruction counts only if it ends the block
    split at hj
    · obtain rfl : i = j := by simpa using hj
      exact hi
    · simp at hj

/-- Control flow leads to existing blocks. -/
theorem exists_successors {b : BlockId} (hb : b.index < t.blocks.size) :
    ∃ cs, t.successors b = .ok cs ∧ ∀ c ∈ cs, c.index < t.blocks.size := by
  obtain ⟨r, hr, hlt⟩ := ht.exists_terminator hb
  unfold successors
  rw [hr, ok_bind]
  cases r with
  | none => exact ⟨[], rfl, by simp⟩
  | some i =>
    obtain ⟨k, hk⟩ := exists_kindOf (hlt i rfl)
    refine ⟨k.targets, bind_eq_ok.mpr ⟨k, hk, rfl⟩, fun c hc => ?_⟩
    -- the blocks that an instruction may go to are among those that it names
    apply (ht.kindOf_within hk).blocks
    cases k <;> simp_all [InstKind.blocks, InstKind.targets]

end InRange

end Tables

end Relock
