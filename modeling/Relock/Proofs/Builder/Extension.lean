import Relock.Proofs.Builder.Arrangement
import Relock.Proofs.Program.Extension

/-!
# Builders that go on beyond what they have built

A builder can go on without touching its first entries: it makes new types, globals and functions, gives
blocks to the new functions, and pushes instructions to the new blocks. If the operands of the new
instructions lie beyond the first entries as well, the program that is built extends the one that was
there, apart from it.

* `Step.Beyond`: the steps that leave the first entries alone;
* `Tables.GrowsBeyond`: what such steps do to the tables;
* `Builder.growsBeyond_run`, `Builder.growsBeyond_runAll`: one step, and all of them;
* `Builder.extendsApart_of_runAll`: the program in the end.
-/

namespace Relock

variable {α : Type} {n : Nat} {xs ys zs : Array α}

/-! ## The first entries -/

/-- The entries below `n` are kept. -/
def KeepsFirst (n : Nat) (xs ys : Array α) : Prop := ∀ i x, i < n → xs[i]? = some x → ys[i]? = some x

namespace KeepsFirst

theorem refl (n : Nat) (xs : Array α) : KeepsFirst n xs xs := fun _ _ _ hx => hx

theorem trans (h : KeepsFirst n xs ys) (h' : KeepsFirst n ys zs) : KeepsFirst n xs zs :=
  fun i x hi hx => h' i x hi (h i x hi hx)

/-- An entry at the end touches no other. -/
theorem push (n : Nat) (xs : Array α) (a : α) : KeepsFirst n xs (xs.push a) := by
  intro i x _ hx
  obtain ⟨hi, rfl⟩ := Array.getElem?_eq_some_iff.mp hx
  rw [Array.getElem?_push, if_neg (Nat.ne_of_lt hi)]
  exact hx

/-- A change beyond the first entries touches none of them. -/
theorem modify (xs : Array α) {k : Nat} (hk : n ≤ k) (f : α → α) : KeepsFirst n xs (xs.modify k f) := by
  intro i x hi hx
  rw [Array.getElem?_modify, if_neg (by omega)]
  exact hx

theorem set (xs : Array α) {k : Nat} (hk : n ≤ k) (a : α) : KeepsFirst n xs (xs.setIfInBounds k a) := by
  intro i x hi hx
  rw [Array.getElem?_setIfInBounds_ne (by omega)]
  exact hx

/-- What was looked up is found again. -/
theorem persists (h : KeepsFirst xs.size xs ys) (table : Table) (i : Nat) :
    Persists (lookUp table xs i) (lookUp table ys i) := by
  intro x hx
  have hget := lookUp_eq_ok.mp hx
  obtain ⟨hi, -⟩ := Array.getElem?_eq_some_iff.mp hget
  exact lookUp_eq_ok.mpr (h i x hi hget)

end KeepsFirst

/-! ## Tables -/

/-- Tables that keep their first entries, and get instructions only with operands beyond these. -/
structure Tables.GrowsBeyond (n : Sizes) (t t' : Tables) : Prop where
  types : KeepsFirst n.types t.types t'.types
  globals : KeepsFirst n.globals t.globals t'.globals
  functions : KeepsFirst n.functions t.functions t'.functions
  blocks : KeepsFirst n.blocks t.blocks t'.blocks
  insts : KeepsFirst n.insts t.insts t'.insts
  sizes : t.sizes.Le t'.sizes
  operands : ∀ i kind, n.insts ≤ i.index → t'.kindOf i = .ok kind →
    t.kindOf i = .ok kind ∨ ∀ v ∈ kind.operands, v.Outside n

namespace Tables.GrowsBeyond

variable {m : Sizes} {t t' t'' : Tables}

theorem refl (m : Sizes) (t : Tables) : t.GrowsBeyond m t :=
  ⟨.refl _ _, .refl _ _, .refl _ _, .refl _ _, .refl _ _, .refl _, fun _ _ _ hkind => .inl hkind⟩

theorem trans (h : t.GrowsBeyond m t') (h' : t'.GrowsBeyond m t'') : t.GrowsBeyond m t'' where
  types := h.types.trans h'.types
  globals := h.globals.trans h'.globals
  functions := h.functions.trans h'.functions
  blocks := h.blocks.trans h'.blocks
  insts := h.insts.trans h'.insts
  sizes := h.sizes.trans h'.sizes
  operands i kind hi hkind := by
    rcases h'.operands i kind hi hkind with hold | hout
    · exact h.operands i kind hi hold
    · exact .inr hout

/-- Tables that grow beyond all their entries grow apart from them. -/
theorem extendsApart (h : t.GrowsBeyond t.sizes t') : t.ExtendsApart t' where
  type i := h.types.persists .types i.index
  global i := h.globals.persists .globals i.index
  function i := h.functions.persists .functions i.index
  block i := h.blocks.persists .blocks i.index
  inst i := h.insts.persists .insts i.index
  sizes := h.sizes
  operands i kind hi hkind := by
    -- an instruction with an index beyond all entries was not there before
    refine (h.operands i kind hi hkind).resolve_left fun hold => ?_
    obtain ⟨x, hx, -⟩ := kindOf_eq_ok.mp hold
    have hlt := lt_of_inst hx
    omega

end Tables.GrowsBeyond

/-! ## Steps -/

/-- A step that leaves the first entries alone and uses none of them as an operand. -/
def Step.Beyond (n : Sizes) : Step → Prop
  | .setFields t _ => n.types ≤ t.index
  | .block f _ => n.functions ≤ f.index
  | .setLocation i _ => n.insts ≤ i.index
  | .call bb _ args => n.blocks ≤ bb.index ∧ ∀ v ∈ args, v.Outside n
  | .invoke bb _ args _ _ => n.blocks ≤ bb.index ∧ ∀ v ∈ args, v.Outside n
  | .icmp bb _ lhs rhs => n.blocks ≤ bb.index ∧ ∀ v ∈ [lhs, rhs], v.Outside n
  | .alloca bb _ => n.blocks ≤ bb.index
  | .push bb kind _ => n.blocks ≤ bb.index ∧ ∀ v ∈ kind.operands, v.Outside n
  | _ => True

namespace Builder

variable {b b' : Builder} {m : Sizes}

theorem growsBeyond_addType (m : Sizes) (b : Builder) (k : TypeKind) :
    b.tables.GrowsBeyond m (b.addType k).2.tables :=
  { Tables.GrowsBeyond.refl m b.tables with
    types := .push _ _ _
    sizes := { Sizes.Le.refl b.tables.sizes with types := by simp [Tables.sizes, addType] } }

theorem growsBeyond_intern (m : Sizes) (b : Builder) (k : TypeKind) :
    b.tables.GrowsBeyond m (b.intern k).2.tables := by
  unfold intern
  split
  · exact .refl ..
  · exact growsBeyond_addType m b k

/-- Only the fields of a new record may be set. -/
theorem growsBeyond_setFields {t : TypeId} {fields : List TypeId} (ht : m.types ≤ t.index)
    (h : b.setFields t fields = .ok b') : b.tables.GrowsBeyond m b'.tables := by
  obtain ⟨k, -, h⟩ := bind_eq_ok.mp h
  split at h
  · cases h
    exact { Tables.GrowsBeyond.refl m b.tables with
      types := .set _ ht _
      sizes := { Sizes.Le.refl b.tables.sizes with types := by simp [Tables.sizes] } }
  · cases h
    exact .refl ..

theorem growsBeyond_global (m : Sizes) (b : Builder) (name : String) (ty : TypeId) :
    b.tables.GrowsBeyond m (b.global name ty).2.tables := by
  refine (growsBeyond_intern m b (.pointer ty)).trans ?_
  exact { Tables.GrowsBeyond.refl m (b.intern (.pointer ty)).2.tables with
    globals := .push _ _ _
    sizes := { Sizes.Le.refl (b.intern (.pointer ty)).2.tables.sizes with
      globals := by simp [Tables.sizes, global, pointer] } }

theorem growsBeyond_function (m : Sizes) (b : Builder) (name : String) (params : List TypeId) (ret : TypeId) :
    b.tables.GrowsBeyond m (b.function name params ret).2.tables :=
  { Tables.GrowsBeyond.refl m b.tables with
    functions := .push _ _ _
    sizes := { Sizes.Le.refl b.tables.sizes with functions := by simp [Tables.sizes, function] } }

/-- A new block changes its function, which has to be a new one. -/
theorem growsBeyond_block {f : FunctionId} {label : String} {i : BlockId} (hf : m.functions ≤ f.index)
    (h : b.block f label = .ok (i, b')) : b.tables.GrowsBeyond m b'.tables := by
  obtain ⟨-, -, rfl⟩ := block_eq_ok.mp h
  exact { Tables.GrowsBeyond.refl m b.tables with
    functions := .modify _ hf _
    blocks := .push _ _ _
    sizes := { Sizes.Le.refl b.tables.sizes with
      functions := by simp [Tables.sizes]
      blocks := by simp [Tables.sizes] } }

/-- A new instruction changes its block, which has to be a new one, and may not use old values. -/
theorem growsBeyond_push {bb : BlockId} {kind : InstKind} {ty : TypeId} {i : InstId}
    (hbb : m.blocks ≤ bb.index) (hoperands : ∀ v ∈ kind.operands, v.Outside m)
    (h : b.push bb kind ty = .ok (i, b')) : b.tables.GrowsBeyond m b'.tables := by
  obtain ⟨-, -, rfl⟩ := push_eq_ok.mp h
  refine { Tables.GrowsBeyond.refl m b.tables with
    blocks := .modify _ hbb _
    insts := .push _ _ _
    sizes := { Sizes.Le.refl b.tables.sizes with
      blocks := by simp [Tables.sizes]
      insts := by simp [Tables.sizes] }
    operands := fun j k _ hk => ?_ }
  -- the last instruction is the one that was pushed
  obtain ⟨x, hx, rfl⟩ := Tables.kindOf_eq_ok.mp hk
  have hget : (b.tables.insts.push ⟨kind, ty, bb, none⟩)[j.index]? = some x := Tables.inst_eq_ok.mp hx
  rw [Array.getElem?_push] at hget
  split at hget
  · cases hget
    exact .inr hoperands
  · exact .inl (Tables.kindOf_of_inst (Tables.inst_eq_ok.mpr hget))

/-- Only a new instruction may be given a location. -/
theorem growsBeyond_setLocation {i : InstId} {loc : Location} (hi : m.insts ≤ i.index)
    (h : b.setLocation i loc = .ok b') : b.tables.GrowsBeyond m b'.tables := by
  obtain ⟨-, rfl⟩ := setLocation_eq_ok.mp h
  refine { Tables.GrowsBeyond.refl m b.tables with
    insts := .modify _ hi _
    sizes := { Sizes.Le.refl b.tables.sizes with insts := by simp [Tables.sizes] }
    operands := fun j k _ hk => ?_ }
  obtain ⟨x, hx, rfl⟩ := Tables.kindOf_eq_ok.mp hk
  have hget : (b.tables.insts.modify i.index fun x => { x with loc := some loc })[j.index]? = some x :=
    Tables.inst_eq_ok.mp hx
  rw [Array.getElem?_modify] at hget
  left
  split at hget
  · -- a place is not part of what an instruction does
    obtain ⟨y, hy, rfl⟩ := Option.map_eq_some_iff.mp hget
    have hkind : b.tables.kindOf j = .ok y.kind := Tables.kindOf_of_inst (Tables.inst_eq_ok.mpr hy)
    exact hkind
  · exact Tables.kindOf_of_inst (Tables.inst_eq_ok.mpr hget)

/-- **Step lemma**: one step beyond the first entries. -/
theorem growsBeyond_run {s : Step} (hs : s.Beyond m) {answer : Answer} (h : s.run b = .ok (answer, b')) :
    b.tables.GrowsBeyond m b'.tables := by
  cases s with
  -- questions change nothing
  | void | lookupNamed | arg | instCount =>
    cases h
    exact .refl ..
  | int | pointer | recordType | bodylessType =>
    cases h
    exact growsBeyond_intern m b _
  | declareRecord =>
    cases h
    exact growsBeyond_addType m b _
  | setFields =>
    obtain ⟨c, hc, h⟩ := bind_eq_ok.mp h
    cases h
    exact growsBeyond_setFields hs hc
  | global name ty =>
    cases h
    exact growsBeyond_global m b name ty
  | function name params ret =>
    cases h
    exact growsBeyond_function m b name params ret
  | returnType =>
    obtain ⟨ty, -, h⟩ := bind_eq_ok.mp h
    cases h
    exact .refl ..
  | block =>
    obtain ⟨c, hc, h⟩ := bind_eq_ok.mp h
    cases h
    exact growsBeyond_block hs hc
  | setLocation =>
    obtain ⟨c, hc, h⟩ := bind_eq_ok.mp h
    cases h
    exact growsBeyond_setLocation hs hc
  -- the result type is looked up first, which changes nothing either
  | call | invoke =>
    obtain ⟨c, hc, h⟩ := bind_eq_ok.mp h
    cases h
    obtain ⟨ty, -, hc⟩ := bind_eq_ok.mp hc
    refine growsBeyond_push hs.1 ?_ hc
    simpa [InstKind.operands, Callee.operands] using hs.2
  | icmp =>
    -- the type of the result is made first
    obtain ⟨c, hc, h⟩ := bind_eq_ok.mp h
    cases h
    refine (growsBeyond_intern m b _).trans (growsBeyond_push hs.1 ?_ hc)
    exact hs.2
  | alloca =>
    obtain ⟨c, hc, h⟩ := bind_eq_ok.mp h
    cases h
    exact (growsBeyond_intern m b _).trans (growsBeyond_push hs (by simp [InstKind.operands]) hc)
  | push =>
    obtain ⟨c, hc, h⟩ := bind_eq_ok.mp h
    cases h
    exact growsBeyond_push hs.1 hs.2 hc

/-- **Run lemma**: all steps, by induction over them. -/
theorem growsBeyond_runAll {steps : List Step} (hsteps : ∀ s ∈ steps, s.Beyond m)
    (h : b.runAll steps = .ok b') : b.tables.GrowsBeyond m b'.tables := by
  induction steps generalizing b with
  | nil =>
    cases h
    exact .refl ..
  | cons s steps ih =>
    obtain ⟨⟨answer, c⟩, hc, h⟩ := bind_eq_ok.mp h
    have hfirst := growsBeyond_run (hsteps s (List.mem_cons_self ..)) hc
    exact hfirst.trans (ih (fun s hs => hsteps s (List.mem_cons_of_mem _ hs)) h)

/-- A builder that goes on beyond all its entries builds a program apart from the one it had. -/
theorem extendsApart_of_runAll {steps : List Step} (hsteps : ∀ s ∈ steps, s.Beyond b.tables.sizes)
    (h : b.runAll steps = .ok b') : b.finish.ExtendsApart b'.finish.toTables :=
  (growsBeyond_runAll hsteps h).extendsApart

end Builder

end Relock
