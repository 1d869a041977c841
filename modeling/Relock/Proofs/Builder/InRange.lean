import Relock.Proofs.Builder.Arrangement
import Relock.Proofs.Grouping

/-!
# Builders keep indices in range

What a builder adds is in range if what it is asked to add is. Instructions may name others that are
still to come, so the invariant `Builder.Sound` carries the number of instructions that there are going
to be.

* `Builder.TypesInRange`, `Builder.AddsTypes`: the types alone, which most operations leave as they are;
* `Builder.MakesType`: an operation that makes or finds a type;
* `Builder.Sound`: the invariant, with one lemma for each operation that adds an entry.
-/

namespace Relock.Builder

variable {b b' b'' : Builder}

/-! ## Types -/

/-- Types are made of existing types, and shared types exist. -/
structure TypesInRange (b : Builder) : Prop where
  parts : ∀ k ∈ b.tables.types, ∀ i ∈ k.parts, i.index < b.tables.types.size
  interned : ∀ e ∈ b.interned, e.2.index < b.tables.types.size
  word : TypeId.word.index < b.tables.types.size

/-- Nothing but the type table and the shared types matters. -/
theorem TypesInRange.of_eq (hb : b.TypesInRange) (htypes : b'.tables.types = b.tables.types)
    (hinterned : b'.interned = b.interned) : b'.TypesInRange := by
  refine ⟨?_, ?_, ?_⟩
  · rw [htypes]
    exact hb.parts
  · rw [htypes, hinterned]
    exact hb.interned
  · rw [htypes]
    exact hb.word

/-- The two builders differ in their types only, and none was removed. -/
structure AddsTypes (b b' : Builder) : Prop where
  globals : b'.tables.globals = b.tables.globals
  functions : b'.tables.functions = b.tables.functions
  blocks : b'.tables.blocks = b.tables.blocks
  insts : b'.tables.insts = b.tables.insts
  le : b.tables.types.size ≤ b'.tables.types.size

theorem AddsTypes.refl (b : Builder) : b.AddsTypes b := ⟨rfl, rfl, rfl, rfl, Nat.le_refl _⟩

theorem AddsTypes.trans (h : b.AddsTypes b') (h' : b'.AddsTypes b'') : b.AddsTypes b'' :=
  ⟨h'.globals.trans h.globals, h'.functions.trans h.functions, h'.blocks.trans h.blocks,
    h'.insts.trans h.insts, Nat.le_trans h.le h'.le⟩

/-- The types returned exist in the builder returned. -/
structure MakesTypes (b : Builder) (r : List TypeId × Builder) : Prop where
  types : r.2.TypesInRange
  adds : b.AddsTypes r.2
  lt : ∀ t ∈ r.1, t.index < r.2.tables.types.size

/-- The type returned exists in the builder returned. -/
structure MakesType (b : Builder) (r : TypeId × Builder) : Prop where
  types : r.2.TypesInRange
  adds : b.AddsTypes r.2
  lt : r.1.index < r.2.tables.types.size

theorem makesType_self (hb : b.TypesInRange) {t : TypeId} (ht : t.index < b.tables.types.size) :
    b.MakesType (t, b) :=
  ⟨hb, .refl b, ht⟩

/-- A new type made of existing ones exists. -/
theorem makesType_addType (hb : b.TypesInRange) {k : TypeKind}
    (hk : ∀ i ∈ k.parts, i.index < b.tables.types.size) : b.MakesType (b.addType k) := by
  have hsize : (b.addType k).2.tables.types.size = b.tables.types.size + 1 := by simp [addType]
  have hword := hb.word
  refine ⟨⟨?_, ?_, by omega⟩, ⟨rfl, rfl, rfl, rfl, by omega⟩, ?_⟩
  · -- old types and the new one have parts that existed before
    intro k' hk' i hi
    rw [hsize]
    rcases Array.mem_push.mp hk' with hk' | rfl
    · exact Nat.lt_succ_of_lt (hb.parts k' hk' i hi)
    · exact Nat.lt_succ_of_lt (hk i hi)
  · intro e he
    rw [hsize]
    exact Nat.lt_succ_of_lt (hb.interned e he)
  · rw [hsize]
    exact Nat.lt_succ_self _

/-- An interned type exists, whether it was found or added. -/
theorem makesType_intern (hb : b.TypesInRange) {k : TypeKind}
    (hk : ∀ i ∈ k.parts, i.index < b.tables.types.size) : b.MakesType (b.intern k) := by
  unfold intern
  cases hlookup : b.interned.lookup k with
  | some i =>
    -- the type was made before
    exact makesType_self hb (hb.interned _ (mem_of_lookup hlookup))
  | none =>
    have hadd := makesType_addType hb hk
    refine ⟨⟨hadd.types.parts, ?_, hadd.types.word⟩, ⟨rfl, rfl, rfl, rfl, hadd.adds.le⟩, hadd.lt⟩
    intro e he
    rcases List.mem_cons.mp he with rfl | he
    · exact hadd.lt
    · exact hadd.types.interned e he

theorem makesType_int (hb : b.TypesInRange) (bits : Nat) : b.MakesType (b.int bits) :=
  makesType_intern hb (by simp [TypeKind.parts])

theorem makesType_pointer (hb : b.TypesInRange) {t : TypeId} (ht : t.index < b.tables.types.size) :
    b.MakesType (b.pointer t) :=
  makesType_intern hb (by simpa [TypeKind.parts] using ht)

theorem makesType_bodylessType (hb : b.TypesInRange) (name : String) :
    b.MakesType (b.bodylessType name) :=
  makesType_intern hb (by simp [TypeKind.parts])

/-- A record is declared without fields, so there is nothing to check. -/
theorem makesType_declareRecord (hb : b.TypesInRange) (name : String) :
    b.MakesType (b.declareRecord name) :=
  makesType_addType hb (by simp [TypeKind.parts])

theorem lt_of_lookupNamed {name : String} {t : TypeId} (h : b.lookupNamed name = some t) :
    t.index < b.tables.types.size := by
  obtain ⟨n, hn, rfl⟩ := Option.map_eq_some_iff.mp h
  obtain ⟨hlt, -⟩ := Array.findIdx?_eq_some_iff_getElem.mp hn
  exact hlt

/-- A record may get any fields that exist, itself included. -/
theorem setFields_inRange (hb : b.TypesInRange) {t : TypeId} {fields : List TypeId}
    (hfields : ∀ i ∈ fields, i.index < b.tables.types.size) (h : b.setFields t fields = .ok b') :
    b'.TypesInRange ∧ b.AddsTypes b' := by
  obtain ⟨k, -, h⟩ := bind_eq_ok.mp h
  cases k with
  | record name old =>
    cases h
    have hsize : (b.tables.types.setIfInBounds t.index (.record name fields)).size = b.tables.types.size :=
      Array.size_setIfInBounds
    -- no type is added or removed; the record gets fields that exist
    refine ⟨⟨?_, ?_, ?_⟩, rfl, rfl, rfl, rfl, Nat.le_of_eq hsize.symm⟩
    · intro k hk i hi
      rw [hsize]
      rcases Array.mem_or_eq_of_mem_setIfInBounds hk with hk | rfl
      · exact hb.parts k hk i hi
      · exact hfields i hi
    · intro e he
      rw [hsize]
      exact hb.interned e he
    · rw [hsize]
      exact hb.word
  | _ =>
    cases h
    exact ⟨hb, .refl b⟩

/-- The two types that every program has are in range. -/
theorem typesInRange_empty : Builder.empty.TypesInRange := by
  constructor <;> decide

/-! ## The whole builder -/

/-- A builder of a program that is going to have `n` instructions, with every index in range. -/
structure Sound (b : Builder) (n : Nat) : Prop where
  types : b.TypesInRange
  arranged : b.tables.Arranged
  within : b.tables.Within (b.tables.sizesUpTo n)
  le : b.tables.insts.size ≤ n

/-- The builder `b'` is sound and has the entries of `b`, among them `k` new instructions. -/
structure GrowsTo (b : Builder) (n k : Nat) (b' : Builder) : Prop where
  sound : b'.Sound n
  le : b.tables.sizes.Le b'.tables.sizes
  added : b'.tables.insts.size = b.tables.insts.size + k

variable {m n : Nat}

theorem AddsTypes.sizes_le (h : b.AddsTypes b') : b.tables.sizes.Le b'.tables.sizes := by
  refine ⟨h.le, ?_, ?_, ?_, ?_⟩
  · exact Nat.le_of_eq (congrArg Array.size h.globals.symm)
  · exact Nat.le_of_eq (congrArg Array.size h.functions.symm)
  · exact Nat.le_of_eq (congrArg Array.size h.blocks.symm)
  · exact Nat.le_of_eq (congrArg Array.size h.insts.symm)

theorem GrowsTo.trans {k l : Nat} (h : b.GrowsTo n k b') (h' : b'.GrowsTo n l b'') :
    b.GrowsTo n (k + l) b'' :=
  ⟨h'.sound, h.le.trans h'.le, by rw [h'.added, h.added, Nat.add_assoc]⟩

/-- There may be more instructions to come. -/
theorem Sound.mono (hb : b.Sound m) (hmn : m ≤ n) : b.Sound n :=
  ⟨hb.types, hb.arranged, hb.within.mono ((Sizes.Le.refl _).upTo hmn), Nat.le_trans hb.le hmn⟩

/-- Once all instructions are there, every index is in range. -/
theorem Sound.inRange (hb : b.Sound b.tables.insts.size) : b.tables.InRange :=
  ⟨hb.within, hb.types.word⟩

theorem sound_empty : Builder.empty.Sound 0 := by
  refine ⟨typesInRange_empty, arranged_of_eq arranged_empty rfl rfl rfl, ?_, Nat.le_refl _⟩
  have hrange : Builder.empty.tables.InRange := by decide
  exact hrange.within

/-- Adding types keeps a builder sound: everything else is in range of larger tables. -/
theorem Sound.addsTypes (hb : b.Sound n) (hadds : b.AddsTypes b') (htypes : b'.TypesInRange) :
    b.GrowsTo n 0 b' := by
  have hle := hadds.sizes_le
  -- what was in range of the smaller tables is in range of the larger ones
  have hold := hb.within.mono (hle.upTo (Nat.le_refl n))
  refine ⟨⟨htypes, arranged_of_eq hb.arranged hadds.functions hadds.blocks hadds.insts, ?_, ?_⟩, hle, ?_⟩
  · exact {
      types := htypes.parts
      globals := by rw [hadds.globals]; exact hold.globals
      params := by rw [hadds.functions]; exact hold.params
      rets := by rw [hadds.functions]; exact hold.rets
      bodies := by rw [hadds.functions]; exact hold.bodies
      owners := by rw [hadds.blocks]; exact hold.owners
      listed := by rw [hadds.blocks]; exact hold.listed
      results := by rw [hadds.insts]; exact hold.results
      parents := by rw [hadds.insts]; exact hold.parents
      kinds := by rw [hadds.insts]; exact hold.kinds }
  · rw [hadds.insts]
    exact hb.le
  · rw [hadds.insts]
    rfl

/-- A type made on the way keeps a builder sound. -/
theorem Sound.makesType (hb : b.Sound n) {r : TypeId × Builder} (hr : b.MakesType r) :
    b.GrowsTo n 0 r.2 :=
  hb.addsTypes hr.adds hr.types

/-- The result type of a function exists. -/
theorem Sound.returnType_lt (hb : b.Sound n) {f : FunctionId} {ret : TypeId}
    (h : b.returnType f = .ok ret) : ret.index < b.tables.types.size := by
  obtain ⟨g, hg, hret⟩ := bind_eq_ok.mp h
  cases hret
  exact hb.within.rets g (Array.mem_of_getElem? (Tables.function_eq_ok.mp hg))

/-! ## New entries -/

theorem Sound.function (hb : b.Sound n) (name : String) {params : List TypeId} {ret : TypeId}
    (hparams : ∀ i ∈ params, i.index < b.tables.types.size) (hret : ret.index < b.tables.types.size) :
    b.GrowsTo n 0 (b.function name params ret).2 := by
  have hle : b.tables.sizes.Le (b.function name params ret).2.tables.sizes :=
    ⟨Nat.le_refl _, Nat.le_refl _, by simp [Builder.function, Tables.sizes], Nat.le_refl _, Nat.le_refl _⟩
  have hold := hb.within.mono (hle.upTo (Nat.le_refl n))
  refine ⟨⟨hb.types.of_eq rfl rfl, arranged_function hb.arranged name params ret, ?_, hb.le⟩, hle, rfl⟩
  -- only what is asked of functions has to be shown again
  refine { hold with params := fun f hf => ?_, rets := fun f hf => ?_, bodies := fun f hf => ?_ }
  all_goals rcases Array.mem_push.mp hf with hf | rfl
  · exact hold.params f hf
  · exact hparams
  · exact hold.rets f hf
  · exact hret
  · exact hold.bodies f hf
  · simp

theorem Sound.global (hb : b.Sound n) (name : String) {ty : TypeId} (hty : ty.index < b.tables.types.size) :
    b.GrowsTo n 0 (b.global name ty).2 := by
  -- the type of a global is a pointer, which is made before the entry
  have hptr := makesType_pointer hb.types hty
  obtain ⟨hmade, hmadele, hmadded⟩ := hb.makesType hptr
  have hle : (b.pointer ty).2.tables.sizes.Le (b.global name ty).2.tables.sizes :=
    ⟨Nat.le_refl _, by simp [Builder.global, Tables.sizes], Nat.le_refl _, Nat.le_refl _, Nat.le_refl _⟩
  have hold := hmade.within.mono (hle.upTo (Nat.le_refl n))
  refine ⟨⟨hmade.types.of_eq rfl rfl, arranged_of_eq hmade.arranged rfl rfl rfl, ?_, hmade.le⟩,
    hmadele.trans hle, hmadded⟩
  refine { hold with globals := fun g hg => ?_ }
  rcases Array.mem_push.mp hg with hg | rfl
  · exact hold.globals g hg
  · exact ⟨Nat.lt_of_lt_of_le hty hptr.adds.le, hptr.lt⟩

theorem Sound.block (hb : b.Sound n) {f : FunctionId} {label : String} {i : BlockId}
    (h : b.block f label = .ok (i, b')) :
    b.GrowsTo n 0 b' ∧ f.index < b.tables.functions.size ∧ i.index < b'.tables.blocks.size := by
  have harranged := arranged_block hb.arranged h
  obtain ⟨⟨g, hg⟩, rfl, rfl⟩ := block_eq_ok.mp h
  have hf : f.index < b.tables.functions.size :=
    (Array.getElem?_eq_some_iff.mp (Tables.function_eq_ok.mp hg)).1
  -- no table gets smaller; this is what the invariant of the old entries is carried along
  have hle : b.tables.sizes.Le { b.tables with
      blocks := b.tables.blocks.push ⟨label, f, []⟩
      functions := b.tables.functions.modify f.index fun g =>
        { g with blocks := g.blocks ++ [⟨b.tables.blocks.size⟩] } : Tables }.sizes :=
    ⟨Nat.le_refl _, Nat.le_refl _, by simp [Tables.sizes], by simp [Tables.sizes], Nat.le_refl _⟩
  have hold := hb.within.mono (hle.upTo (Nat.le_refl n))
  refine ⟨⟨⟨hb.types.of_eq rfl rfl, harranged, ?_, hb.le⟩, hle, rfl⟩, hf, by simp⟩
  refine { hold with
    params := ?_
    rets := ?_
    bodies := ?_
    owners := fun c hc => ?_
    listed := fun c hc => ?_ }
  · dsimp only
    apply forall_mem_modify hold.params
    exact fun _ hparams => hparams
  · dsimp only
    apply forall_mem_modify hold.rets
    exact fun _ hret => hret
  · -- the new block is the one that was added to a body
    dsimp only
    apply forall_mem_modify hold.bodies
    intro g hbodies c hc
    rcases List.mem_append.mp hc with hc | hc
    · exact hbodies c hc
    · rw [List.mem_singleton.mp hc]
      simp [Tables.sizesUpTo, Tables.sizes]
  · rcases Array.mem_push.mp hc with hc | rfl
    · exact hold.owners c hc
    · exact Nat.lt_of_lt_of_le hf hle.functions
  · rcases Array.mem_push.mp hc with hc | rfl
    · exact hold.listed c hc
    · simp

/-- **The step of a body.** A new instruction in a block that exists. What it names must exist once all `n`
instructions are there, so it may name instructions that come later. -/
theorem Sound.push (hb : b.Sound n) {bb : BlockId} {kind : InstKind} {ty : TypeId} {i : InstId}
    (hkind : kind.Within (b.tables.sizesUpTo n)) (hty : ty.index < b.tables.types.size)
    (hroom : b.tables.insts.size < n) (h : b.push bb kind ty = .ok (i, b')) :
    b.GrowsTo n 1 b' := by
  have harranged := arranged_push hb.arranged h
  obtain ⟨⟨x, hx⟩, rfl, rfl⟩ := push_eq_ok.mp h
  have hbb : bb.index < b.tables.blocks.size :=
    (Array.getElem?_eq_some_iff.mp (Tables.block_eq_ok.mp hx)).1
  have hle : b.tables.sizes.Le { b.tables with
      insts := b.tables.insts.push ⟨kind, ty, bb, none⟩
      blocks := b.tables.blocks.modify bb.index fun c =>
        { c with insts := c.insts ++ [⟨b.tables.insts.size⟩] } : Tables }.sizes :=
    ⟨Nat.le_refl _, Nat.le_refl _, Nat.le_refl _, by simp [Tables.sizes], by simp [Tables.sizes]⟩
  have hold := hb.within.mono (hle.upTo (Nat.le_refl n))
  refine ⟨⟨hb.types.of_eq rfl rfl, harranged, ?_, ?_⟩, hle, Array.size_push _⟩
  -- that there is room first, then the entries one kind after the other
  rotate_left
  · rw [Array.size_push]
    exact hroom
  refine { hold with
    owners := ?_
    listed := ?_
    results := fun y hy => ?_
    parents := fun y hy => ?_
    kinds := fun y hy => ?_ }
  · dsimp only
    apply forall_mem_modify hold.owners
    exact fun _ howner => howner
  · -- the new instruction is the one that was added to a list
    dsimp only
    apply forall_mem_modify hold.listed
    intro c hlisted j hj
    rcases List.mem_append.mp hj with hj | hj
    · exact hlisted j hj
    · rw [List.mem_singleton.mp hj]
      exact hroom
  · rcases Array.mem_push.mp hy with hy | rfl
    · exact hold.results y hy
    · exact hty
  · rcases Array.mem_push.mp hy with hy | rfl
    · exact hold.parents y hy
    · exact Nat.lt_of_lt_of_le hbb hle.blocks
  · rcases Array.mem_push.mp hy with hy | rfl
    · exact hold.kinds y hy
    · exact hkind.mono (hle.upTo (Nat.le_refl n))

theorem Sound.setLocation (hb : b.Sound n) {i : InstId} {loc : Location} (h : b.setLocation i loc = .ok b') :
    b.GrowsTo n 0 b' := by
  have harranged := arranged_setLocation hb.arranged h
  obtain ⟨-, rfl⟩ := setLocation_eq_ok.mp h
  -- the table keeps its size, and only one field of one entry changes
  have hsize : (b.tables.insts.modify i.index fun x => { x with loc := some loc }).size =
      b.tables.insts.size := Array.size_modify
  have hold := hb.within
  refine ⟨⟨hb.types.of_eq rfl rfl, harranged, ?_, by rw [hsize]; exact hb.le⟩, ?_, hsize⟩
  · refine { hold with results := ?_, parents := ?_, kinds := ?_ }
    · dsimp only
      apply forall_mem_modify hold.results
      exact fun _ hresult => hresult
    · dsimp only
      apply forall_mem_modify hold.parents
      exact fun _ hparent => hparent
    · dsimp only
      apply forall_mem_modify hold.kinds
      exact fun _ hkind => hkind
  · exact ⟨Nat.le_refl _, Nat.le_refl _, Nat.le_refl _, Nat.le_refl _, Nat.le_of_eq hsize.symm⟩

end Relock.Builder
